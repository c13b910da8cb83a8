import Vtfs.Analysis.MetadataLoading
import Vtfs.Analysis.SessionIndex
import Vtfs.Interface.PayloadFiles

/-!
# Where payload files lie

The virtual path of an entry is normalized, but its names are those of the torrent: `..` climbs,
and a second leading slash makes the relative path absolute.  The file of an entry stays below the
payload directory exactly when neither leads out of it (`confined_iff`).
-/

set_option autoImplicit false

namespace Vtfs.Analysis

open Vtfs.Library
open Vtfs.Library.PosixPath
open Vtfs.Model
open Vtfs.Interface

/-! ## The entries of the index -/

/-- A file of the index is the entry of a record. -/
theorem exists_entryOf {files : List TorrentFileRecord} {entry : FileEntry}
    (h : IsFileEntry (buildIndex files) entry) : ∃ e ∈ files.zipIdx, entry = entryOf e := by
  obtain ⟨hfile, ⟨path, hlookup⟩ | ⟨path, hlisted⟩⟩ := h
  · rcases (entriesHold_buildIndex files).cases _ _ hlookup with ⟨rfl, -⟩ | ⟨e, he, -, hentry⟩
    · cases hfile
    · exact ⟨e, he, hentry⟩
  · have hmem : entry ∈ ((buildIndex files).children (normalizePath path)).filter
        fun e => !e.isDirectory :=
      List.mem_filter.mpr ⟨hlisted, by rw [hfile]; rfl⟩
    rw [filesListed_buildIndex files] at hmem
    obtain ⟨e, he, hentry⟩ := List.mem_map.mp hmem
    exact ⟨e, (List.mem_filter.mp he).1, hentry.symm⟩

/-- The virtual path of a file is normalized. -/
theorem normalized_virtualPath {files : List TorrentFileRecord} {entry : FileEntry}
    (h : IsFileEntry (buildIndex files) entry) : Normalized entry.virtualPath := by
  obtain ⟨e, -, rfl⟩ := exists_entryOf h
  exact normalizePath_normalized _

/-! ## The payload directory -/

/-- The name of the payload directory is relative. -/
theorem payload_not_absolute : isAbsolute (bytes "payload") = false := by decide

/-- It is one name. -/
theorem names_payload : names (bytes "payload") = [bytes "payload"] := by decide

/-- The payload directory has a name. -/
theorem names_payloadDirectory_ne_nil (cacheDirectory : Bytes) :
    names (payloadDirectory cacheDirectory) ≠ [] := by
  rw [payloadDirectory, names_append _ payload_not_absolute, names_payload]
  simp

/-- Its name leads down one level. -/
theorem normal_payload : normal (bytes "payload") = ⟨false, 0, [bytes "payload"]⟩ := by decide

/-- The payload directory is not a root. -/
theorem normal_payloadDirectory_ne_nil (cacheDirectory : Bytes) :
    (normal (payloadDirectory cacheDirectory)).names ≠ [] := by
  rw [payloadDirectory, normal_append _ payload_not_absolute, normal_payload]
  simp [Normal.climb]

/-! ## The path of a file -/

/-- The path of a file: the virtual path without its first slash, below the payload directory. -/
theorem payloadPathFor_eq (cacheDirectory : Bytes) {entry : FileEntry}
    (h : Normalized entry.virtualPath) :
    payloadPathFor cacheDirectory entry =
      append (payloadDirectory cacheDirectory) entry.virtualPath.tail := by
  have hmap : ∀ text : Bytes, (text.map fun ch => if ch = slash then slash else ch) = text := by
    intro text
    have hid : (fun ch : UInt8 => if ch = slash then slash else ch) = id := by
      funext ch
      by_cases hch : ch = slash
      · simp [hch]
      · simp [hch]
    rw [hid, List.map_id]
  have hhead : entry.virtualPath.head? = some slash := by rw [h.eq_cons]; rfl
  rw [payloadPathFor, if_pos hhead, hmap, payloadDirectory]

/-- The path of a file is below the payload directory exactly when its virtual path leads there. -/
theorem payloadPathFor_below_iff (cacheDirectory : Bytes) {entry : FileEntry}
    (h : Normalized entry.virtualPath) :
    StrictlyBelow (normal (payloadDirectory cacheDirectory))
        (normal (payloadPathFor cacheDirectory entry)) ↔
      Confining (normal (payloadDirectory cacheDirectory)) entry.virtualPath.tail := by
  rw [payloadPathFor_eq cacheDirectory h]
  by_cases habsolute : isAbsolute entry.virtualPath.tail = true
  · rw [append_of_isAbsolute _ habsolute]
    constructor
    · exact fun hbelow => .rooted habsolute hbelow
    · rintro (⟨hrelative, -, -⟩ | ⟨hrelative, -, -⟩ | ⟨-, hbelow⟩)
      · simp [habsolute] at hrelative
      · simp [habsolute] at hrelative
      · exact hbelow
  · have hrelative : isAbsolute entry.virtualPath.tail = false := by simpa using habsolute
    rw [normal_append _ hrelative, strictlyBelow_climb_iff]
    have hdescends : ∀ descent, (normal (payloadDirectory cacheDirectory)).Returns 0 descent ↔
        descent ≠ [] := by
      intro descent
      simp [Normal.Returns, ProperPrefix, eq_comm]
    constructor
    · intro hreturns
      rcases Nat.eq_zero_or_pos (normal entry.virtualPath.tail).ups with hups | hups
      · rw [hups, hdescends] at hreturns
        exact .descends hrelative hups hreturns
      · exact .returns hrelative hups hreturns
    · rintro (⟨-, hups, hnames⟩ | ⟨-, -, hreturns⟩ | ⟨habs, -⟩)
      · rwa [hups, hdescends]
      · exact hreturns
      · exact absurd habs habsolute

/-- A payload path that stays below the payload directory ends with a file name. -/
theorem hasFilename_payloadPathFor {cacheDirectory : Bytes} {entry : FileEntry}
    (h : Normalized entry.virtualPath)
    (hconfining : Confining (normal (payloadDirectory cacheDirectory)) entry.virtualPath.tail) :
    hasFilename (payloadPathFor cacheDirectory entry) = true := by
  have htail : entry.virtualPath.tail ≠ [] := by
    intro hnil
    have hnormal : normal [] = ⟨false, 0, []⟩ := by decide
    rw [hnil] at hconfining
    rcases hconfining with ⟨-, -, hnames⟩ | ⟨-, hups, -⟩ | ⟨habsolute, -⟩
    · exact hnames (by rw [hnormal])
    · simp [hnormal] at hups
    · exact absurd habsolute (by decide)
  have hpath := getLast?_append (payloadDirectory cacheDirectory) htail
  rw [payloadPathFor_eq cacheDirectory h]
  simp only [hasFilename, decide_eq_true_eq]
  constructor
  · intro hnil
    rw [hnil] at hpath
    exact htail (List.getLast?_eq_none_iff.mp hpath.symm)
  · rw [hpath]
    exact h.getLast?_tail

/-- A name with `.part` after it is longer than `.` and `..`. -/
theorem part_ne_dots (leaf : Bytes) :
    leaf ++ bytes ".part" ≠ dot ∧ leaf ++ bytes ".part" ≠ dotDot := by
  have hlong : 5 ≤ (leaf ++ bytes ".part").length := by simp [bytes]
  constructor
  · intro hdot
    rw [hdot] at hlong
    exact absurd hlong (by decide)
  · intro hdots
    rw [hdots] at hlong
    exact absurd hlong (by decide)

/-- The part file lies next to its payload file. -/
theorem partPathFor_below {base : Normal} (hbase : base.names ≠ []) {path : Bytes}
    (hfile : hasFilename path = true) (h : StrictlyBelow base (normal path)) :
    StrictlyBelow base (normal (partPathFor path)) := by
  obtain ⟨above, leaf, hleaf⟩ := exists_leaf hfile
  have hnormal := hleaf [] (by simp)
  rw [List.append_nil, List.append_nil] at hnormal
  rw [hnormal] at h
  rw [partPathFor, hleaf (bytes ".part") (by decide)]
  exact h.step_name hbase (part_ne_dots leaf).1 (part_ne_dots leaf).2

/-- **Confinement.**  The file of an entry and the `.part` file of its download lie below the
payload directory if and only if the virtual path without its first slash neither climbs out nor
is absolute, or comes back below the directory by name.
SRCLINE: TorrentSession.cpp:76-87 -/
theorem confined_iff {files : List TorrentFileRecord} {entry : FileEntry}
    (h : IsFileEntry (buildIndex files) entry) (cacheDirectory : Bytes) :
    Confined cacheDirectory entry ↔
      Confining (normal (payloadDirectory cacheDirectory)) entry.virtualPath.tail := by
  have hnormalized := normalized_virtualPath h
  constructor
  · exact fun hconfined => (payloadPathFor_below_iff cacheDirectory hnormalized).mp hconfined.file
  · intro hconfining
    have hbelow := (payloadPathFor_below_iff cacheDirectory hnormalized).mpr hconfining
    exact ⟨hbelow, partPathFor_below (normal_payloadDirectory_ne_nil cacheDirectory)
      (hasFilename_payloadPathFor hnormalized hconfining) hbelow⟩

/-- The file `x` of a torrent `a`, in the cache `/cache`. -/
theorem confined_plain :
    IsFileEntry (buildIndex [⟨bytes "a/x", 1, 0⟩]) ⟨bytes "/a/x", 1, 0, 0, false⟩ ∧
      Confined (bytes "/cache") ⟨bytes "/a/x", 1, 0, 0, false⟩ := by
  have hentry : IsFileEntry (buildIndex [⟨bytes "a/x", 1, 0⟩]) ⟨bytes "/a/x", 1, 0, 0, false⟩ :=
    ⟨rfl, Or.inl ⟨bytes "/a/x", by decide +kernel⟩⟩
  refine ⟨hentry, (confined_iff hentry (bytes "/cache")).mpr ?_⟩
  exact .descends (by decide) (by decide) (by decide)

/-- A torrent with the name `..`. -/
def climbingTorrent : StringView :=
  ⟨bytes "d4:infod6:lengthi1e4:name2:..12:piece lengthi1e6:pieces0:ee", by decide⟩

/-- The torrent with a file named `..` loads. -/
theorem accepts_climbingTorrent :
    ∃ metadata, Accepts climbingTorrent metadata ∧ metadata.files = [⟨bytes "..", 1, 0⟩] :=
  exists_accepts_of_files 40 (by decide +kernel)

/-- Its file is the cache directory itself. -/
theorem confined_fails : ¬ ∀ raw metadata, Accepts raw metadata →
    ∀ entry, IsFileEntry (buildIndex metadata.files) entry →
      ∀ cacheDirectory, Confined cacheDirectory entry := by
  intro h
  obtain ⟨metadata, haccepts, hfiles⟩ := accepts_climbingTorrent
  have hentry : IsFileEntry (buildIndex [⟨bytes "..", 1, 0⟩]) ⟨bytes "/..", 1, 0, 0, false⟩ :=
    ⟨rfl, Or.inl ⟨bytes "/..", by decide +kernel⟩⟩
  rw [← hfiles] at hentry
  have hbelow := (h _ _ haccepts _ hentry (bytes "/cache")).file
  exact absurd hbelow (by decide +kernel)

end Vtfs.Analysis
