import Vtfs.Analysis.PayloadPaths
import Vtfs.Interface.SessionRuns
import Vtfs.Interface.SharedStorage

/-!
# Files that share storage

Normalizing a path of a torrent keeps its parts (`names_tail_normalizePath`), so the path of its
payload file is that of its parts after the payload directory, or after the root
(`exists_above`).  Two payload files are one exactly when the parts lead to one place
(`separatePayloads_iff`).  Paths that lead down, none of them the beginning of another, have files
that are apart in every way (`filesApart_of_leadApart`).
-/

set_option autoImplicit false

namespace Vtfs.Analysis

open Vtfs.Library
open Vtfs.Library.PosixPath
open Vtfs.Model
open Vtfs.Interface

/-! ## The parts of a normalized path -/

/-- What is dropped at the end of a path is slashes. -/
theorem exists_dropped_slashes (rest : Bytes) : ∃ k,
    rest = rest.rdropWhile (· = slash) ++ List.replicate k slash := by
  induction rest using List.reverseRecOn with
  | nil => exact ⟨0, rfl⟩
  | append_singleton rest c ih =>
      by_cases hc : c = slash
      · obtain ⟨k, hk⟩ := ih
        refine ⟨k + 1, ?_⟩
        rw [List.rdropWhile_concat_pos _ _ _ (by simpa using hc), List.replicate_succ',
          ← List.append_assoc, ← hk, hc]
      · exact ⟨0, by rw [List.rdropWhile_concat_neg _ _ _ (by simpa using hc)]; simp⟩

/-- Dropping slashes at the end keeps the names. -/
theorem names_dropTrailing (rest : Bytes) :
    names (rest.rdropWhile (· = slash)) = names rest := by
  obtain ⟨k, hk⟩ := exists_dropped_slashes rest
  conv_rhs => rw [hk]
  rw [names_append_slashes]

/-- Normalizing a path keeps its parts. -/
theorem names_tail_normalizePath (path : Bytes) :
    names (normalizePath path).tail = partsOf path := by
  unfold normalizePath
  split
  · rename_i htrivial
    rcases htrivial with rfl | rfl <;> decide
  · obtain ⟨rest, hrest, -⟩ := slashed_shape path
    dsimp only
    rw [hrest, dropTrailingSlashes, List.tail_cons, names_dropTrailing, ← names_slash_cons rest,
      ← hrest, partsOf]
    split
    · rw [List.singleton_append, names_slash_cons]
    · rw [List.nil_append]

/-- Nothing is left of a path without parts. -/
theorem tail_normalizePath_eq_nil_iff (path : Bytes) :
    (normalizePath path).tail = [] ↔ partsOf path = [] := by
  rw [← names_tail_normalizePath]
  constructor
  · intro hnil
    rw [hnil, names_nil]
  · intro hnames
    by_contra hne
    have hlast := (normalizePath_normalized path).getLast?_tail
    exact names_ne_nil (by simp [hasFilename, hne, hlast]) hnames

/-- The head of the text that the trailing slashes are dropped from, after its first slash. -/
theorem isAbsolute_slashed {path rest : Bytes}
    (hrest : (if path.head? ≠ some slash then [slash] else []) ++
      path.map (fun ch => if ch = byte '\\' then slash else ch) = slash :: rest) :
    isAbsolute rest = true ↔ path.head? = some (byte '\\') ∨
      path.head? = some slash ∧
        (path.tail.head? = some slash ∨ path.tail.head? = some (byte '\\')) := by
  have hne : byte '\\' ≠ slash := by decide
  have hhead : ∀ text : Bytes,
      isAbsolute (text.map fun ch => if ch = byte '\\' then slash else ch) = true ↔
        text.head? = some slash ∨ text.head? = some (byte '\\') := by
    intro text
    cases text with
    | nil => simp [isAbsolute]
    | cons c cs =>
        by_cases hc : c = byte '\\'
        · simp [isAbsolute, hc]
        · simp [isAbsolute, hc]
  by_cases hslash : path.head? = some slash
  · obtain ⟨cs, rfl⟩ : ∃ cs, path = slash :: cs := by
      cases path with
      | nil => simp at hslash
      | cons c cs => exact ⟨cs, by simpa using hslash⟩
    have hcs : rest = cs.map fun ch => if ch = byte '\\' then slash else ch := by
      simpa [Ne.symm hne] using hrest.symm
    rw [hcs, hhead]
    simp [Ne.symm hne]
  · have hpath : rest = path.map fun ch => if ch = byte '\\' then slash else ch := by
      simpa [hslash] using hrest.symm
    rw [hpath, hhead]
    simp [hslash]

/-- What is appended to the payload directory is absolute when the path is taken so. -/
theorem isAbsolute_tail_normalizePath (path : Bytes) :
    isAbsolute (normalizePath path).tail = true ↔ TakenAbsolute path := by
  by_cases hparts : partsOf path = []
  · have hnil := (tail_normalizePath_eq_nil_iff path).mpr hparts
    rw [hnil]
    simp [isAbsolute, TakenAbsolute, hparts]
  · have hkept := mt (tail_normalizePath_eq_nil_iff path).mp hparts
    unfold normalizePath at hkept ⊢
    split at hkept
    · simp at hkept
    · rename_i htrivial
      rw [if_neg htrivial]
      obtain ⟨rest, hrest, -⟩ := slashed_shape path
      dsimp only at hkept ⊢
      rw [hrest, dropTrailingSlashes, List.tail_cons] at hkept ⊢
      obtain ⟨k, hk⟩ := exists_dropped_slashes rest
      rw [← isAbsolute_append_of_ne_nil hkept (List.replicate k slash), ← hk,
        isAbsolute_slashed hrest, TakenAbsolute]
      simp [hparts]

/-! ## The paths of a record -/

section Record

variable (cacheDirectory : Bytes) (record : TorrentFileRecord) (i : ℕ)

/-- The payload directory ends with a name. -/
theorem hasFilename_payloadDirectory : hasFilename (payloadDirectory cacheDirectory) = true := by
  have hlast := getLast?_append cacheDirectory (show bytes "payload" ≠ [] by decide)
  have hd : (bytes "payload").getLast? = some (byte 'd') := by decide
  rw [hd] at hlast
  simp only [hasFilename, decide_eq_true_eq]
  refine ⟨fun hnil => ?_, fun hslash => ?_⟩
  · rw [payloadDirectory] at hnil
    simp [hnil] at hlast
  · rw [payloadDirectory, hlast] at hslash
    exact absurd hslash (by decide)

/-- The names of the path of a payload file are the parts after those of the directory that they
lead from.  It has a last name when there is a part, and ends in a slash otherwise. -/
theorem exists_above : ∃ above,
    names (payloadPathFor cacheDirectory (fileEntry record i)) =
      above ++ partsOf record.relativePath ∧
    Normal.walk ⟨isAbsolute (payloadPathFor cacheDirectory (fileEntry record i)), 0, []⟩ above =
      startOf (normal (payloadDirectory cacheDirectory)) record.relativePath ∧
    if partsOf record.relativePath = [] then
      (payloadPathFor cacheDirectory (fileEntry record i)).getLast? = some slash
    else hasFilename (payloadPathFor cacheDirectory (fileEntry record i)) = true := by
  have hnormalized : Normalized (fileEntry record i).virtualPath := normalizePath_normalized _
  have hpath : (fileEntry record i).virtualPath = normalizePath record.relativePath := rfl
  have hnames := names_tail_normalizePath record.relativePath
  have hlast := hnormalized.getLast?_tail
  rw [payloadPathFor_eq cacheDirectory hnormalized]
  rw [hpath] at hlast ⊢
  have hnil := tail_normalizePath_eq_nil_iff record.relativePath
  have habsolute := isAbsolute_tail_normalizePath record.relativePath
  generalize (normalizePath record.relativePath).tail = relative at hnames hlast hnil habsolute ⊢
  by_cases htaken : TakenAbsolute record.relativePath
  · have hrelative := habsolute.mpr htaken
    have hne : relative ≠ [] := fun h => htaken.1 (hnil.mp h)
    refine ⟨[], ?_, ?_, ?_⟩
    · rw [append_of_isAbsolute _ hrelative, hnames, List.nil_append]
    · rw [append_of_isAbsolute _ hrelative, hrelative, startOf, if_pos htaken]
      rfl
    · rw [if_neg htaken.1, append_of_isAbsolute _ hrelative]
      simp [hasFilename, hne, hlast]
  · have hrelative : isAbsolute relative = false := by
      simpa using mt habsolute.mp htaken
    refine ⟨names (payloadDirectory cacheDirectory), ?_, ?_, ?_⟩
    · rw [names_append _ hrelative, hnames]
    · rw [isAbsolute_append _ hrelative, startOf, if_neg htaken, normal]
    · split
      · rename_i hparts
        rw [hnil.mpr hparts, append, if_neg (by decide),
          if_pos (hasFilename_payloadDirectory cacheDirectory), List.getLast?_concat]
      · rename_i hparts
        have hne : relative ≠ [] := mt hnil.mp hparts
        have hend := getLast?_append (payloadDirectory cacheDirectory) hne
        have hsome : append (payloadDirectory cacheDirectory) relative ≠ [] := by
          intro happend
          rw [happend] at hend
          exact hne (List.getLast?_eq_none_iff.mp hend.symm)
        simp [hasFilename, hsome, hend, hlast]

/-- A payload path is not empty. -/
theorem ne_nil_payloadPathFor : payloadPathFor cacheDirectory (fileEntry record i) ≠ [] := by
  intro hnil
  obtain ⟨above, -, -, hend⟩ := exists_above cacheDirectory record i
  rw [hnil] at hend
  split at hend
  · simp at hend
  · simp [hasFilename] at hend

/-- The path of a payload file leads where the parts lead. -/
theorem place_payloadPathFor :
    normal (payloadPathFor cacheDirectory (fileEntry record i)) =
        (placeFor (normal (payloadDirectory cacheDirectory)) record.relativePath).normal ∧
      endsInSeparator (payloadPathFor cacheDirectory (fileEntry record i)) =
        (placeFor (normal (payloadDirectory cacheDirectory)) record.relativePath).directory := by
  obtain ⟨above, hnames, hstart, hend⟩ := exists_above cacheDirectory record i
  have hnormal : normal (payloadPathFor cacheDirectory (fileEntry record i)) =
      (startOf (normal (payloadDirectory cacheDirectory)) record.relativePath).walk
        (partsOf record.relativePath) := by
    rw [normal, hnames, walk_append, hstart]
  refine ⟨hnormal, ?_⟩
  rw [endsInSeparator, hnormal, placeFor]
  refine decide_eq_decide.mpr (and_congr_right fun _ => ?_)
  simp only [leadsToDirectory, decide_eq_true_eq]
  by_cases hparts : partsOf record.relativePath = []
  · rw [if_pos hparts] at hend
    simp [hend, hparts]
  · rw [if_neg hparts] at hend
    have hlast : (payloadPathFor cacheDirectory (fileEntry record i)).getLast? ≠ some slash := by
      simp only [hasFilename, decide_eq_true_eq] at hend
      exact hend.2
    rw [hnames, List.getLast?_append_of_ne_nil _ hparts]
    simp [hlast, hparts]

/-- Behind the start of a record come the parts of its part file. -/
theorem names_partPathFor : ∃ above,
    names (partPathFor (payloadPathFor cacheDirectory (fileEntry record i))) =
      above ++ partFileParts record.relativePath ∧
    Normal.walk ⟨isAbsolute (partPathFor (payloadPathFor cacheDirectory (fileEntry record i))),
        0, []⟩ above =
      startOf (normal (payloadDirectory cacheDirectory)) record.relativePath := by
  obtain ⟨above, hnames, hstart, hend⟩ := exists_above cacheDirectory record i
  have habsolute := isAbsolute_append_of_ne_nil
    (ne_nil_payloadPathFor cacheDirectory record i) (bytes ".part")
  refine ⟨above, ?_, by rw [partPathFor, habsolute, hstart]⟩
  have hsuffix : slash ∉ bytes ".part" := by decide
  rw [partPathFor, partFileParts]
  by_cases hparts : partsOf record.relativePath = []
  · rw [if_pos hparts] at hend
    obtain ⟨front, hfront⟩ := List.getLast?_eq_some_iff.mp hend
    rw [hparts, List.append_nil, hfront, names_append_slash, names_nil, List.append_nil] at hnames
    rw [hfront, List.append_assoc, List.singleton_append, names_append_slash, hnames, hparts]
    congr 1
  · rw [if_neg hparts] at hend
    obtain ⟨front, leaf, hleaf, happend⟩ := exists_last_name hend
    obtain ⟨before, last, hlast⟩ := (List.eq_nil_or_concat' _).resolve_left hparts
    rw [hlast, ← List.append_assoc] at hnames
    obtain ⟨hbefore, hsame⟩ := List.append_inj' (hleaf.symm.trans hnames) rfl
    rw [happend _ hsuffix, hlast, List.dropLast_concat, List.getLast?_concat, hbefore,
      List.singleton_inj.mp hsame, List.append_assoc]
    rfl

/-- The `.part` file is where the parts lead with `.part` after the last. -/
theorem place_partPathFor :
    normal (partPathFor (payloadPathFor cacheDirectory (fileEntry record i))) =
        (partPlaceFor (normal (payloadDirectory cacheDirectory)) record.relativePath).normal ∧
      endsInSeparator (partPathFor (payloadPathFor cacheDirectory (fileEntry record i))) =
        (partPlaceFor (normal (payloadDirectory cacheDirectory))
          record.relativePath).directory := by
  obtain ⟨above, hnames, hstart⟩ := names_partPathFor cacheDirectory record i
  refine ⟨by rw [normal, hnames, walk_append, hstart, partPlaceFor], ?_⟩
  have hlast : (partPathFor (payloadPathFor cacheDirectory (fileEntry record i))).getLast? ≠
      some slash := by
    rw [partPathFor, List.getLast?_append_of_ne_nil _ (by decide)]
    decide
  rw [endsInSeparator, partPlaceFor, decide_eq_false_iff_not, leadsToDirectory, hnames,
    partFileParts, ← List.append_assoc, List.getLast?_concat]
  simp [hlast, part_ne_dots]

end Record

/-! ## When the files are apart -/

/-- No two files have one payload file if and only if their parts lead to different places. -/
theorem separatePayloads_iff (cacheDirectory : Bytes) (files : List TorrentFileRecord) :
    SeparatePayloads cacheDirectory files ↔
      PlacesApart (normal (payloadDirectory cacheDirectory)) files := by
  refine forall₅_congr fun i j record other _ => not_congr ?_
  obtain ⟨hnormal, hends⟩ := place_payloadPathFor cacheDirectory record i
  obtain ⟨hnormal', hends'⟩ := place_payloadPathFor cacheDirectory other j
  rw [lexicallyNormal_eq_iff (ne_nil_payloadPathFor cacheDirectory record i)
    (ne_nil_payloadPathFor cacheDirectory other j), hnormal, hnormal', hends, hends']
  exact Place.ext_iff.symm

/-- Downloads are apart when the places of part files and payload files are. -/
theorem separateDownloads_iff (cacheDirectory : Bytes) (files : List TorrentFileRecord) :
    SeparateDownloads cacheDirectory files ↔
      PartPlacesApart (normal (payloadDirectory cacheDirectory)) files := by
  refine forall₅_congr fun i j record other _ => not_congr ?_
  obtain ⟨hnormal, hends⟩ := place_partPathFor cacheDirectory record i
  obtain ⟨hnormal', hends'⟩ := place_payloadPathFor cacheDirectory other j
  have hpart : partPathFor (payloadPathFor cacheDirectory (fileEntry record i)) ≠ [] := by
    simp [partPathFor, ne_nil_payloadPathFor]
  rw [lexicallyNormal_eq_iff hpart (ne_nil_payloadPathFor cacheDirectory other j), hnormal,
    hnormal', hends, hends']
  exact Place.ext_iff.symm

/-- **Storage of the files.**  Two records have different payload paths if and only if their
parts lead from the payload directory to different places; and the download of one has its
`.part` file apart from the payload file of another if and only if the places are.
SRCLINE: TorrentSession.cpp:76-87, TorrentSession.cpp:173-177, TorrentSession.cpp:204-220 -/
theorem separateStorage_iff (cacheDirectory : Bytes) (files : List TorrentFileRecord) :
    (SeparatePayloads cacheDirectory files ↔
      PlacesApart (normal (payloadDirectory cacheDirectory)) files) ∧
    (SeparateDownloads cacheDirectory files ↔
      PartPlacesApart (normal (payloadDirectory cacheDirectory)) files) :=
  ⟨separatePayloads_iff cacheDirectory files, separateDownloads_iff cacheDirectory files⟩

/-- A torrent with two files, of which one has a part `.` in its path. -/
def aliasedTorrent : StringView :=
  ⟨bytes ("d4:infod5:filesld6:lengthi1e4:pathl1:xeed6:lengthi2e4:pathl1:.1:xeee" ++
    "4:name1:a12:piece lengthi1e6:pieces0:ee"), by decide⟩

/-- The torrent with a dot in a path loads. -/
theorem accepts_aliasedTorrent : ∃ metadata, Accepts aliasedTorrent metadata ∧
    metadata.files = [⟨bytes "a/x", 1, 0⟩, ⟨bytes "a/./x", 2, 1⟩] :=
  exists_accepts_of_files 40 (by decide +kernel)

/-- Both have the payload file `a/x`. -/
theorem separateStorage_fails : ¬ ∀ raw metadata, Accepts raw metadata →
    ∀ cacheDirectory, SeparatePayloads cacheDirectory metadata.files := by
  intro h
  obtain ⟨metadata, haccepts, hfiles⟩ := accepts_aliasedTorrent
  have hapart := h _ _ haccepts (bytes "/cache")
  rw [hfiles] at hapart
  exact hapart 0 1 _ _ ⟨rfl, rfl, by decide⟩ (by decide +kernel)

/-! ## Paths that lead down -/

section Down

variable {cacheDirectory : Bytes} {record other : TorrentFileRecord} {i j : ℕ}

/-- A path that leads down has its payload file at its parts, below the payload directory. -/
theorem normal_payloadPathFor (h : LeadsDown record.relativePath) :
    normal (payloadPathFor cacheDirectory (fileEntry record i)) =
      { normal (payloadDirectory cacheDirectory) with
        names := (normal (payloadDirectory cacheDirectory)).names ++
          partsOf record.relativePath } := by
  rw [(place_payloadPathFor cacheDirectory record i).1, placeFor, startOf, if_neg h.relative,
    walk_names _ h.names]

/-- The parts of its `.part` file are names too. -/
theorem names_partFileParts (h : LeadsDown record.relativePath) :
    ∀ part ∈ partFileParts record.relativePath, part ≠ dot ∧ part ≠ dotDot := by
  intro part hpart
  rcases List.mem_append.mp hpart with hfront | hlast
  · exact h.names part (List.mem_of_mem_dropLast hfront)
  · obtain rfl := List.mem_singleton.mp hlast
    exact part_ne_dots _

/-- And it has its `.part` file at the parts of that. -/
theorem normal_partPathFor (h : LeadsDown record.relativePath) :
    normal (partPathFor (payloadPathFor cacheDirectory (fileEntry record i))) =
      { normal (payloadDirectory cacheDirectory) with
        names := (normal (payloadDirectory cacheDirectory)).names ++
          partFileParts record.relativePath } := by
  rw [(place_partPathFor cacheDirectory record i).1, partPlaceFor, startOf, if_neg h.relative,
    walk_names _ (names_partFileParts h)]

/-- A path that leads down has as many parts as its `.part` file. -/
theorem length_partFileParts (h : LeadsDown record.relativePath) :
    (partFileParts record.relativePath).length = (partsOf record.relativePath).length := by
  have hpos := List.length_pos_of_ne_nil h.nonempty
  rw [partFileParts, List.length_append, List.length_dropLast, List.length_singleton]
  omega

/-- Both files of a path that leads down are below the payload directory. -/
theorem confined_of_leadsDown (h : LeadsDown record.relativePath) :
    Confined cacheDirectory (fileEntry record i) := by
  have hbelow : ∀ {parts : List Bytes}, parts ≠ [] →
      StrictlyBelow (normal (payloadDirectory cacheDirectory))
        { normal (payloadDirectory cacheDirectory) with
          names := (normal (payloadDirectory cacheDirectory)).names ++ parts } := by
    intro parts hparts
    have hproper : ProperPrefix [] parts := ⟨List.nil_prefix, hparts.symm⟩
    simpa using (strictlyBelow_append_iff (normal (payloadDirectory cacheDirectory)) [] parts).mpr
      hproper
  constructor
  · rw [normal_payloadPathFor h]
    exact hbelow h.nonempty
  · rw [normal_partPathFor h]
    exact hbelow (by simp [partFileParts])

/-- Two files at names of which neither begins the other are at different places, and neither is
where a directory of the other is. -/
theorem apart_of_not_beginning {n : Normal} {front whole : List Bytes} (h : ¬ front <+: whole) :
    ({ n with names := n.names ++ front } : Normal) ≠ { n with names := n.names ++ whole } ∧
      ¬ StrictlyBelow { n with names := n.names ++ front }
        { n with names := n.names ++ whole } := by
  rw [strictlyBelow_append_iff]
  refine ⟨fun hsame => h ?_, fun hproper => h hproper.1⟩
  simp only [Normal.mk.injEq, List.append_cancel_left_eq, true_and] at hsame
  rw [hsame]

/-- Records with one virtual path have the same parts. -/
theorem partsOf_congr (h : normalizePath record.relativePath = normalizePath other.relativePath) :
    partsOf record.relativePath = partsOf other.relativePath := by
  rw [← names_tail_normalizePath, h, names_tail_normalizePath]

/-- For records with one virtual path no directory is in the way of a file. -/
theorem directories_of_same (h : LeadsDown other.relativePath)
    (hsame : normalizePath record.relativePath = normalizePath other.relativePath) :
    ¬ ProperPrefix (partsOf record.relativePath) (partsOf other.relativePath) ∧
      ¬ ProperPrefix (partsOf record.relativePath) (partFileParts other.relativePath) := by
  have hparts := partsOf_congr hsame
  refine ⟨fun hproper => hproper.2 hparts, fun ⟨hfront, hne⟩ => hne ?_⟩
  exact hfront.eq_of_length (by rw [length_partFileParts h, hparts])

end Down

/-- **Files apart.**  When the paths of a torrent lead down, and the parts of none are the
beginning of those of another file or of its `.part` file, the files do not get in each other's
way, whatever the cache directory. -/
theorem filesApart_of_leadApart {files : List TorrentFileRecord} (h : LeadApart files)
    (cacheDirectory : Bytes) : FilesApart cacheDirectory files := by
  have hrecord : ∀ {entry}, IsFileEntry (buildIndex files) entry →
      ∃ record ∈ files, ∃ i, entry = fileEntry record i := by
    intro entry hentry
    obtain ⟨⟨record, i⟩, hmem, rfl⟩ := exists_entryOf hentry
    exact ⟨record, List.fst_mem_of_mem_zipIdx hmem, i, rfl⟩
  constructor
  case confined =>
    intro entry hentry
    obtain ⟨record, hmem, i, rfl⟩ := hrecord hentry
    exact confined_of_leadsDown (h.down record hmem)
  case places =>
    intro entry other hentry hother hne
    obtain ⟨record, hmem, i, rfl⟩ := hrecord hentry
    obtain ⟨record', hmem', j, rfl⟩ := hrecord hother
    obtain ⟨hfile, hpart⟩ := h.beside record hmem record' hmem' hne
    rw [normal_payloadPathFor (h.down record hmem), normal_payloadPathFor (h.down record' hmem'),
      normal_partPathFor (h.down record' hmem')]
    exact ⟨(apart_of_not_beginning hfile).1, (apart_of_not_beginning hpart).1⟩
  case directories =>
    intro entry other hentry hother
    obtain ⟨record, hmem, i, rfl⟩ := hrecord hentry
    obtain ⟨record', hmem', j, rfl⟩ := hrecord hother
    rw [normal_payloadPathFor (h.down record hmem), normal_payloadPathFor (h.down record' hmem'),
      normal_partPathFor (h.down record' hmem')]
    by_cases hsame : normalizePath record.relativePath = normalizePath record'.relativePath
    · rw [strictlyBelow_append_iff, strictlyBelow_append_iff]
      exact directories_of_same (h.down record' hmem') hsame
    · obtain ⟨hfile, hpart⟩ := h.beside record hmem record' hmem' hsame
      exact ⟨(apart_of_not_beginning hfile).2, (apart_of_not_beginning hpart).2⟩

end Vtfs.Analysis
