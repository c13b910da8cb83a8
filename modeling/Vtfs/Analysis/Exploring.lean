import Vtfs.Analysis.Browsing
import Vtfs.Analysis.DirectoryEnumeration
import Vtfs.Analysis.DirectorySkeleton
import Vtfs.Analysis.IndexLookup
import Vtfs.Analysis.PlainNames
import Vtfs.Analysis.ProjectedReads

/-!
# A drive of plain names

Under plain names the path of the drive that belongs to a directory leads to the directory
(`listProjectedDirectory_plain`), and every entry that is enumerated there is found under the path
with its name (`exists_child`).  So the walk over the drive is the walk over the index
(`explore_perm`), and it comes to every file.
-/

set_option autoImplicit false

namespace Vtfs.Analysis

open Vtfs.Library
open Vtfs.Library.PosixPath (slash)
open Vtfs.Model
open Vtfs.Interface

/-! ## Paths of the drive -/

/-- The path of a directory begins with a slash. -/
theorem dirPath_eq_cons (names : List Bytes) : dirPath names = slash :: joinedPath names := by
  by_cases hnil : names = []
  · rw [hnil]
    rfl
  · rw [dirPath_of_ne_nil hnil, cons_joinedPath hnil]

section Paths

variable {names : List Bytes} (hplain : ∀ name ∈ names, IsPlainName name)
include hplain

/-- The path of the drive has the names with backslashes between them. -/
theorem drivePath_joinedPath :
    drivePath (joinedPath names) = (rooted (wideChar '\\') (names.map widen)).tail := by
  have hnames : names.map (List.map fun ch : UInt8 => if ch = slash then wideChar '\\'
      else ch.toUInt16) = names.map widen := by
    refine List.map_congr_left fun name hname => List.map_congr_left fun ch hch => ?_
    have hne : ch ≠ slash := by
      rintro rfl
      exact (isSegment_of_plain (hplain name hname)).no_slash hch
    rw [if_neg hne]
  rw [drivePath, joinedPath, List.map_tail, map_rooted, hnames, if_pos rfl]

/-- A callback with the path looks for the key of the names. -/
theorem normalizeProjectedPath_plain {path : PCWSTR}
    (hpath : path.chars = drivePath (joinedPath names)) :
    normalizeProjectedPath path = leadingKey names := by
  have hnames : (names.map widen).map (List.map fun ch => if ch = wideChar '\\' then wideChar '/'
      else ch) = names.map widen := by
    conv_rhs => rw [← List.map_id (names.map widen)]
    refine List.map_congr_left fun wide hwide => ?_
    obtain ⟨name, hname, rfl⟩ := List.mem_map.mp hwide
    conv_rhs => rw [id, ← List.map_id (widen name)]
    refine List.map_congr_left fun ch hch => ?_
    have hne : ch ≠ wideChar '\\' := by
      rintro rfl
      exact backslash_not_mem_widen (hplain name hname) hch
    rw [if_neg hne, id]
  have hslashes : path.chars.map (fun ch => if ch = wideChar '\\' then wideChar '/' else ch) =
      (plainKey names).tail := by
    rw [hpath, drivePath_joinedPath hplain, List.map_tail, map_rooted, hnames, if_pos rfl,
      plainKey]
  have hlast : ∀ hne : (plainKey names).tail ≠ [], (plainKey names).tail.getLast hne ≠
      wideChar '/' := by
    intro hne
    obtain ⟨front, last, rfl⟩ := (List.eq_nil_or_concat' names).resolve_left
      (fun hnil => hne (by rw [hnil]; rfl))
    have hmem := hplain last (by simp)
    have hend : ∃ before, (plainKey (front ++ [last])).tail = before ++ widen last := by
      rw [plainKey, List.map_append, List.map_singleton, rooted_concat]
      cases hfront : rooted (wideChar '/') (front.map widen) with
      | nil => exact ⟨[], rfl⟩
      | cons c cs => exact ⟨cs ++ [wideChar '/'], by simp⟩
    obtain ⟨before, hbefore⟩ := hend
    simp only [hbefore]
    rw [List.getLast_append_of_ne_nil _ (widen_ne_nil hmem)]
    intro heq
    exact slash_not_mem_widen hmem (heq ▸ List.getLast_mem _)
  rw [normalizeProjectedPath, hslashes, leadingKey]
  exact congrArg _ (List.rdropWhile_eq_self_iff.mpr fun hne => by simpa using hlast hne)

end Paths

/-! ## The index behind the paths -/

section Torrent

variable {files : List TorrentFileRecord} {system : ProjFs}
  (hascii : AsciiIdentity system.multiByteToWideChar)
  (hfiles : ∀ record ∈ files, IsPlainPath record.relativePath)

/-- The path of a directory is normalized. -/
theorem normalizePath_dirPath {names : List Bytes} (hplain : ∀ name ∈ names, IsPlainName name) :
    normalizePath (dirPath names) = dirPath names :=
  normalizePath_of_normalized
    (normalized_dirPath fun name hname => isSegment_of_plain (hplain name hname))

/-- A path without a slash in front is normalized like the one with it. -/
theorem normalizePath_cons {path : Bytes} (hne : path ≠ []) (hhead : path.head? ≠ some slash) :
    normalizePath (slash :: path) = normalizePath path := by
  have hroot : path ≠ [slash] := by
    rintro rfl
    exact hhead rfl
  have hlong : ¬ (slash :: path = [] ∨ slash :: path = [slash]) := by simp [hne]
  have hback : slash ≠ byte '\\' := by decide
  unfold normalizePath
  rw [if_neg hlong, if_neg (not_or.mpr ⟨hne, hroot⟩)]
  simp [hhead, hback]

/-- The path of a file, normalized, has the same names. -/
theorem normalizePath_joinedPath {names : List Bytes} (hne : names ≠ [])
    (hplain : ∀ name ∈ names, IsPlainName name) :
    normalizePath (joinedPath names) = dirPath names := by
  obtain ⟨name, rest, rfl⟩ := List.exists_cons_of_ne_nil hne
  have hsegment := isSegment_of_plain (hplain name List.mem_cons_self)
  obtain ⟨c, cs, rfl⟩ := List.exists_cons_of_ne_nil hsegment.nonempty
  have hc : c ≠ slash := by
    rintro rfl
    exact hsegment.no_slash List.mem_cons_self
  have hcons : joinedPath ((c :: cs) :: rest) = c :: (cs ++ rooted slash rest) := rfl
  have hslash := @normalizePath_cons (joinedPath ((c :: cs) :: rest)) (by simp [hcons])
    (by simpa [hcons] using hc)
  rw [← hslash, ← dirPath_eq_cons, normalizePath_dirPath hplain]

section Found

include hascii hfiles

variable {names : List Bytes} (h : IsLeading files names) {path : PCWSTR}
  (hpath : path.chars = drivePath (joinedPath names))
include h hpath

/-- The projected path of a file or directory leads back to its virtual path. -/
theorem projectedToVirtual_plain :
    (ProjFsProvider.mount system files).projectedToVirtual (normalizeProjectedPath path) =
      some (dirPath names) := by
  rw [normalizeProjectedPath_plain h.plain hpath, dirPath_eq_cons]
  exact projectedNames_plain hascii hfiles h

/-- Under a projected path the entry of the index is found. -/
theorem lookupProjectedEntry_plain :
    (ProjFsProvider.mount system files).lookupProjectedEntry path =
      (buildIndex files).entries (dirPath names) := by
  rw [ProjFsProvider.lookupProjectedEntry, projectedToVirtual_plain hascii hfiles h hpath]
  simp only
  rw [lookup, normalizePath_dirPath h.plain]
  rfl

/-- A projected directory shows the entries of the index. -/
theorem listProjectedDirectory_plain :
    (ProjFsProvider.mount system files).listProjectedDirectory path =
      (buildIndex files).children (dirPath names) := by
  rw [ProjFsProvider.listProjectedDirectory, projectedToVirtual_plain hascii hfiles h hpath]
  simp only
  rw [listDirectory, normalizePath_dirPath h.plain]
  rfl

end Found

/-! ## What is listed -/

/-- The segments above the path of plain names are all names but the last. -/
theorem segmentsAbove_dirPath {names : List Bytes} (hplain : ∀ name ∈ names, IsPlainName name) :
    segmentsAbove (dirPath names) = names.dropLast := by
  have hsegment := fun name hname => isSegment_of_plain (hplain name hname)
  rw [segmentsAbove_eq_dropLast (normalized_dirPath hsegment), segmentsOf, dirPath_eq_cons,
    List.tail_cons]
  by_cases hnil : names = []
  · subst hnil
    rfl
  · rw [joinedPath, pieces_tail_rooted hnil fun name hname => (hsegment name hname).no_slash]
    rw [List.filter_eq_self.mpr fun name hname => by simpa using (hsegment name hname).nonempty]

include hfiles

/-- The names of the path of a file. -/
theorem exists_names {e : TorrentFileRecord × ℕ} (he : e ∈ files.zipIdx) :
    ∃ front name, pathOf e = dirPath (front ++ [name]) ∧ IsLeading files (front ++ [name]) ∧
      e.1.relativePath = joinedPath (front ++ [name]) := by
  have hrecord : e.1 ∈ files := List.mem_of_getElem? (mem_zipIdx_iff.mp he)
  obtain ⟨names, hne, hplain, hpath⟩ := hfiles e.1 hrecord
  obtain ⟨front, name, rfl⟩ := (List.eq_nil_or_concat' names).resolve_left hne
  refine ⟨front, name, ?_, Or.inr ⟨e.1, hrecord, _, hplain, hpath, List.prefix_rfl⟩, hpath⟩
  rw [pathOf, hpath]
  exact normalizePath_joinedPath hne hplain

/-- A directory that was seen has the first names of the path of a file. -/
theorem exists_leading_of_seen {directory : Bytes}
    (h : directory ∈ (buildIndex files).seenDirectories) :
    ∃ names, IsLeading files names ∧ directory = dirPath names := by
  rcases mem_seen_buildIndex.mp h with rfl | ⟨e, he, habove⟩
  · exact ⟨[], Or.inl rfl, rfl⟩
  · obtain ⟨front, name, hpath, hleading, hrelative⟩ := exists_names hfiles he
    obtain ⟨names, -, hbegins, rfl⟩ := mem_directoriesAbove.mp habove
    rw [hpath, segmentsAbove_dirPath hleading.plain, List.dropLast_concat] at hbegins
    exact ⟨names, Or.inr ⟨e.1, List.mem_of_getElem? (mem_zipIdx_iff.mp he), _, hleading.plain,
      hrelative, hbegins.trans (List.prefix_append _ _)⟩, rfl⟩

variable (hapart : PathsApart files)
include hapart

omit hfiles in
/-- With the paths apart, the entry at the path of a file is its own. -/
theorem entries_of_file {e : TorrentFileRecord × ℕ} (he : e ∈ files.zipIdx) :
    (buildIndex files).entries (pathOf e) = some (entryOf e) := by
  obtain ⟨record, i⟩ := e
  have hrecord := mem_zipIdx_iff.mp he
  obtain ⟨entry, hlookup, hfile, hindex, hsize, hoffset⟩ :=
    (indexAgrees_of_apart hapart).records i record hrecord
  have hpath := virtualPath_of_entries hlookup
  have hlt : i < 2 ^ 31 := lt_of_lt_of_le (List.getElem?_eq_some_iff.mp hrecord).1 hapart.fit
  have hnumber : entry.index = Int32.ofNat i :=
    Int32.toInt_inj.mp (hindex.trans (Int32.toInt_ofNat_of_lt hlt).symm)
  have hentry : entry = entryOf (record, i) := by
    obtain ⟨virtualPath, size, offset, index, isDirectory⟩ := entry
    simp only at hfile hsize hoffset hpath hnumber
    rw [hfile, hsize, hoffset, hpath, hnumber]
    rfl
  rw [← hentry]
  exact hlookup

/-- **What is listed is found**: an entry in a directory has one name more than it, and is the
entry of its path. -/
theorem exists_child {names : List Bytes} (h : IsLeading files names) {entry : FileEntry}
    (hentry : entry ∈ (buildIndex files).children (dirPath names)) :
    ∃ name, IsLeading files (names ++ [name]) ∧ entry.virtualPath = dirPath (names ++ [name]) ∧
      (buildIndex files).entries (dirPath (names ++ [name])) = some entry := by
  have hsegment := fun {all : List Bytes} (hall : IsLeading files all) name hname =>
    isSegment_of_plain (hall.plain name hname)
  cases hdirectory : entry.isDirectory with
  | true =>
      obtain ⟨d, hseen, hroot, hparent, rfl⟩ := seen_of_mem_children hentry hdirectory
      obtain ⟨all, hall, rfl⟩ := exists_leading_of_seen hfiles hseen
      obtain ⟨front, name, rfl⟩ := (List.eq_nil_or_concat' all).resolve_left
        (fun hnil => hroot (by rw [hnil]; rfl))
      rw [parentPathOf_dirPath front (hsegment hall name (by simp))] at hparent
      have hfront : front = names := dirPath_injective
        (fun q hq => hsegment hall q (List.mem_append_left _ hq)) (hsegment h) hparent
      subst hfront
      exact ⟨name, hall, rfl, entries_of_seen_of_apart hapart hseen⟩
  | false =>
      have hlisted : entry ∈ ((buildIndex files).children (dirPath names)).filter
          fun e => !e.isDirectory := List.mem_filter.mpr ⟨hentry, by simp [hdirectory]⟩
      rw [filesListed_buildIndex files] at hlisted
      obtain ⟨e, he, rfl⟩ := List.mem_map.mp hlisted
      obtain ⟨hmem, hparent⟩ := List.mem_filter.mp he
      obtain ⟨front, name, hpath, hall, -⟩ := exists_names hfiles hmem
      have hdir : dirPath front = dirPath names := by
        rw [← parentPathOf_dirPath front (hsegment hall name (by simp)), ← hpath]
        simpa using hparent
      have hfront : front = names := dirPath_injective
        (fun q hq => hsegment hall q (List.mem_append_left _ hq)) (hsegment h) hdir
      subst hfront
      have hentries := entries_of_file hapart hmem
      rw [hpath] at hentries
      exact ⟨name, hall, hpath, hentries⟩

end Torrent

/-! ## Names in a directory -/

section Child

variable {files : List TorrentFileRecord} {system : ProjFs} {names : List Bytes} {name : Bytes}

/-- The name that an entry is enumerated with is the last one of its path. -/
theorem emittedName_plain (hascii : AsciiIdentity system.multiByteToWideChar)
    (hname : IsPlainName name) {entry : FileEntry}
    (hpath : entry.virtualPath = dirPath (names ++ [name])) :
    ((ProjFsProvider.mount system files).emittedName entry).chars = widen name := by
  have hleaf : ProjFsProvider.leafOf entry.virtualPath = name := by
    rw [hpath, dirPath_concat, ProjFsProvider.leafOf,
      beforeLast_append _ (isSegment_of_plain hname).no_slash]
    simp only
    rw [← List.drop_drop, List.drop_left, List.drop_one, List.tail_cons]
  rw [ProjFsProvider.emittedName, hleaf]
  have hwide : torrentTextToWide (ProjFsProvider.mount system files).system.multiByteToWideChar
      name = widen name := torrentTextToWide_plain hname hascii
  rw [hwide]
  exact upTo_eq_self (zero_not_mem_widen hname)

/-- The path of a child is the name behind the path of its directory. -/
theorem childPath_plain (hplain : ∀ q ∈ names ++ [name], IsPlainName q) {directory child : PCWSTR}
    (hdirectory : directory.chars = drivePath (joinedPath names))
    (hchild : child.chars = widen name) :
    (childPath directory child).chars = drivePath (joinedPath (names ++ [name])) := by
  have hfront : ∀ q ∈ names, IsPlainName q := fun q hq => hplain q (List.mem_append_left _ hq)
  rw [drivePath_joinedPath hplain, List.map_append, List.map_singleton, rooted_concat]
  rw [drivePath_joinedPath hfront] at hdirectory
  rcases names with - | ⟨first, rest⟩
  · have hempty : directory.chars = [] := hdirectory
    rw [childPath, if_pos hempty, hchild]
    rfl
  · have hne : directory.chars ≠ [] := by
      rw [hdirectory]
      have hfirst := widen_ne_nil (hfront first List.mem_cons_self)
      simp [rooted, hfirst]
    rw [childPath, if_neg hne]
    simp only [hdirectory, hchild]
    rw [List.tail_append_of_ne_nil (by simp [rooted])]

end Child

/-! ## Enumerations -/

/-- A full enumeration adds the entries of the directory, in some order. -/
theorem entries_perm {provider : ProjFsProvider} {directory : PCWSTR}
    (hcompare : IsStrictWeakOrder PCWSTR fun a b => provider.system.fileNameCompare a b < 0)
    (hsorts : Sorts provider.system.sort) (e : FullEnumeration provider directory) :
    e.entries.Perm (provider.listProjectedDirectory directory) := by
  have harranges := arranges_scanEntries provider hcompare hsorts directory none
  have hlast : e.opening :: e.later ++ [.getDirEnum e.last] <+:
      e.opening :: (e.later ++ [.getDirEnum e.last]) := List.prefix_rfl
  have hend : e.entries = provider.scanEntries directory none :=
    emitted_of_neverFull provider e.session e.enumerations hlast e.own fun n _ => e.fits n
  have hall : (provider.listProjectedDirectory directory).filter (provider.isMatch none) =
      provider.listProjectedDirectory directory := List.filter_eq_self.mpr fun _ _ => rfl
  rw [hend, ← hall]
  exact harranges.perm

/-! ## The walk -/

/-- Where a list gives values, each element does. -/
theorem isSome_of_mapM {α β : Type} {f : α → Option β} {l : List α} {results : List β}
    (h : l.mapM f = some results) {a : α} (ha : a ∈ l) : (f a).isSome := by
  induction l generalizing results with
  | nil => cases ha
  | cons b l ih =>
      rw [List.mapM_cons] at h
      obtain ⟨first, hfirst, h⟩ := Option.bind_eq_some_iff.mp h
      obtain ⟨rest, hrest, -⟩ := Option.bind_eq_some_iff.mp h
      rcases List.mem_cons.mp ha with rfl | ha
      · rw [hfirst]
        rfl
      · exact ih hrest ha

/-- A walk that ends has ended in every directory listed. -/
theorem isSome_of_browse {s : Index} {n : ℕ} {d : Bytes} {visited : List FileEntry}
    (h : browse s (n + 1) d = some visited) {entry : FileEntry} (hentry : entry ∈ listDirectory s d)
    (hdirectory : entry.isDirectory = true) : (browse s n entry.virtualPath).isSome := by
  obtain ⟨parts, hparts, -⟩ := Option.bind_eq_some_iff.mp h
  have hsome := isSome_of_mapM hparts hentry
  rwa [if_pos hdirectory] at hsome

/-- The path of the drive and the size of a file. -/
def shown (entry : FileEntry) : Wide × Int64 :=
  (drivePath entry.virtualPath.tail, entry.size.toInt64)

/-- What the walk comes to at an entry that was enumerated. -/
def comesTo (provider : ProjFsProvider)
    (enumeration : (directory : PCWSTR) → FullEnumeration provider directory) (depth : ℕ)
    (directory : PCWSTR) (entry : FileEntry) : Option (List (Wide × Int64)) := do
  let path := childPath directory (provider.emittedName entry)
  let info ← (provider.getPlaceholderInfo path 0).2
  if info.isDirectory then explore provider enumeration depth path
  else some [(path.chars, info.fileSize)]

/-- The walk from a directory ends when it does at all entries. -/
theorem explore_succ {provider : ProjFsProvider}
    (enumeration : (directory : PCWSTR) → FullEnumeration provider directory) {depth : ℕ}
    {directory : PCWSTR} {found : FileEntry → List (Wide × Int64)}
    (h : ∀ entry ∈ (enumeration directory).entries,
      comesTo provider enumeration depth directory entry = some (found entry)) :
    explore provider enumeration (depth + 1) directory =
      some ((enumeration directory).entries.flatMap found) := by
  have hrun := mapM_eq_some h
  rw [explore, List.flatMap_def]
  exact congrArg (fun results => results >>= fun found => pure found.flatten) hrun

/-- The walk over the index comes to every file. -/
theorem exists_browse_all {files : List TorrentFileRecord}
    (hfiles : ∀ record ∈ files, IsPlainPath record.relativePath) : ∃ depth visited,
    browse (buildIndex files) depth (dirPath []) = some visited ∧
      visited.Perm (files.zipIdx.map entryOf) := by
  obtain ⟨depth, visited, hvisited, hperm⟩ := browse_root files
  have hall : (files.zipIdx.filter fun e =>
      parentPathOf (pathOf e) ∈ (buildIndex files).seenDirectories) = files.zipIdx := by
    refine List.filter_eq_self.mpr fun e he => ?_
    obtain ⟨front, name, hpath, hleading, -⟩ := exists_names hfiles he
    have hsegment := isSegment_of_plain (hleading.plain name (by simp))
    have habove : front <+: segmentsAbove (normalizePath e.1.relativePath) := by
      have hnormal : normalizePath e.1.relativePath = dirPath (front ++ [name]) := hpath
      rw [hnormal, segmentsAbove_dirPath hleading.plain, List.dropLast_concat]
    have hseen := dirPath_mem_seen files (List.mem_of_getElem? (mem_zipIdx_iff.mp he)) habove
    rw [hpath, parentPathOf_dirPath front hsegment]
    exact decide_eq_true hseen
  rw [hall] at hperm
  exact ⟨depth, visited, hvisited, hperm⟩

section Walk

variable {files : List TorrentFileRecord} {system : ProjFs}
  (hascii : AsciiIdentity system.multiByteToWideChar)
  (hfiles : ∀ record ∈ files, IsPlainPath record.relativePath) (hapart : PathsApart files)
  (hcompare : IsStrictWeakOrder PCWSTR fun a b => system.fileNameCompare a b < 0)
  (hsorts : Sorts system.sort)
  (enumeration : (directory : PCWSTR) →
    FullEnumeration (ProjFsProvider.mount system files) directory)
include hascii hfiles hapart

/-- The placeholder of an entry is found under its name, in its directory. -/
theorem exists_placeholder {names : List Bytes} (h : IsLeading files names) {directory : PCWSTR}
    (hdirectory : directory.chars = drivePath (joinedPath names)) {entry : FileEntry}
    (hentry : entry ∈ (buildIndex files).children (dirPath names)) :
    ∃ name, IsLeading files (names ++ [name]) ∧ entry.virtualPath = dirPath (names ++ [name]) ∧
      (childPath directory ((ProjFsProvider.mount system files).emittedName entry)).chars =
        drivePath (joinedPath (names ++ [name])) ∧
      ((ProjFsProvider.mount system files).getPlaceholderInfo (childPath directory
        ((ProjFsProvider.mount system files).emittedName entry)) 0).2 =
          some ⟨entry.isDirectory, entry.size.toInt64⟩ := by
  obtain ⟨name, hleading, hpath, hfound⟩ := exists_child hfiles hapart h hentry
  have hname := @emittedName_plain files system _ _ hascii (hleading.plain name (by simp)) _ hpath
  have hchild := childPath_plain hleading.plain hdirectory hname
  refine ⟨name, hleading, hpath, hchild, ?_⟩
  rw [ProjFsProvider.getPlaceholderInfo,
    lookupProjectedEntry_plain hascii hfiles hleading hchild, hfound]

/-- At an entry the walk comes to what the walk over the index does. -/
theorem exists_comesTo {depth : ℕ}
    (ih : ∀ {names : List Bytes}, IsLeading files names → ∀ {directory : PCWSTR},
      directory.chars = drivePath (joinedPath names) → ∀ {visited : List FileEntry},
        browse (buildIndex files) depth (dirPath names) = some visited →
          ∃ found, explore (ProjFsProvider.mount system files) enumeration depth directory =
            some found ∧ found.Perm (visited.map shown))
    {names : List Bytes} (h : IsLeading files names) {directory : PCWSTR}
    (hdirectory : directory.chars = drivePath (joinedPath names)) {entry : FileEntry}
    (hentry : entry ∈ (buildIndex files).children (dirPath names))
    (hends : entry.isDirectory = true →
      (browse (buildIndex files) depth entry.virtualPath).isSome) :
    ∃ found, comesTo (ProjFsProvider.mount system files) enumeration depth directory entry =
      some found ∧ found.Perm ((visitsOf (buildIndex files) depth entry).map shown) := by
  obtain ⟨name, hleading, hpath, hchild, hinfo⟩ :=
    exists_placeholder hascii hfiles hapart h hdirectory hentry
  simp only [comesTo, hinfo, Option.bind_eq_bind, Option.bind_some]
  cases hkind : entry.isDirectory with
  | true =>
      obtain ⟨below, hbelow⟩ := Option.isSome_iff_exists.mp (hends hkind)
      have hvisits : visitsOf (buildIndex files) depth entry = below := by
        rw [visitsOf, if_pos hkind, hbelow, Option.getD_some]
      rw [hpath] at hbelow
      rw [hvisits, if_pos rfl]
      exact ih hleading hchild hbelow
  | false =>
      have hvisits : visitsOf (buildIndex files) depth entry = [entry] := by
        rw [visitsOf, if_neg (by simp [hkind])]
      have hshown : shown entry = (drivePath (joinedPath (names ++ [name])),
          entry.size.toInt64) := by
        rw [shown, hpath, dirPath_eq_cons, List.tail_cons]
      rw [hvisits, List.map_singleton, hshown, ← hchild]
      exact ⟨_, rfl, List.Perm.refl _⟩

include hcompare hsorts

/-- **The walk over the drive is the walk over the index**, but for the order in directories. -/
theorem explore_perm (depth : ℕ) {names : List Bytes} (h : IsLeading files names)
    {directory : PCWSTR} (hdirectory : directory.chars = drivePath (joinedPath names))
    {visited : List FileEntry}
    (hbrowse : browse (buildIndex files) depth (dirPath names) = some visited) :
    ∃ found, explore (ProjFsProvider.mount system files) enumeration depth directory =
      some found ∧ found.Perm (visited.map shown) := by
  induction depth generalizing names directory visited with
  | zero => cases hbrowse
  | succ depth ih =>
      have hlisted : listDirectory (buildIndex files) (dirPath names) =
          (buildIndex files).children (dirPath names) := by
        rw [listDirectory, normalizePath_dirPath h.plain]
      have hends := fun entry => @isSome_of_browse _ _ _ _ hbrowse entry
      have hvisited : visited = ((buildIndex files).children (dirPath names)).flatMap
          (visitsOf (buildIndex files) depth) := by
        rw [browse_succ fun entry hentry => hends entry hentry, hlisted] at hbrowse
        exact (Option.some.inj hbrowse).symm
      rw [hlisted] at hends
      have hperm : (enumeration directory).entries.Perm
          ((buildIndex files).children (dirPath names)) := by
        rw [← listProjectedDirectory_plain hascii hfiles h hdirectory]
        exact entries_perm hcompare hsorts (enumeration directory)
      have hstep := fun entry hentry => exists_comesTo hascii hfiles hapart enumeration
        (fun hnames => ih hnames) h hdirectory hentry (hends entry hentry)
      choose! found hfound hfoundPerm using hstep
      refine ⟨_, explore_succ enumeration fun entry hentry =>
        hfound entry (hperm.mem_iff.mp hentry), (hperm.flatMap_right _).trans ?_⟩
      rw [hvisited, List.map_flatMap]
      exact List.Perm.flatMap_left _ hfoundPerm

/-- **The drive shows the torrent.**  With plain names, and no path of a file given twice or to a
directory, the walk over the drive ends, whatever the enumerations of the directories were
interrupted by, and comes to every file of the torrent once, with its path and its size, and to
nothing else; and the read callbacks for the path of a file read this file.  The calls into the
session are taken to come back: those of `beginStreaming` need a piece length that is not 0 in 32
bits, or `pumpOnce` may divide by zero.
SRCLINE: VirtualDrive.cpp:85-121, VirtualDrive.cpp:157-179, VirtualDrive.cpp:349-391,
VirtualDrive.cpp:485-595 -/
theorem drive_shows (cacheDirectory : Bytes) :
    (∃ depth found, explore (ProjFsProvider.mount system files) enumeration depth (cStr []) =
        some found ∧
      found.Perm (files.map fun record =>
        (drivePath record.relativePath, record.size.toInt64))) ∧
    ∀ (i : ℕ) (record : TorrentFileRecord), files[i]? = some record →
      ReadsFile (ProjFsProvider.mount system files) cacheDirectory
        (drivePath record.relativePath) (fileEntry record i) := by
  refine ⟨?_, fun i record hrecord call attempt payload hpath hallocates hfirst => ?_⟩
  · obtain ⟨depth, visited, hvisited, hperm⟩ := exists_browse_all hfiles
    have hroot : (cStr []).chars = drivePath (joinedPath []) := rfl
    obtain ⟨found, hfound, hfoundPerm⟩ := explore_perm hascii hfiles hapart hcompare hsorts
      enumeration depth (Or.inl rfl) hroot hvisited
    refine ⟨depth, found, hfound, hfoundPerm.trans ((hperm.map shown).trans ?_)⟩
    have hshown : ∀ e ∈ files.zipIdx, (shown ∘ entryOf) e =
        ((fun record : TorrentFileRecord =>
          (drivePath record.relativePath, record.size.toInt64)) ∘ Prod.fst) e := by
      intro e he
      obtain ⟨front, name, hnormal, -, hrelative⟩ := exists_names hfiles he
      have hvirtual : (entryOf e).virtualPath = pathOf e := rfl
      simp only [Function.comp_apply]
      rw [shown, hvirtual, hnormal, dirPath_eq_cons, List.tail_cons, hrelative]
      rfl
    rw [List.map_map, List.map_congr_left hshown, ← List.map_map, List.zipIdx_map_fst]
  · obtain ⟨front, name, hnormal, hleading, hrelative⟩ :=
      exists_names hfiles (mem_zipIdx_iff.mpr hrecord)
    have hentry := entries_of_file hapart (mem_zipIdx_iff.mpr hrecord)
    simp only at hrelative
    rw [hrelative] at hpath
    rw [hnormal, ← lookupProjectedEntry_plain hascii hfiles hleading hpath] at hentry
    rw [getFileData_eq hentry rfl hallocates]
    exact readAttempts_of_readsSome rfl hfirst.reads (Nat.zero_le _)
      (by simpa using hfirst.made) fun k _ hk => hfirst.waits k hk

end Walk

/-! ## A torrent of plain names -/

/-- A name that is shorter than a hash does not end in one. -/
theorem isPlainName_of_short {name : Bytes} (hlength : name.length < 9) (hne : name ≠ [])
    (hchars : name.all (fun ch => 32 ≤ ch && ch < 128) = true ∧
      (widen name).all (· ∉ invalidChars) = true)
    (hlast : name.getLast? ≠ some (byte '.') ∧ name.getLast? ≠ some (byte ' ')) :
    IsPlainName name where
  nonempty := hne
  printable ch hch := by simpa using List.all_eq_true.mp hchars.1 ch hch
  valid ch hch := by simpa using List.all_eq_true.mp hchars.2 ch hch
  no_dot_last := hlast.1
  no_space_last := hlast.2
  unhashed hash hsuffix := by
    have hle := hsuffix.length_le
    simp only [hashSuffix, widen, List.length_cons, List.length_map, List.length_range] at hle
    omega

/-- An enumeration of a directory in one call. -/
def oneCall (provider : ProjFsProvider) (directory : PCWSTR) :
    FullEnumeration provider directory where
  enumerationId := ⟨List.replicate 16 0, rfl⟩
  enumerations _ := none
  opening := .startDirEnum ⟨List.replicate 16 0, rfl⟩
  later := []
  last := ⟨⟨List.replicate 16 0, rfl⟩, directory, false, none, fun _ => 0⟩
  session := by
    refine ⟨Or.inl rfl, fun c hc _ => ?_⟩
    rw [List.nil_append, List.mem_singleton] at hc
    exact ⟨_, hc, rfl, rfl, rfl⟩
  own := rfl
  fits _ := rfl

/-- The files `x` and `b/y` of a torrent `a`. -/
theorem drive_shows_twoFiles :
    ∃ depth found, explore (ProjFsProvider.mount insertingSystem
        [⟨bytes "a/x", 3, 0⟩, ⟨bytes "a/b/y", 1, 3⟩]) (oneCall _) depth (cStr []) = some found ∧
      found.Perm [(wideText "a\\x", 3), (wideText "a\\b\\y", 1)] := by
  have hplain : ∀ name ∈ [bytes "a", bytes "b", bytes "x", bytes "y"], IsPlainName name := by
    intro name hname
    simp only [List.mem_cons, List.not_mem_nil, or_false] at hname
    obtain rfl | rfl | rfl | rfl := hname
    all_goals exact isPlainName_of_short (by decide) (by decide) (by decide) (by decide)
  have hfiles : ∀ record ∈ ([⟨bytes "a/x", 3, 0⟩, ⟨bytes "a/b/y", 1, 3⟩] :
      List TorrentFileRecord), IsPlainPath record.relativePath := by
    intro record hrecord
    simp only [List.mem_cons, List.not_mem_nil, or_false] at hrecord
    obtain rfl | rfl := hrecord
    · exact ⟨[bytes "a", bytes "x"], by simp, fun name hname => hplain name (by
        revert name; simp), by decide⟩
    · exact ⟨[bytes "a", bytes "b", bytes "y"], by simp, fun name hname => hplain name (by
        revert name; simp), by decide⟩
  have hapart : PathsApart [⟨bytes "a/x", 3, 0⟩, ⟨bytes "a/b/y", 1, 3⟩] :=
    ⟨by decide, by decide +kernel, by decide +kernel, by decide +kernel⟩
  obtain ⟨⟨depth, found, hfound, hperm⟩, -⟩ := drive_shows asciiIdentity_widened hfiles hapart
    compare_insertingSystem sorts_insertionSorted (oneCall _) (bytes "/c")
  exact ⟨depth, found, hfound, hperm⟩

end Vtfs.Analysis
