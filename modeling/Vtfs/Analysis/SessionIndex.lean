import Vtfs.Analysis.NormalizedPaths

/-!
# What the index holds

The loop over the characters of a path enters the directories above it, outermost first
(`scan_path`).  From this, what one record adds (`addRecord_eq`), and three invariants of the loop
over the records, each kept by every step: what the entries are (`EntriesHold`), where the
directories are listed (`DirectoriesListed`), and where the files are listed (`FilesListed`).
-/

set_option autoImplicit false

namespace Vtfs.Analysis

open Vtfs.Library
open Vtfs.Library.PosixPath (slash)
open Vtfs.Model
open Vtfs.Interface

/-! ## The loop over the characters -/

/-- Directories are entered one after the other. -/
def addDirectories (s : Index) (directories : List Bytes) : Index :=
  directories.foldl Index.addDirectory s

/-- The paths of a directory's descendants along some segments. -/
def descend (above segments : List Bytes) : List Bytes :=
  (List.range segments.length).map fun i => dirPath (above ++ segments.take (i + 1))

/-- The first directory on the way down, and the others below it. -/
theorem descend_cons (above : List Bytes) (q : Bytes) (qs : List Bytes) :
    descend above (q :: qs) = dirPath (above ++ [q]) :: descend (above ++ [q]) qs := by
  simp [descend, List.range_succ_eq_map, Function.comp_def]

/-- Characters that are no slash are added to the segment. -/
theorem scan_segment {part : Bytes} (h : slash ∉ part) (current segment : Bytes) (s : Index) :
    part.foldl Index.scanChar ⟨current, segment, s⟩ = ⟨current, segment ++ part, s⟩ := by
  induction part generalizing segment with
  | nil => simp
  | cons c cs ih =>
      obtain ⟨hc, hcs⟩ := not_or.mp (mt List.mem_cons.mpr h)
      rw [List.foldl_cons, Index.scanChar, if_neg (Ne.symm hc), ih hcs, List.append_assoc,
        List.singleton_append]

/-- A part and its slash: the directory of one more segment, unless the part is empty. -/
theorem scan_part {part : Bytes} (h : slash ∉ part) {above : List Bytes}
    (habove : ∀ q ∈ above, q ≠ []) (s : Index) :
    Index.scanChar (part.foldl Index.scanChar ⟨dirPath above, [], s⟩) slash =
      if part = [] then ⟨dirPath above, [], s⟩
      else ⟨dirPath (above ++ [part]), [], s.addDirectory (dirPath (above ++ [part]))⟩ := by
  rw [scan_segment h, List.nil_append, Index.scanChar, if_pos rfl]
  by_cases hpart : part = []
  · simp [hpart]
  · simp only [hpart, ne_eq, not_false_iff, if_true, if_false, dirPath_extend habove]

/-- The characters up to a slash: the directories of the segments before it. -/
theorem scan_front (front : Bytes) (above : List Bytes) (habove : ∀ q ∈ above, q ≠ [])
    (s : Index) :
    (front ++ [slash]).foldl Index.scanChar ⟨dirPath above, [], s⟩ =
      ⟨dirPath (above ++ (pieces slash front).filter (· ≠ [])), [],
        addDirectories s (descend above ((pieces slash front).filter (· ≠ [])))⟩ := by
  induction front using pieces_induction slash generalizing above s with
  | last part h =>
      rw [List.foldl_append, List.foldl_cons, List.foldl_nil, scan_part h habove,
        pieces_of_not_mem h]
      by_cases hpart : part = []
      · simp [hpart, descend, addDirectories]
      · simp [hpart, descend, addDirectories]
  | more part rest h ih =>
      rw [List.append_assoc, List.cons_append, List.foldl_append, List.foldl_cons,
        scan_part h habove, pieces_append_sep h]
      by_cases hpart : part = []
      · rw [if_pos hpart, ih above habove]
        simp [hpart]
      · have habove' : ∀ q ∈ above ++ [part], q ≠ [] := by
          intro q hq
          rcases List.mem_append.mp hq with hq | hq
          · exact habove q hq
          · rwa [List.mem_singleton.mp hq]
        rw [if_neg hpart, ih _ habove']
        have hfilter : (part :: pieces slash rest).filter (· ≠ []) =
            part :: (pieces slash rest).filter (· ≠ []) := by
          simp [hpart]
        rw [hfilter, descend_cons, List.append_assoc, List.singleton_append]
        rfl

/-- The loop over the characters of a path enters the directories above it. -/
theorem scan_path (path : Bytes) (s : Index) :
    (path.tail.foldl Index.scanChar ⟨[slash], [], s⟩).index =
      addDirectories s (directoriesAbove path) := by
  rcases beforeLast_cases slash path.tail with ⟨hfree, hnone⟩ | ⟨front, leaf, hleaf, heq, hsome⟩
  · have habove : segmentsAbove path = [] := by rw [segmentsAbove, hnone]
    rw [scan_segment hfree, directoriesAbove, habove]
    rfl
  · have habove : segmentsAbove path = (pieces slash front).filter (· ≠ []) := by
      rw [segmentsAbove, hsome]
    have hsplit : path.tail = (front ++ [slash]) ++ leaf := by simp [heq]
    have hscan := scan_front front [] (by simp) s
    rw [dirPath_nil] at hscan
    rw [hsplit, List.foldl_append, hscan, scan_segment hleaf, directoriesAbove, habove]
    rfl

/-! ## One record -/

/-- The path of a numbered record. -/
def pathOf (e : TorrentFileRecord × ℕ) : Bytes := normalizePath e.1.relativePath

/-- The entry of a numbered record. -/
def entryOf (e : TorrentFileRecord × ℕ) : FileEntry := fileEntry e.1 e.2

/-- The entry for a record is one of a file. -/
theorem entryOf_isDirectory (e : TorrentFileRecord × ℕ) : (entryOf e).isDirectory = false := rfl

/-- A record sets its entry, enters the directories above its path, and is listed under its
directory part. -/
theorem addRecord_eq (s : Index) (e : TorrentFileRecord × ℕ) :
    s.addRecord e.1 e.2 =
      (addDirectories (s.setEntry (pathOf e) (entryOf e)) (directoriesAbove (pathOf e))).pushChild
        (parentPathOf (pathOf e)) (entryOf e) := by
  rw [Index.addRecord, scan_path]
  rfl

/-- The induction over the records: what holds of the empty index and is kept by one more record
holds of the index of all of them. -/
theorem buildIndex_induction {P : Index → List (TorrentFileRecord × ℕ) → Prop}
    (initial : P Index.initial [])
    (add : ∀ s records e, P s records → P (s.addRecord e.1 e.2) (records ++ [e]))
    (files : List TorrentFileRecord) : P (buildIndex files) files.zipIdx := by
  unfold buildIndex
  generalize files.zipIdx = records
  induction records using List.reverseRecOn with
  | nil => exact initial
  | append_singleton records e ih =>
      rw [List.foldl_append, List.foldl_cons, List.foldl_nil]
      exact add _ _ e ih

/-! ## The directories seen -/

/-- A directory is seen once it was added. -/
theorem mem_seen_addDirectory {s : Index} {current directory : Bytes} :
    directory ∈ (s.addDirectory current).seenDirectories ↔
      directory ∈ s.seenDirectories ∨ directory = current := by
  unfold Index.addDirectory
  split
  · rename_i hseen
    constructor
    · exact Or.inl
    · rintro (h | rfl)
      · exact h
      · exact hseen
  · simp [Index.setEntry, Index.pushChild]

/-- So it is with several. -/
theorem mem_seen_addDirectories {s : Index} {directories : List Bytes} {directory : Bytes} :
    directory ∈ (addDirectories s directories).seenDirectories ↔
      directory ∈ s.seenDirectories ∨ directory ∈ directories := by
  induction directories generalizing s with
  | nil => simp [addDirectories]
  | cons d ds ih =>
      have hstep : addDirectories s (d :: ds) = addDirectories (s.addDirectory d) ds := rfl
      rw [hstep, ih, mem_seen_addDirectory, List.mem_cons, or_assoc]

/-- The directories seen are the root and the directories above the paths of the records. -/
theorem mem_seen_buildIndex {files : List TorrentFileRecord} {directory : Bytes} :
    directory ∈ (buildIndex files).seenDirectories ↔
      directory = [slash] ∨ ∃ e ∈ files.zipIdx, directory ∈ directoriesAbove (pathOf e) := by
  refine buildIndex_induction (P := fun s records => directory ∈ s.seenDirectories ↔
    directory = [slash] ∨ ∃ e ∈ records, directory ∈ directoriesAbove (pathOf e)) ?_ ?_ files
  · simp [Index.initial]
  · intro s records e ih
    have hstep : directory ∈ (s.addRecord e.1 e.2).seenDirectories ↔
        directory ∈ s.seenDirectories ∨ directory ∈ directoriesAbove (pathOf e) := by
      rw [addRecord_eq]
      exact mem_seen_addDirectories
    rw [hstep, ih, or_assoc]
    simp [or_and_right, exists_or]

/-- A directory that was seen is a path of segments. -/
theorem exists_segments_of_seen {files : List TorrentFileRecord} {directory : Bytes}
    (h : directory ∈ (buildIndex files).seenDirectories) :
    ∃ qs : List Bytes, (∀ q ∈ qs, IsSegment q) ∧ directory = dirPath qs := by
  rcases mem_seen_buildIndex.mp h with rfl | ⟨e, -, habove⟩
  · exact ⟨[], by simp, rfl⟩
  · obtain ⟨qs, -, hstarts, rfl⟩ := mem_directoriesAbove.mp habove
    refine ⟨qs, fun q hq => ?_, rfl⟩
    exact isSegment_of_mem_segmentsAbove (normalizePath_normalized _) (hstarts.subset hq)

/-- It is normalized. -/
theorem normalizePath_of_seen {files : List TorrentFileRecord} {directory : Bytes}
    (h : directory ∈ (buildIndex files).seenDirectories) : normalizePath directory = directory := by
  obtain ⟨qs, hqs, rfl⟩ := exists_segments_of_seen h
  exact normalizePath_of_normalized (normalized_dirPath hqs)

/-- Its parent was seen. -/
theorem parentPathOf_mem_seen {files : List TorrentFileRecord} {directory : Bytes}
    (h : directory ∈ (buildIndex files).seenDirectories) (hroot : directory ≠ [slash]) :
    parentPathOf directory ∈ (buildIndex files).seenDirectories := by
  rcases mem_seen_buildIndex.mp h with heq | ⟨e, he, habove⟩
  · exact absurd heq hroot
  · obtain ⟨qs, hne, hstarts, rfl⟩ := mem_directoriesAbove.mp habove
    obtain ⟨front, q, rfl⟩ := (List.eq_nil_or_concat' qs).resolve_left hne
    have hq : IsSegment q :=
      isSegment_of_mem_segmentsAbove (normalizePath_normalized _) (hstarts.subset (by simp))
    rw [parentPathOf_dirPath front hq]
    apply mem_seen_buildIndex.mpr
    by_cases hfront : front = []
    · exact Or.inl (by rw [hfront, dirPath_nil])
    · exact Or.inr ⟨e, he, mem_directoriesAbove.mpr
        ⟨front, hfront, (List.prefix_append _ _).trans hstarts, rfl⟩⟩

/-- The root is not among the directories above a path. -/
theorem ne_root_of_mem_directoriesAbove {path directory : Bytes} (hpath : Normalized path)
    (h : directory ∈ directoriesAbove path) : directory ≠ [slash] := by
  obtain ⟨qs, hne, hstarts, rfl⟩ := mem_directoriesAbove.mp h
  intro hroot
  have hqs : ∀ q ∈ qs, IsSegment q := fun q hq =>
    isSegment_of_mem_segmentsAbove hpath (hstarts.subset hq)
  exact hne (dirPath_injective hqs (by simp) (hroot.trans dirPath_nil.symm))

/-! ## The entries -/

/-- Every entry is that of its path as a directory seen, or that of a record with the path; and
every such path has an entry. -/
structure EntriesHold (s : Index) (records : List (TorrentFileRecord × ℕ)) : Prop where
  cases : ∀ path entry, s.entries path = some entry →
    (entry = dirEntry path ∧ path ∈ s.seenDirectories) ∨
      ∃ e ∈ records, path = pathOf e ∧ entry = entryOf e
  present : ∀ path, (path ∈ s.seenDirectories ∨ ∃ e ∈ records, path = pathOf e) →
    (s.entries path).isSome

namespace EntriesHold

variable {s : Index} {records : List (TorrentFileRecord × ℕ)}

/-- At the beginning there is only the root. -/
theorem initial : EntriesHold Index.initial [] where
  cases path entry h := by
    by_cases hroot : path = [slash]
    · subst hroot
      left
      have hentry : dirEntry [slash] = entry := by simpa [Index.initial] using h
      exact ⟨hentry.symm, by simp [Index.initial]⟩
    · simp [Index.initial, Function.update_of_ne hroot] at h
  present path h := by
    have hroot : path = [slash] := by simpa [Index.initial] using h
    subst hroot
    simp [Index.initial]

/-- The entry for a record may be set. -/
theorem setEntry (h : EntriesHold s records) (e : TorrentFileRecord × ℕ) :
    EntriesHold (s.setEntry (pathOf e) (entryOf e)) (records ++ [e]) where
  cases path entry hentry := by
    by_cases hpath : path = pathOf e
    · subst hpath
      right
      have heq : entryOf e = entry := by simpa [Index.setEntry] using hentry
      exact ⟨e, by simp, rfl, heq.symm⟩
    · have hold : s.entries path = some entry := by
        simpa [Index.setEntry, Function.update_of_ne hpath] using hentry
      rcases h.cases path entry hold with hdir | ⟨e', he', hfile⟩
      · exact Or.inl hdir
      · exact Or.inr ⟨e', List.mem_append_left _ he', hfile⟩
  present path hpath := by
    by_cases heq : path = pathOf e
    · subst heq
      simp [Index.setEntry]
    · have hold : (s.entries path).isSome := by
        refine h.present path (hpath.imp id ?_)
        rintro ⟨e', he', rfl⟩
        rcases List.mem_append.mp he' with he' | he'
        · exact ⟨e', he', rfl⟩
        · exact absurd (by rw [List.mem_singleton.mp he']) heq
      simpa [Index.setEntry, Function.update_of_ne heq] using hold

/-- A directory may be added. -/
theorem addDirectory (h : EntriesHold s records) (current : Bytes) :
    EntriesHold (s.addDirectory current) records := by
  by_cases hseen : current ∈ s.seenDirectories
  · rwa [Index.addDirectory, if_pos hseen]
  have hentries : (s.addDirectory current).entries =
      Function.update s.entries current (some (dirEntry current)) := by
    rw [Index.addDirectory, if_neg hseen]
    rfl
  refine ⟨?_, ?_⟩
  · intro path entry hentry
    rw [hentries] at hentry
    by_cases heq : path = current
    · subst heq
      left
      have hdir : dirEntry path = entry := by simpa using hentry
      exact ⟨hdir.symm, mem_seen_addDirectory.mpr (Or.inr rfl)⟩
    · rw [Function.update_of_ne heq] at hentry
      rcases h.cases path entry hentry with ⟨hdir, hold⟩ | hfile
      · exact Or.inl ⟨hdir, mem_seen_addDirectory.mpr (Or.inl hold)⟩
      · exact Or.inr hfile
  · intro path hpath
    rw [hentries]
    by_cases heq : path = current
    · subst heq
      simp
    · rw [Function.update_of_ne heq]
      refine h.present path (hpath.imp (fun hmem => ?_) id)
      exact (mem_seen_addDirectory.mp hmem).resolve_right heq

/-- Directories may be added. -/
theorem addDirectories (h : EntriesHold s records) (directories : List Bytes) :
    EntriesHold (addDirectories s directories) records := by
  induction directories generalizing s with
  | nil => exact h
  | cons d ds ih => exact ih (h.addDirectory d)

end EntriesHold

/-- The entries of the index are those of its files and directories. -/
theorem entriesHold_buildIndex (files : List TorrentFileRecord) :
    EntriesHold (buildIndex files) files.zipIdx := by
  refine buildIndex_induction EntriesHold.initial (fun s records e h => ?_) files
  rw [addRecord_eq]
  have hset := (h.setEntry e).addDirectories (directoriesAbove (pathOf e))
  exact ⟨hset.cases, hset.present⟩

/-! ## The listings -/

/-- The directories are listed once each, under their directory part, in the order seen; the root
was seen first. -/
structure DirectoriesListed (s : Index) : Prop where
  nodup : s.seenDirectories.Nodup
  root : ∃ rest, s.seenDirectories = [slash] :: rest
  listed : ∀ path, (s.children path).filter (·.isDirectory) =
    (s.seenDirectories.tail.filter fun d => parentPathOf d = path).map dirEntry

/-- The files are listed once each, under the directory part of their path, in their order. -/
def FilesListed (s : Index) (records : List (TorrentFileRecord × ℕ)) : Prop :=
  ∀ path, (s.children path).filter (fun e => !e.isDirectory) =
    (records.filter fun e => parentPathOf (pathOf e) = path).map entryOf

/-- A child is added to its parent only. -/
theorem pushChild_children (s : Index) (path : Bytes) (entry : FileEntry) (other : Bytes) :
    (s.pushChild path entry).children other =
      s.children other ++ if path = other then [entry] else [] := by
  by_cases h : other = path
  · subst h
    simp [Index.pushChild]
  · simp [Index.pushChild, Function.update_of_ne h, Ne.symm h]

/-- A new directory is a child of its parent. -/
theorem addDirectory_children (s : Index) {current : Bytes} (h : current ∉ s.seenDirectories)
    (other : Bytes) :
    (s.addDirectory current).children other =
      s.children other ++ if parentPathOf current = other then [dirEntry current] else [] := by
  rw [Index.addDirectory, if_neg h, pushChild_children]
  rfl

namespace DirectoriesListed

variable {s : Index}

/-- At the beginning nothing is listed. -/
theorem initial : DirectoriesListed Index.initial where
  nodup := by decide
  root := ⟨[], rfl⟩
  listed path := by simp [Index.initial]

/-- A directory is listed when it is added. -/
theorem addDirectory (h : DirectoriesListed s) (current : Bytes) :
    DirectoriesListed (s.addDirectory current) := by
  by_cases hseen : current ∈ s.seenDirectories
  · rwa [Index.addDirectory, if_pos hseen]
  obtain ⟨rest, hroot⟩ := h.root
  have hsteps : (s.addDirectory current).seenDirectories = s.seenDirectories ++ [current] := by
    rw [Index.addDirectory, if_neg hseen]
    rfl
  refine ⟨?_, ⟨rest ++ [current], by rw [hsteps, hroot, List.cons_append]⟩, ?_⟩
  · rw [hsteps]
    exact List.nodup_append.mpr ⟨h.nodup, List.nodup_singleton _, by
      rintro a ha b hb rfl
      exact hseen (List.mem_singleton.mp hb ▸ ha)⟩
  · intro path
    have htail : (s.seenDirectories ++ [current]).tail = s.seenDirectories.tail ++ [current] := by
      rw [hroot, List.cons_append, List.tail_cons, List.tail_cons]
    rw [addDirectory_children s hseen, hsteps, htail, List.filter_append, List.filter_append,
      List.map_append, h.listed path]
    congr 1
    by_cases hparent : parentPathOf current = path
    · simp [hparent, dirEntry]
    · simp [hparent]

/-- Directories are listed when they are added. -/
theorem addDirectories (h : DirectoriesListed s) (directories : List Bytes) :
    DirectoriesListed (addDirectories s directories) := by
  induction directories generalizing s with
  | nil => exact h
  | cons d ds ih => exact ih (h.addDirectory d)

end DirectoriesListed

/-- Each directory is listed in its parent, once. -/
theorem directoriesListed_buildIndex (files : List TorrentFileRecord) :
    DirectoriesListed (buildIndex files) := by
  refine buildIndex_induction (P := fun s _ => DirectoriesListed s) DirectoriesListed.initial
    (fun s records e h => ?_) files
  have hset : DirectoriesListed (s.setEntry (pathOf e) (entryOf e)) := ⟨h.nodup, h.root, h.listed⟩
  have hadd := hset.addDirectories (directoriesAbove (pathOf e))
  rw [addRecord_eq]
  refine ⟨hadd.nodup, hadd.root, ?_⟩
  intro path
  rw [pushChild_children, List.filter_append, hadd.listed path]
  split <;> simp [Index.pushChild, entryOf_isDirectory]

/-- A directory other than the root that was seen is listed under its directory part. -/
theorem dirEntry_mem_children {files : List TorrentFileRecord} {directory : Bytes}
    (h : directory ∈ (buildIndex files).seenDirectories) (hroot : directory ≠ [slash]) :
    dirEntry directory ∈ (buildIndex files).children (parentPathOf directory) := by
  have hlisted := directoriesListed_buildIndex files
  obtain ⟨rest, hrest⟩ := hlisted.root
  have htail : directory ∈ (buildIndex files).seenDirectories.tail := by
    rw [hrest] at h ⊢
    exact (List.mem_cons.mp h).resolve_left hroot
  have hmem : dirEntry directory ∈
      ((buildIndex files).children (parentPathOf directory)).filter (·.isDirectory) := by
    rw [hlisted.listed]
    exact List.mem_map.mpr ⟨directory, List.mem_filter.mpr ⟨htail, by simp⟩, rfl⟩
  exact (List.mem_filter.mp hmem).1

/-- What is listed as a directory is a directory seen, other than the root. -/
theorem seen_of_mem_children {files : List TorrentFileRecord} {path : Bytes} {entry : FileEntry}
    (h : entry ∈ (buildIndex files).children path) (hdirectory : entry.isDirectory = true) :
    ∃ d ∈ (buildIndex files).seenDirectories, d ≠ [slash] ∧ parentPathOf d = path ∧
      entry = dirEntry d := by
  have hlisted := directoriesListed_buildIndex files
  obtain ⟨rest, hrest⟩ := hlisted.root
  have hmem := List.mem_filter.mpr ⟨h, hdirectory⟩
  rw [hlisted.listed] at hmem
  obtain ⟨d, hd, rfl⟩ := List.mem_map.mp hmem
  obtain ⟨htail, hparent⟩ := List.mem_filter.mp hd
  have hnodup := hlisted.nodup
  rw [hrest] at htail hnodup
  refine ⟨d, by rw [hrest]; exact List.mem_cons_of_mem _ htail, ?_, by simpa using hparent, rfl⟩
  rintro rfl
  exact (List.nodup_cons.mp hnodup).1 htail

/-- Directories do not change the listed files. -/
theorem filesListed_addDirectories {s : Index} {records : List (TorrentFileRecord × ℕ)}
    (h : FilesListed s records) (directories : List Bytes) :
    FilesListed (addDirectories s directories) records := by
  induction directories generalizing s with
  | nil => exact h
  | cons d ds ih =>
      apply ih
      intro path
      by_cases hseen : d ∈ s.seenDirectories
      · rw [Index.addDirectory, if_pos hseen, h path]
      · rw [addDirectory_children s hseen, List.filter_append, h path]
        split <;> simp [dirEntry]

/-- Each file is listed in its parent, in order. -/
theorem filesListed_buildIndex (files : List TorrentFileRecord) :
    FilesListed (buildIndex files) files.zipIdx := by
  refine buildIndex_induction (fun path => by simp [Index.initial])
    (fun s records e h => ?_) files
  have hset : FilesListed (s.setEntry (pathOf e) (entryOf e)) records := h
  have hadd := filesListed_addDirectories hset (directoriesAbove (pathOf e))
  rw [addRecord_eq]
  intro path
  rw [pushChild_children, List.filter_append, hadd path, List.filter_append, List.map_append]
  congr 1
  by_cases hparent : parentPathOf (pathOf e) = path
  · simp [hparent, entryOf_isDirectory]
  · simp [hparent]

end Vtfs.Analysis
