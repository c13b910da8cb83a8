import Vtfs.Analysis.SessionIndex
import Vtfs.Analysis.MetadataLoading
import Vtfs.Library.ParentTree

/-!
# Browsing the directory tree

The directories seen are a tree, each listed under its directory part (`sessionTree`), so the
walk from the root comes to each of them once.  A file is listed under the directory part of its
path as it is spelled; the walk comes to it exactly when that is the one spelling of a directory
(`browsesExactly_iff`).
-/

set_option autoImplicit false

namespace Vtfs.Analysis

open Vtfs.Library
open Vtfs.Library.PosixPath (slash)
open Vtfs.Model
open Vtfs.Interface

section Browse

variable (files : List TorrentFileRecord)

/-! ## The tree of the directories seen -/

/-- The parent of a directory has a shorter path. -/
theorem length_parentPathOf_lt {directory : Bytes}
    (h : directory ∈ (buildIndex files).seenDirectories) (hroot : directory ≠ [slash]) :
    (parentPathOf directory).length < directory.length := by
  obtain ⟨qs, hqs, rfl⟩ := exists_segments_of_seen h
  have hne : qs ≠ [] := by
    rintro rfl
    exact hroot dirPath_nil
  obtain ⟨front, q, rfl⟩ := (List.eq_nil_or_concat' qs).resolve_left hne
  have hq := hqs q (by simp)
  have hpos : 0 < q.length := List.length_pos_iff.mpr hq.nonempty
  rw [parentPathOf_dirPath front hq, dirPath_concat, List.length_append, List.length_cons]
  by_cases hfront : front = []
  · subst hfront
    rw [dirPath_nil]
    simp [rooted]
    omega
  · rw [dirPath_of_ne_nil hfront]
    omega

/-- Behind the root there are the other directories. -/
theorem seen_tail {directory : Bytes} :
    directory ∈ (buildIndex files).seenDirectories.tail ↔
      directory ∈ (buildIndex files).seenDirectories ∧ directory ≠ [slash] := by
  have hlisted := directoriesListed_buildIndex files
  obtain ⟨rest, hrest⟩ := hlisted.root
  have hnodup := hlisted.nodup
  rw [hrest] at hnodup ⊢
  constructor
  · intro hmem
    refine ⟨List.mem_cons_of_mem _ hmem, ?_⟩
    rintro rfl
    exact (List.nodup_cons.mp hnodup).1 hmem
  · rintro ⟨hmem, hne⟩
    exact (List.mem_cons.mp hmem).resolve_left hne

/-- The root was seen first. -/
theorem seen_eq_cons : (buildIndex files).seenDirectories =
    [slash] :: (buildIndex files).seenDirectories.tail := by
  obtain ⟨rest, hrest⟩ := (directoriesListed_buildIndex files).root
  rw [hrest, List.tail_cons]

/-- The directories of the index, each with its directory part. -/
def sessionTree : ParentTree Bytes where
  root := [slash]
  below := (buildIndex files).seenDirectories.tail
  parent := parentPathOf
  rank := List.length
  nodup := by
    rw [← seen_eq_cons]
    exact (directoriesListed_buildIndex files).nodup
  parent_mem d hd := by
    rw [← seen_eq_cons]
    obtain ⟨hseen, hroot⟩ := (seen_tail files).mp hd
    exact parentPathOf_mem_seen hseen hroot
  rank_parent d hd := by
    obtain ⟨hseen, hroot⟩ := (seen_tail files).mp hd
    exact length_parentPathOf_lt files hseen hroot

/-- The nodes of the tree are the directories that were seen. -/
theorem sessionTree_nodes : (sessionTree files).nodes = (buildIndex files).seenDirectories :=
  (seen_eq_cons files).symm

/-- No path of a directory is longer than some length, which bounds the depth of a walk. -/
theorem exists_longest : ∃ longest, ∀ d ∈ (buildIndex files).seenDirectories,
    d.length ≤ longest :=
  ⟨((buildIndex files).seenDirectories.map List.length).sum, fun _ hd =>
    List.single_le_sum (by simp) _ (List.mem_map_of_mem hd)⟩

/-- The walk over the tree from the root comes to the directories seen, each once. -/
theorem walk_perm_seen {longest : ℕ}
    (hlongest : ∀ d ∈ (buildIndex files).seenDirectories, d.length ≤ longest) :
    ((sessionTree files).walk longest [slash]).Perm (buildIndex files).seenDirectories := by
  have hnodes := (sessionTree files).walk_root_perm longest fun u hu => by
    rw [sessionTree_nodes] at hu
    exact (hlongest u hu).trans (Nat.le_add_left _ _)
  rwa [sessionTree_nodes] at hnodes

/-- The directories listed under a directory are its children in the tree. -/
theorem directories_listed (d : Bytes) :
    ((buildIndex files).children d).filter (·.isDirectory) =
      ((sessionTree files).children d).map dirEntry :=
  (directoriesListed_buildIndex files).listed d

/-! ## The walk -/

/-- The files listed under a directory. -/
def filesAt (d : Bytes) : List FileEntry :=
  ((buildIndex files).children d).filter fun e => !e.isDirectory

/-- Where every element gives a value, so does the list. -/
theorem mapM_eq_some {α β : Type} {f : α → Option β} {g : α → β} {l : List α}
    (h : ∀ a ∈ l, f a = some (g a)) : l.mapM f = some (l.map g) := by
  induction l with
  | nil => rfl
  | cons a l ih =>
      rw [List.mapM_cons, h a (by simp), ih fun b hb => h b (List.mem_cons_of_mem _ hb)]
      rfl

/-- What the walk comes to at an entry: what the walk from it comes to, or the file itself. -/
def visitsOf (s : Index) (n : ℕ) (entry : FileEntry) : List FileEntry :=
  if entry.isDirectory then (browse s n entry.virtualPath).getD [] else [entry]

/-- The walk from a directory ends when the walks from the directories listed there do. -/
theorem browse_succ {s : Index} {n : ℕ} {d : Bytes}
    (h : ∀ entry ∈ listDirectory s d, entry.isDirectory = true →
      (browse s n entry.virtualPath).isSome) :
    browse s (n + 1) d = some ((listDirectory s d).flatMap (visitsOf s n)) := by
  rw [browse, mapM_eq_some (g := visitsOf s n)]
  · rw [List.flatMap_def]
    rfl
  · intro entry hentry
    by_cases hdirectory : entry.isDirectory = true
    · obtain ⟨visited, hvisited⟩ := Option.isSome_iff_exists.mp (h entry hentry hdirectory)
      simp [visitsOf, hdirectory, hvisited]
    · simp [visitsOf, hdirectory]

/-- A file visits itself. -/
theorem flatMap_visitsOf_filesAt (n : ℕ) (d : Bytes) :
    (filesAt files d).flatMap (visitsOf (buildIndex files) n) = filesAt files d := by
  have hsingle : ∀ e ∈ filesAt files d, visitsOf (buildIndex files) n e = [e] := by
    intro e he
    have hfile : e.isDirectory = false := by simpa using (List.mem_filter.mp he).2
    simp [visitsOf, hfile]
  calc (filesAt files d).flatMap (visitsOf (buildIndex files) n)
      = (filesAt files d).flatMap fun e => [e] := List.flatMap_congr hsingle
    _ = filesAt files d := by simp

/-- One directory of the walk: the files listed there, and what the walks from its children come
to. -/
theorem browse_step {n : ℕ} {d : Bytes} (hd : d ∈ (buildIndex files).seenDirectories)
    (below : Bytes → List Bytes)
    (h : ∀ c ∈ (sessionTree files).children d, ∃ visited,
      browse (buildIndex files) n c = some visited ∧
        visited.Perm ((below c).flatMap (filesAt files))) :
    ∃ visited, browse (buildIndex files) (n + 1) d = some visited ∧
      visited.Perm ((d :: ((sessionTree files).children d).flatMap below).flatMap
        (filesAt files)) := by
  have hlisting : listDirectory (buildIndex files) d = (buildIndex files).children d := by
    rw [listDirectory, normalizePath_of_seen hd]
  have hended : ∀ entry ∈ listDirectory (buildIndex files) d, entry.isDirectory = true →
      (browse (buildIndex files) n entry.virtualPath).isSome := by
    intro entry hentry hdirectory
    rw [hlisting] at hentry
    have hmem : entry ∈ ((sessionTree files).children d).map dirEntry := by
      rw [← directories_listed]
      exact List.mem_filter.mpr ⟨hentry, hdirectory⟩
    obtain ⟨c, hc, rfl⟩ := List.mem_map.mp hmem
    obtain ⟨visited, hvisited, -⟩ := h c hc
    exact Option.isSome_iff_exists.mpr ⟨visited, hvisited⟩
  have hrun := browse_succ hended
  rw [hlisting] at hrun
  refine ⟨_, hrun, ?_⟩
  -- the listing is its directories and its files
  have hsplit := flatMap_perm_filter ((buildIndex files).children d) (·.isDirectory)
    (visitsOf (buildIndex files) n)
  have hfiles : (((buildIndex files).children d).filter fun e => !e.isDirectory).flatMap
      (visitsOf (buildIndex files) n) = filesAt files d := flatMap_visitsOf_filesAt files n d
  rw [directories_listed, List.flatMap_map, hfiles] at hsplit
  have hbelow : (((sessionTree files).children d).flatMap fun c =>
      visitsOf (buildIndex files) n (dirEntry c)).Perm
      ((((sessionTree files).children d).flatMap below).flatMap (filesAt files)) := by
    rw [List.flatMap_assoc]
    apply List.Perm.flatMap_left
    intro c hc
    obtain ⟨visited, hvisited, hperm⟩ := h c hc
    have hvisits : visitsOf (buildIndex files) n (dirEntry c) = visited := by
      simp [visitsOf, dirEntry, hvisited]
    rw [hvisits]
    exact hperm
  rw [List.flatMap_cons]
  exact hsplit.trans ((hbelow.append_right _).trans List.perm_append_comm)

/-- A child is a directory that was seen, with a longer path. -/
theorem seen_of_mem_children_tree {c d : Bytes} (h : c ∈ (sessionTree files).children d) :
    c ∈ (buildIndex files).seenDirectories ∧ d.length < c.length := by
  obtain ⟨hbelow, hparent⟩ := ParentTree.mem_children_iff.mp h
  obtain ⟨hseen, hroot⟩ := (seen_tail files).mp hbelow
  refine ⟨hseen, ?_⟩
  rw [← hparent]
  exact length_parentPathOf_lt files hseen hroot

/-- A directory whose path is as long as any has no children. -/
theorem children_tree_eq_nil {longest : ℕ}
    (hlongest : ∀ d ∈ (buildIndex files).seenDirectories, d.length ≤ longest) {d : Bytes}
    (h : longest ≤ d.length) : (sessionTree files).children d = [] := by
  apply List.eq_nil_iff_forall_not_mem.mpr
  intro c hc
  obtain ⟨hseen, hlt⟩ := seen_of_mem_children_tree files hc
  have hle := hlongest c hseen
  omega

/-- The walk from a directory comes to the files listed under the directories below it. -/
theorem browse_perm {longest : ℕ}
    (hlongest : ∀ d ∈ (buildIndex files).seenDirectories, d.length ≤ longest) (depth : ℕ)
    {d : Bytes} (hd : d ∈ (buildIndex files).seenDirectories)
    (hdepth : longest ≤ d.length + depth) :
    ∃ visited, browse (buildIndex files) (depth + 1) d = some visited ∧
      visited.Perm (((sessionTree files).walk depth d).flatMap (filesAt files)) := by
  induction depth generalizing d with
  | zero =>
      have hleaf := children_tree_eq_nil files hlongest (by simpa using hdepth)
      have hstep := browse_step files hd (n := 0) (fun _ => [])
        (by rw [hleaf]; simp)
      rwa [hleaf] at hstep
  | succ depth ih =>
      apply browse_step files hd _
      intro c hc
      obtain ⟨hseen, hlt⟩ := seen_of_mem_children_tree files hc
      exact ih hseen (by omega)

/-- The walk from the root comes to the files whose directory part was seen. -/
theorem browse_root : ∃ depth visited, browse (buildIndex files) depth [slash] = some visited ∧
    visited.Perm ((files.zipIdx.filter fun e =>
      parentPathOf (pathOf e) ∈ (buildIndex files).seenDirectories).map entryOf) := by
  obtain ⟨longest, hlongest⟩ := exists_longest files
  have hroot : [slash] ∈ (buildIndex files).seenDirectories :=
    mem_seen_buildIndex.mpr (Or.inl rfl)
  obtain ⟨visited, hvisited, hperm⟩ := browse_perm files hlongest longest hroot (by simp)
  have hwalk := walk_perm_seen files hlongest
  refine ⟨longest + 1, visited, hvisited, hperm.trans ((hwalk.flatMap_right _).trans ?_)⟩
  have hat : filesAt files = fun d =>
      (files.zipIdx.filter fun e => parentPathOf (pathOf e) = d).map entryOf :=
    funext (filesListed_buildIndex files)
  have hkeyed := flatMap_filter_perm (directoriesListed_buildIndex files).nodup files.zipIdx
    fun e => parentPathOf (pathOf e)
  have hmap := hkeyed.map entryOf
  rw [List.map_flatMap] at hmap
  rw [hat]
  refine hmap.trans (List.Perm.of_eq (congrArg (List.map entryOf) ?_))
  exact List.filter_congr fun e _ => decide_eq_decide.mpr Iff.rfl

/-! ## When the walk comes to every file -/

/-- What a list gives it gives under a function with more values. -/
theorem mapM_eq_some_of_imp {α β : Type} {f g : α → Option β}
    (h : ∀ a b, f a = some b → g a = some b) {l : List α} {results : List β}
    (hrun : l.mapM f = some results) : l.mapM g = some results := by
  induction l generalizing results with
  | nil => exact hrun
  | cons a l ih =>
      rw [List.mapM_cons] at hrun ⊢
      obtain ⟨b, hb, hrun⟩ := Option.bind_eq_some_iff.mp hrun
      obtain ⟨rest, hrest, hresults⟩ := Option.bind_eq_some_iff.mp hrun
      exact Option.bind_eq_some_iff.mpr
        ⟨b, h a b hb, Option.bind_eq_some_iff.mpr ⟨rest, ih hrest, hresults⟩⟩

/-- A walk that ends does not change when it may go deeper. -/
theorem browse_mono (s : Index) {n m : ℕ} (hnm : n ≤ m) {d : Bytes} {visited : List FileEntry}
    (h : browse s n d = some visited) : browse s m d = some visited := by
  induction n generalizing m d visited with
  | zero => cases h
  | succ n ih =>
      obtain ⟨m, rfl⟩ := Nat.exists_eq_add_of_lt (Nat.lt_of_lt_of_le n.succ_pos hnm)
      rw [browse] at h ⊢
      obtain ⟨parts, hparts, hvisited⟩ := Option.bind_eq_some_iff.mp h
      refine Option.bind_eq_some_iff.mpr ⟨parts, mapM_eq_some_of_imp ?_ hparts, hvisited⟩
      intro entry found hfound
      split at hfound
      · rename_i hdirectory
        rw [if_pos hdirectory]
        exact ih (by omega) hfound
      · rename_i hfile
        rw [if_neg hfile]
        exact hfound

/-- The depth does not matter to a walk that ends. -/
theorem browse_unique (s : Index) {n m : ℕ} {d : Bytes} {visited visited' : List FileEntry}
    (h : browse s n d = some visited) (h' : browse s m d = some visited') :
    visited = visited' := by
  have hn := browse_mono s (Nat.le_max_left n m) h
  have hm := browse_mono s (Nat.le_max_right n m) h'
  rw [hn] at hm
  exact Option.some.inj hm

/-- The directory part of a file was seen exactly when it is the one spelling of a directory. -/
theorem parentPathOf_seen_iff {e : TorrentFileRecord × ℕ} (he : e ∈ files.zipIdx) :
    parentPathOf (pathOf e) ∈ (buildIndex files).seenDirectories ↔
      CanonicalDirectory (parentPathOf (pathOf e)) := by
  have hnormalized : Normalized (pathOf e) := normalizePath_normalized _
  constructor
  · intro hseen
    obtain ⟨qs, hqs, hpath⟩ := exists_segments_of_seen hseen
    rw [hpath]
    exact (canonicalDirectory_iff (normalized_dirPath hqs).no_backslash).mpr ⟨qs, hqs, rfl⟩
  · intro hcanonical
    rw [(canonicalDirectory_parentPathOf_iff hnormalized).mp hcanonical]
    apply mem_seen_buildIndex.mpr
    by_cases hnil : segmentsAbove (pathOf e) = []
    · exact Or.inl (by rw [hnil, dirPath_nil])
    · exact Or.inr ⟨e, he, mem_directoriesAbove.mpr ⟨_, hnil, List.prefix_rfl, rfl⟩⟩

/-- The indexes of the files count them. -/
theorem map_entryOf_index (hfit : IndicesFit files) :
    (files.zipIdx.map entryOf).map (fun entry => entry.index.toInt) =
      (List.range files.length).map Int.ofNat := by
  have hindex : ∀ e ∈ files.zipIdx, (entryOf e).index.toInt = Int.ofNat e.2 := by
    rintro ⟨record, i⟩ he
    have hlt : i < files.length := (List.getElem?_eq_some_iff.mp
      (List.mem_zipIdx_iff_getElem?.mp he)).1
    exact Int32.toInt_ofNat_of_lt (lt_of_lt_of_le hlt hfit)
  calc (files.zipIdx.map entryOf).map (fun entry => entry.index.toInt)
      = files.zipIdx.map fun e => (entryOf e).index.toInt := by rw [List.map_map]; rfl
    _ = files.zipIdx.map fun e => Int.ofNat e.2 := List.map_congr_left hindex
    _ = (files.zipIdx.map Prod.snd).map Int.ofNat := by rw [List.map_map]; rfl
    _ = (List.range files.length).map Int.ofNat := by
        rw [List.zipIdx_map_snd, List.range_eq_range']

/-- Indices that are the numbers from zero are not more than fit. -/
theorem indicesFit_of_perm {entries : List FileEntry}
    (h : (entries.map fun entry => entry.index.toInt).Perm
      ((List.range files.length).map Int.ofNat)) : IndicesFit files := by
  by_contra hfit
  rw [IndicesFit, not_le] at hfit
  have hmem : Int.ofNat (2 ^ 31) ∈ (List.range files.length).map Int.ofNat :=
    List.mem_map_of_mem (List.mem_range.mpr hfit)
  obtain ⟨entry, -, hentry⟩ := List.mem_map.mp (h.mem_iff.mpr hmem)
  have hlt := entry.index.toInt_lt
  rw [hentry] at hlt
  exact absurd hlt (by decide)

/-- **Browsing.**  The walk from the root comes to every file exactly once if and only if the
directory part of each normalized path is the root or spells a directory with single slashes, and
the numbers of the files fit 32 bits.
SRCLINE: TorrentSession.cpp:164-202 -/
theorem browsesExactly_iff : BrowsesExactly files ↔
    IndicesFit files ∧ ∀ record ∈ files,
      CanonicalDirectory (parentPathOf (normalizePath record.relativePath)) := by
  obtain ⟨depth, visited, hrun, hperm⟩ := browse_root files
  constructor
  · rintro ⟨depth', visited', hrun', -, hindices⟩
    obtain rfl := browse_unique _ hrun' hrun
    refine ⟨indicesFit_of_perm files hindices, ?_⟩
    intro record hrecord
    -- as many files are visited as there are records, so none was left out
    have hlength : (files.zipIdx.filter fun e =>
        parentPathOf (pathOf e) ∈ (buildIndex files).seenDirectories).length =
        files.zipIdx.length := by
      have hvisited := hperm.length_eq
      have hall := hindices.length_eq
      simp only [List.length_map, List.length_range, List.length_zipIdx] at hvisited hall ⊢
      omega
    have hseen := List.length_filter_eq_length_iff.mp hlength
    obtain ⟨i, hi⟩ := List.mem_iff_getElem?.mp hrecord
    have he : (record, i) ∈ files.zipIdx := List.mem_zipIdx_iff_getElem?.mpr hi
    exact (parentPathOf_seen_iff files he).mp (of_decide_eq_true (hseen _ he))
  · rintro ⟨hfit, hcanonical⟩
    have hall : (files.zipIdx.filter fun e =>
        parentPathOf (pathOf e) ∈ (buildIndex files).seenDirectories) = files.zipIdx := by
      refine List.filter_eq_self.mpr fun e he => decide_eq_true ?_
      exact (parentPathOf_seen_iff files he).mpr (hcanonical e.1 (List.fst_mem_of_mem_zipIdx he))
    rw [hall] at hperm
    refine ⟨depth, visited, hrun, ?_, ?_⟩
    · intro entry hentry
      obtain ⟨e, -, rfl⟩ := List.mem_map.mp (hperm.mem_iff.mp hentry)
      rfl
    · have hindices := hperm.map fun entry => entry.index.toInt
      rwa [map_entryOf_index files hfit] at hindices

end Browse

/-- A torrent with a file whose path list has an empty part. -/
def emptyPartTorrent : StringView :=
  ⟨bytes "d4:infod5:filesld6:lengthi1e4:pathl1:x0:1:yeee4:name1:a12:piece lengthi1e6:pieces0:ee",
    by decide⟩

/-- A torrent with an empty part in a path loads. -/
theorem accepts_emptyPartTorrent :
    ∃ metadata, Accepts emptyPartTorrent metadata ∧ metadata.files = [⟨bytes "a/x//y", 1, 0⟩] :=
  exists_accepts_of_files 40 (by decide +kernel)

/-- There the file is listed under `/a/x/`, and the walk from the root comes to `/a/x` only. -/
theorem browsesExactly_fails :
    ¬ ∀ raw metadata, Accepts raw metadata → BrowsesExactly metadata.files := by
  intro h
  obtain ⟨metadata, haccepts, hfiles⟩ := accepts_emptyPartTorrent
  obtain ⟨depth, visited, hrun, -, hindices⟩ := h _ _ haccepts
  rw [hfiles] at hrun hindices
  have hnone : browse (buildIndex [⟨bytes "a/x//y", 1, 0⟩]) 3 [slash] = some [] := by
    decide +kernel
  obtain rfl := browse_unique _ hrun hnone
  exact absurd hindices.length_eq (by decide)

end Vtfs.Analysis
