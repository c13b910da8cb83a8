import Vtfs.Interface.DirectorySkeleton
import Vtfs.Analysis.Browsing

/-!
# The skeleton of directories

The directories listed under a directory are its children in the tree of the directories seen
(`directories_listed`), so the walk over the directories is the walk over that tree
(`browseDirectories_eq`), and comes to each of them once.
-/

set_option autoImplicit false

namespace Vtfs.Analysis

open Vtfs.Library
open Vtfs.Library.PosixPath (slash)
open Vtfs.Model
open Vtfs.Interface

section Skeleton

variable (files : List TorrentFileRecord)

/-! ## The walk -/

/-- The directories in a directory are its children in the tree. -/
theorem listed_directories {d : Bytes} (hd : d ∈ (buildIndex files).seenDirectories) :
    (listDirectory (buildIndex files) d).filter (·.isDirectory) =
      ((sessionTree files).children d).map dirEntry := by
  rw [listDirectory, normalizePath_of_seen hd, directories_listed]

/-- One directory of the walk: the directory, and what the walks from its children come to. -/
theorem browseDirectories_step {n : ℕ} {d : Bytes} (hd : d ∈ (buildIndex files).seenDirectories)
    (below : Bytes → List Bytes)
    (h : ∀ c ∈ (sessionTree files).children d,
      browseDirectories (buildIndex files) n c = some (below c)) :
    browseDirectories (buildIndex files) (n + 1) d =
      some (d :: ((sessionTree files).children d).flatMap below) := by
  have hruns : ∀ entry ∈ ((sessionTree files).children d).map dirEntry,
      browseDirectories (buildIndex files) n entry.virtualPath =
        some (below entry.virtualPath) := by
    intro entry hentry
    obtain ⟨c, hc, rfl⟩ := List.mem_map.mp hentry
    exact h c hc
  have hmap : (((sessionTree files).children d).map dirEntry).map
      (fun entry => below entry.virtualPath) = ((sessionTree files).children d).map below := by
    rw [List.map_map]
    rfl
  rw [browseDirectories, listed_directories files hd, mapM_eq_some hruns, hmap]
  rfl

/-- The walk over the directories is the walk over their tree. -/
theorem browseDirectories_eq {longest : ℕ}
    (hlongest : ∀ d ∈ (buildIndex files).seenDirectories, d.length ≤ longest) (depth : ℕ)
    {d : Bytes} (hd : d ∈ (buildIndex files).seenDirectories)
    (hdepth : longest ≤ d.length + depth) :
    browseDirectories (buildIndex files) (depth + 1) d =
      some ((sessionTree files).walk depth d) := by
  induction depth generalizing d with
  | zero =>
      have hleaf := children_tree_eq_nil files hlongest (by simpa using hdepth)
      have hstep := browseDirectories_step files hd (n := 0) (fun _ => []) (by rw [hleaf]; simp)
      rwa [hleaf] at hstep
  | succ depth ih =>
      refine browseDirectories_step files hd _ fun c hc => ?_
      obtain ⟨hseen, hlt⟩ := seen_of_mem_children_tree files hc
      exact ih hseen (by omega)

/-! ## The paths -/

/-- A directory that is listed in another has its path with one more segment. -/
theorem exists_segment_of_listed {d : Bytes} (hd : d ∈ (buildIndex files).seenDirectories)
    {entry : FileEntry} (hentry : entry ∈ listDirectory (buildIndex files) d)
    (hdirectory : entry.isDirectory = true) :
    ∃ segment, IsSegment segment ∧
      entry.virtualPath = (if d = [slash] then [] else d) ++ slash :: segment := by
  rw [listDirectory, normalizePath_of_seen hd] at hentry
  obtain ⟨c, hseen, hroot, hparent, rfl⟩ := seen_of_mem_children hentry hdirectory
  obtain ⟨qs, hqs, rfl⟩ := exists_segments_of_seen hseen
  have hne : qs ≠ [] := by
    rintro rfl
    exact hroot dirPath_nil
  obtain ⟨front, segment, rfl⟩ := (List.eq_nil_or_concat' qs).resolve_left hne
  have hsegment := hqs segment (by simp)
  refine ⟨segment, hsegment, ?_⟩
  rw [parentPathOf_dirPath front hsegment] at hparent
  rw [← hparent]
  have habove : (if dirPath front = [slash] then [] else dirPath front) = rooted slash front := by
    by_cases hfront : front = []
    · subst hfront
      rfl
    · have hnotRoot : dirPath front ≠ [slash] := fun heq =>
        hfront (dirPath_injective (fun q hq => hqs q (by simp [hq])) (by simp)
          (heq.trans dirPath_nil.symm))
      rw [if_neg hnotRoot, dirPath_of_ne_nil hfront]
  rw [habove]
  exact dirPath_concat front segment

/-- The segments above a path are all but the last. -/
theorem segmentsAbove_eq_dropLast {path : Bytes} (h : Normalized path) :
    segmentsAbove path = (segmentsOf path).dropLast := by
  rcases beforeLast_cases slash path.tail with ⟨hmem, hnone⟩ | ⟨front, leaf, hleaf, htail, hfront⟩
  · have hone : segmentsOf path = if path.tail ≠ [] then [path.tail] else [] := by
      rw [segmentsOf, pieces_of_not_mem hmem]
      by_cases hnil : path.tail = [] <;> simp [hnil]
    rw [segmentsAbove, hnone, hone]
    by_cases hnil : path.tail = [] <;> simp [hnil]
  · have hne : leaf ≠ [] := by
      rintro rfl
      apply h.getLast?_tail
      rw [htail, List.getLast?_concat]
    have hsegments : segmentsOf path = (pieces slash front).filter (· ≠ []) ++ [leaf] := by
      rw [segmentsOf, htail, pieces_append, List.filter_append, pieces_of_not_mem hleaf]
      simp [hne]
    rw [segmentsAbove, hfront, hsegments, List.dropLast_concat]

/-- A proper beginning of a list leaves out the last element. -/
theorem prefix_dropLast {α : Type} {l l' : List α} (h : l' <+: l) (hne : l' ≠ l) :
    l' <+: l.dropLast := by
  obtain ⟨rest, rfl⟩ := h
  have hrest : rest ≠ [] := by
    rintro rfl
    exact hne (List.append_nil _).symm
  rw [List.dropLast_append_of_ne_nil hrest]
  exact List.prefix_append _ _

/-- The first segments of a path of a file spell out a directory that was seen. -/
theorem dirPath_mem_seen {record : TorrentFileRecord} (hrecord : record ∈ files)
    {segments : List Bytes} (h : segments <+: segmentsAbove (normalizePath record.relativePath)) :
    dirPath segments ∈ (buildIndex files).seenDirectories := by
  apply mem_seen_buildIndex.mpr
  by_cases hnil : segments = []
  · exact Or.inl (by rw [hnil, dirPath_nil])
  · obtain ⟨i, hi⟩ := List.mem_iff_getElem?.mp hrecord
    exact Or.inr ⟨(record, i), List.mem_zipIdx_iff_getElem?.mpr hi,
      mem_directoriesAbove.mpr ⟨segments, hnil, h, rfl⟩⟩

/-- **The skeleton of directories is a tree.**  For every list of files the walk over the
directories from the root ends, and comes to each directory that was entered once.
SRCLINE: TorrentSession.cpp:164-202, TorrentSession.cpp:15-21, TorrentSession.cpp:204-220 -/
theorem browseDirectories_skeleton : ∃ depth visited,
    browseDirectories (buildIndex files) depth [slash] = some visited ∧
      IsSkeleton files visited := by
  obtain ⟨longest, hlongest⟩ := exists_longest files
  have hroot : [slash] ∈ (buildIndex files).seenDirectories :=
    mem_seen_buildIndex.mpr (Or.inl rfl)
  have hperm := walk_perm_seen files hlongest
  refine ⟨longest + 1, _, browseDirectories_eq files hlongest longest hroot (by simp), ?_⟩
  refine ⟨?_, fun path => hperm.mem_iff, ?_, ?_⟩
  · exact hperm.nodup_iff.mpr (directoriesListed_buildIndex files).nodup
  · intro path hpath entry hentry hdirectory
    obtain ⟨segment, hsegment, hextends⟩ :=
      exists_segment_of_listed files (hperm.mem_iff.mp hpath) hentry hdirectory
    exact ⟨segment, hsegment.nonempty, hsegment.no_slash, hextends⟩
  · intro record hrecord segments hprefix hproper
    rw [hperm.mem_iff]
    apply dirPath_mem_seen files hrecord
    rw [segmentsAbove_eq_dropLast (normalizePath_normalized _)]
    exact prefix_dropLast hprefix hproper

end Skeleton

end Vtfs.Analysis
