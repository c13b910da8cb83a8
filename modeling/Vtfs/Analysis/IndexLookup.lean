import Vtfs.Analysis.SessionIndex
import Vtfs.Analysis.MetadataLoading

/-!
# Lookup and the metadata

One map is written for files and for directories, so an entry that is set later replaces one with
the same path.  The index agrees with the files exactly when no two of these paths are the same
(`indexAgrees_iff`).
-/

set_option autoImplicit false

namespace Vtfs.Analysis

open Vtfs.Library
open Vtfs.Library.PosixPath (slash)
open Vtfs.Model
open Vtfs.Interface

section Lookup

variable {files : List TorrentFileRecord}

/-- A record is counted at its place. -/
theorem mem_zipIdx_iff {i : ℕ} {record : TorrentFileRecord} :
    (record, i) ∈ files.zipIdx ↔ files[i]? = some record := by
  rw [List.mem_zipIdx_iff_getElem?]

/-- The root is a directory that was seen. -/
theorem root_mem_seen : [slash] ∈ (buildIndex files).seenDirectories :=
  mem_seen_buildIndex.mpr (Or.inl rfl)

/-- The directories above a file were seen. -/
theorem seen_of_above {other : TorrentFileRecord} (h : other ∈ files) {directory : Bytes}
    (habove : directory ∈ directoriesAbove (normalizePath other.relativePath)) :
    directory ∈ (buildIndex files).seenDirectories := by
  obtain ⟨i, hi⟩ := List.getElem?_of_mem h
  exact mem_seen_buildIndex.mpr (Or.inr ⟨(other, i), mem_zipIdx_iff.mpr hi, habove⟩)

/-- With the paths apart, no file has the path of a directory seen. -/
theorem not_seen_of_apart (h : PathsApart files) {record : TorrentFileRecord}
    (hrecord : record ∈ files) :
    normalizePath record.relativePath ∉ (buildIndex files).seenDirectories := by
  intro hseen
  rcases mem_seen_buildIndex.mp hseen with hroot | ⟨⟨other, i⟩, hother, habove⟩
  · exact h.not_root record hrecord hroot
  · exact h.not_directory record hrecord other
      (List.mem_of_getElem? (mem_zipIdx_iff.mp hother)) habove

/-- With the paths apart, the entry at the path of a directory seen is that of the directory. -/
theorem entries_of_seen_of_apart (h : PathsApart files) {directory : Bytes}
    (hseen : directory ∈ (buildIndex files).seenDirectories) :
    (buildIndex files).entries directory = some (dirEntry directory) := by
  have hentries := entriesHold_buildIndex files
  obtain ⟨entry, hentry⟩ := Option.isSome_iff_exists.mp (hentries.present _ (Or.inl hseen))
  rcases hentries.cases _ _ hentry with ⟨rfl, -⟩ | ⟨⟨record, i⟩, he, hpath, -⟩
  · exact hentry
  · have hrecord := List.mem_of_getElem? (mem_zipIdx_iff.mp he)
    rw [hpath] at hseen
    exact absurd hseen (not_seen_of_apart h hrecord)

/-- When no path gets in the way of another, the index agrees with the files. -/
theorem indexAgrees_of_apart (h : PathsApart files) : IndexAgrees files where
  records i record hi := by
    have hentries := entriesHold_buildIndex files
    have hmem := mem_zipIdx_iff.mpr hi
    have hrecord := List.mem_of_getElem? hi
    obtain ⟨entry, hentry⟩ :=
      Option.isSome_iff_exists.mp (hentries.present _ (Or.inr ⟨_, hmem, rfl⟩))
    rcases hentries.cases _ _ hentry with ⟨-, hseen⟩ | ⟨⟨record', j⟩, he', hpath, rfl⟩
    · exact absurd hseen (not_seen_of_apart h hrecord)
    · -- only one file has the path
      have hj := mem_zipIdx_iff.mp he'
      have hij : i = j := by
        have hi' : i < (files.map fun r => normalizePath r.relativePath).length := by
          rw [List.length_map]
          exact (List.getElem?_eq_some_iff.mp hi).1
        refine (List.getElem?_inj hi' h.distinct).mp ?_
        rw [List.getElem?_map, List.getElem?_map, hi, hj]
        exact congrArg some hpath
      subst hij
      obtain rfl := Option.some.inj (hi.symm.trans hj)
      have hlt : i < 2 ^ 31 :=
        lt_of_lt_of_le (List.getElem?_eq_some_iff.mp hi).1 h.fit
      refine ⟨_, hentry, rfl, ?_, rfl, rfl⟩
      exact Int32.toInt_ofNat_of_lt hlt
  directories path entry hlisted hdirectory := by
    obtain ⟨d, hseen, -, -, rfl⟩ := seen_of_mem_children hlisted hdirectory
    refine ⟨dirEntry d, ?_, rfl⟩
    rw [lookup, dirEntry, normalizePath_of_seen hseen]
    exact entries_of_seen_of_apart h hseen
  root := ⟨dirEntry [slash], entries_of_seen_of_apart h root_mem_seen, rfl⟩

/-! ## The paths are apart where the index agrees -/

/-- A lookup normalizes its path. -/
theorem lookup_eq_entries (s : Index) (path : Bytes) :
    lookup s path = s.entries (normalizePath path) := rfl

/-- When the index agrees, no path is given twice. -/
theorem distinct_of_indexAgrees (h : IndexAgrees files) :
    (files.map fun record => normalizePath record.relativePath).Nodup := by
  rw [List.nodup_iff_getElem?_ne_getElem?]
  intro i j hij hj heq
  rw [List.length_map] at hj
  have hi : files[i]? = some files[i] := List.getElem?_eq_getElem (hij.trans hj)
  have hj' : files[j]? = some files[j] := List.getElem?_eq_getElem hj
  rw [List.getElem?_map, List.getElem?_map, hi, hj'] at heq
  obtain ⟨entry, hentry, -, hindex, -⟩ := h.records i _ hi
  obtain ⟨entry', hentry', -, hindex', -⟩ := h.records j _ hj'
  have hpath : normalizePath files[i].relativePath = normalizePath files[j].relativePath :=
    Option.some.inj heq
  rw [lookup_eq_entries, hpath] at hentry
  obtain rfl := Option.some.inj (hentry.symm.trans hentry')
  omega

/-- When the index agrees, the indexes fit. -/
theorem fit_of_indexAgrees (h : IndexAgrees files) : IndicesFit files := by
  by_contra hlarge
  have hlt : 2 ^ 31 < files.length := not_le.mp hlarge
  obtain ⟨entry, -, -, hindex, -⟩ := h.records (2 ^ 31) _ (List.getElem?_eq_getElem hlt)
  have hbound := entry.index.toInt_lt
  omega

/-- When the index agrees, the entry for a file is one of a file. -/
theorem isFile_of_indexAgrees (h : IndexAgrees files) {record : TorrentFileRecord}
    (hrecord : record ∈ files) {entry : FileEntry}
    (hentry : (buildIndex files).entries (normalizePath record.relativePath) = some entry) :
    entry.isDirectory = false := by
  obtain ⟨i, hi⟩ := List.getElem?_of_mem hrecord
  obtain ⟨entry', hentry', hfile, -⟩ := h.records i record hi
  obtain rfl := Option.some.inj (hentry.symm.trans hentry')
  exact hfile

/-- When the index agrees, no path gets in the way of another. -/
theorem apart_of_indexAgrees (h : IndexAgrees files) : PathsApart files where
  fit := fit_of_indexAgrees h
  distinct := distinct_of_indexAgrees h
  not_root record hrecord hroot := by
    obtain ⟨entry, hentry, hdirectory⟩ := h.root
    rw [lookup_eq_entries, normalizePath_of_normalized normalized_root, ← hroot] at hentry
    rw [isFile_of_indexAgrees h hrecord hentry] at hdirectory
    exact absurd hdirectory (by simp)
  not_directory record hrecord other hother habove := by
    have hseen := seen_of_above hother habove
    have hroot := ne_root_of_mem_directoriesAbove (normalizePath_normalized _) habove
    have hlisted := dirEntry_mem_children hseen hroot
    -- the directory is listed under its directory part, whose path is normalized
    have hparent : normalizePath (parentPathOf (normalizePath record.relativePath)) =
        parentPathOf (normalizePath record.relativePath) :=
      normalizePath_of_seen (parentPathOf_mem_seen hseen hroot)
    obtain ⟨entry, hentry, hdirectory⟩ := h.directories
      (parentPathOf (normalizePath record.relativePath)) _
      (by rw [listDirectory, hparent]; exact hlisted) rfl
    rw [lookup_eq_entries, dirEntry, normalizePath_idem] at hentry
    rw [isFile_of_indexAgrees h hrecord hentry] at hdirectory
    exact absurd hdirectory (by simp)

/-- **Lookup and the metadata.**  The index agrees with the files if and only if the paths of the
files are different from each other, from the root and from the directories above them, and
their numbers fit 32 bits.
SRCLINE: TorrentSession.cpp:164-202 -/
theorem indexAgrees_iff (files : List TorrentFileRecord) : IndexAgrees files ↔ PathsApart files :=
  ⟨apart_of_indexAgrees, indexAgrees_of_apart⟩

end Lookup

/-- A torrent with a file `x` and a file `y` in a directory `x`. -/
def fileAboveFileTorrent : StringView :=
  ⟨bytes "d4:infod5:filesld6:lengthi1e4:pathl1:xeed6:lengthi1e4:pathl1:x1:yeee" ++
    bytes "4:name1:a12:piece lengthi1e6:pieces0:ee", by decide⟩

/-- The torrent with a file above a file loads. -/
theorem accepts_fileAboveFileTorrent :
    ∃ metadata, Accepts fileAboveFileTorrent metadata ∧
      metadata.files = [⟨bytes "a/x", 1, 0⟩, ⟨bytes "a/x/y", 1, 1⟩] :=
  exists_accepts_of_files 40 (by decide +kernel)

/-- There `lookup` finds a directory at the path of the first file. -/
theorem indexAgrees_fails :
    ¬ ∀ raw metadata, Accepts raw metadata → IndexAgrees metadata.files := by
  intro h
  obtain ⟨metadata, haccepts, hfiles⟩ := accepts_fileAboveFileTorrent
  have hagrees := h _ _ haccepts
  rw [hfiles] at hagrees
  obtain ⟨entry, hentry, hfile, -⟩ := hagrees.records 0 _ rfl
  have hfound : (lookup (buildIndex [⟨bytes "a/x", 1, 0⟩, ⟨bytes "a/x/y", 1, 1⟩])
      (bytes "a/x")).map (·.isDirectory) = some true := by decide +kernel
  rw [hentry, Option.map_some, hfile] at hfound
  exact absurd hfound (by simp)

end Vtfs.Analysis
