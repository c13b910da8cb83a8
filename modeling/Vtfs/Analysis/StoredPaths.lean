import Vtfs.Analysis.WebDavAddresses

/-!
# Stored paths are found again

Every path that `buildIndex` stores in an entry is one that `normalizePath` gave or one put together
from its segments, so it is normalized (`normalized_of_stored`) and handing it back comes to the
key it is stored under (`storedPaths_found`).
-/

set_option autoImplicit false

namespace Vtfs.Analysis

open Vtfs.Library
open Vtfs.Library.PosixPath (slash)
open Vtfs.Model
open Vtfs.Interface

/-- An entry that is in one of the maps, under whatever key. -/
def Stored (s : Index) (entry : FileEntry) : Prop :=
  (∃ key, s.entries key = some entry) ∨ ∃ key, entry ∈ s.children key

/-- A path that is handed back comes to the key it is, in both maps, and so does a request for it
when there is no percent sign and no plus sign in it. -/
structure FoundAgain (s : Index) (path : Bytes) : Prop where
  fixed : normalizePath path = path
  lookup : ∃ entry, s.entries path = some entry ∧ entry.virtualPath = path ∧
    lookup s path = some entry
  listDirectory : listDirectory s path = s.children path
  request : byte '%' ∉ path → byte '+' ∉ path → ∀ line : RequestLine, line.target = path →
    urlDecode line.target = path ∧ entryFor s line = s.entries path

section Stored

variable {files : List TorrentFileRecord} {entry : FileEntry}

/-- A stored entry is that of a directory seen or that of a record. -/
theorem stored_cases (h : Stored (buildIndex files) entry) :
    (∃ d ∈ (buildIndex files).seenDirectories, entry = dirEntry d) ∨
      ∃ e ∈ files.zipIdx, entry = entryOf e := by
  rcases h with ⟨key, hkey⟩ | ⟨key, hkey⟩
  · rcases (entriesHold_buildIndex files).cases _ _ hkey with ⟨rfl, hseen⟩ | ⟨e, he, -, rfl⟩
    · exact Or.inl ⟨key, hseen, rfl⟩
    · exact Or.inr ⟨e, he, rfl⟩
  · cases hdirectory : entry.isDirectory with
    | true =>
        obtain ⟨d, hseen, -, -, rfl⟩ := seen_of_mem_children hkey hdirectory
        exact Or.inl ⟨d, hseen, rfl⟩
    | false =>
        have hmem : entry ∈ ((buildIndex files).children key).filter fun e => !e.isDirectory :=
          List.mem_filter.mpr ⟨hkey, by rw [hdirectory]; rfl⟩
        rw [filesListed_buildIndex files] at hmem
        obtain ⟨e, he, rfl⟩ := List.mem_map.mp hmem
        exact Or.inr ⟨e, (List.mem_filter.mp he).1, rfl⟩

/-- A stored path is normalized. -/
theorem normalized_of_stored (h : Stored (buildIndex files) entry) :
    Normalized entry.virtualPath := by
  rcases stored_cases h with ⟨d, hseen, rfl⟩ | ⟨e, -, rfl⟩
  · rw [dirEntry, ← normalizePath_of_seen hseen]
    exact normalizePath_normalized d
  · exact normalizePath_normalized _

/-- The path of a stored entry is the key of an entry with this path. -/
theorem entries_of_stored (h : Stored (buildIndex files) entry) :
    ∃ found, (buildIndex files).entries entry.virtualPath = some found ∧
      found.virtualPath = entry.virtualPath := by
  have hpresent : ((buildIndex files).entries entry.virtualPath).isSome := by
    apply (entriesHold_buildIndex files).present
    rcases stored_cases h with ⟨d, hseen, rfl⟩ | ⟨e, he, rfl⟩
    · exact Or.inl hseen
    · exact Or.inr ⟨e, he, rfl⟩
  obtain ⟨found, hfound⟩ := Option.isSome_iff_exists.mp hpresent
  exact ⟨found, hfound, virtualPath_of_entries hfound⟩

end Stored

/-- Where no percent sign is, no byte is escaped. -/
theorem escapedByte_of_ne {text : Bytes} (h : text.head? ≠ some (byte '%')) :
    escapedByte text = none := by
  match text with
  | [] | [_] | [_, _] => rfl
  | ch :: _ :: _ :: _ => rw [escapedByte, if_neg (by simpa using h)]

/-- A text without percent and plus signs is decoded to itself. -/
theorem urlDecode_of_plain {path : Bytes} (hne : path ≠ []) (hpercent : byte '%' ∉ path)
    (hplus : byte '+' ∉ path) : urlDecode path = path := by
  have hloop : urlDecodeLoop 0 path = path := by
    refine urlDecodeLoop_eq_self_iff.mpr ⟨hplus, fun text htext => escapedByte_of_ne ?_⟩
    intro hhead
    exact hpercent (htext.subset (List.mem_of_mem_head? hhead))
  rw [urlDecode, hloop, if_neg hne]

/-- **Stored paths are found again.**  `normalizePath` gives a canonical path and leaves it as it
is, so the path of every entry that `buildIndex` stores leads back to its key.
SRCLINE: TorrentSession.cpp:164-220 -/
theorem storedPaths_found (files : List TorrentFileRecord) :
    (∀ path, Normalized (normalizePath path) ∧
      normalizePath (normalizePath path) = normalizePath path) ∧
    ∀ entry, Stored (buildIndex files) entry → FoundAgain (buildIndex files) entry.virtualPath := by
  refine ⟨fun path => ⟨normalizePath_normalized path, normalizePath_idem path⟩, fun entry h => ?_⟩
  have hnormalized := normalized_of_stored h
  have hfixed := normalizePath_of_normalized hnormalized
  obtain ⟨found, hfound, hpath⟩ := entries_of_stored h
  refine ⟨hfixed, ⟨found, hfound, hpath, ?_⟩, ?_, ?_⟩
  · rw [lookup, hfixed, hfound]
  · rw [listDirectory, hfixed]
  · intro hpercent hplus line htarget
    have hne : entry.virtualPath ≠ [] := by
      rw [hnormalized.eq_cons]
      exact List.cons_ne_nil _ _
    have hdecoded := urlDecode_of_plain hne hpercent hplus
    rw [entryFor, htarget, hdecoded, lookup, hfixed]
    exact ⟨rfl, rfl⟩

/-- The directory of a torrent with the file `a\x` is found again. -/
theorem storedPaths_found_directory :
    FoundAgain (buildIndex [⟨bytes "a\\x", 1, 0⟩]) (bytes "/a") := by
  have hstored : Stored (buildIndex [⟨bytes "a\\x", 1, 0⟩]) (dirEntry (bytes "/a")) :=
    Or.inl ⟨bytes "/a", by decide +kernel⟩
  exact (storedPaths_found _).2 _ hstored

end Vtfs.Analysis
