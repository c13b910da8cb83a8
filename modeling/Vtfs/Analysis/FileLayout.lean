import Vtfs.Library.Intervals
import Vtfs.Interface.FileLayout
import Vtfs.Analysis.MetadataLoading
import Mathlib.Algebra.BigOperators.Ring.Finset

/-!
# Where the files lie in the torrent

The loop over the file entries lays the files out in a row, with lengths cast to unsigned numbers
and sums modulo `2 ^ 64` (`filesOf_eq_layOut`).  Over the naturals this is a row without gaps
exactly when no length is negative and the sum stays below `2 ^ 64` (`gapFree_iff`).
-/

set_option autoImplicit false

namespace Vtfs.Analysis

open Vtfs.Library
open Vtfs.Model
open Vtfs.Interface

/-! ## The loop over the file entries -/

/-- Files laid out from an offset on. -/
def layOut (offset : UInt64) : List (Bytes × Int64) → List TorrentFileRecord
  | [] => []
  | part :: rest =>
      ⟨part.1, part.2.toUInt64, offset⟩ :: layOut (offset + part.2.toUInt64) rest

/-- The offset after files of some lengths. -/
def offsetAfter (offset : UInt64) (lengths : List Int64) : UInt64 :=
  lengths.foldl (fun o length => o + length.toUInt64) offset

/-- The length that is read is the one given. -/
theorem lengthGiven_of_reads {dict : BencodeDictionary} {v : BencodeValue} {length : Int64}
    (hkey : requireKey dict "length" = .ok v) (hlength : v.asInteger = .ok length) :
    lengthGiven dict = some length := by
  rw [requireKey_eq_ok_iff] at hkey
  rw [asInteger_eq_ok_iff] at hlength
  rw [lengthGiven, hkey, hlength]

/-- One round: a record at the offset, which moves by the length. -/
theorem addFile_eq_ok {name : Bytes} {offset total : UInt64} {files : List TorrentFileRecord}
    {fileValue : BencodeValue} {after : UInt64 × UInt64 × List TorrentFileRecord}
    (h : addFile name (offset, total, files) fileValue = .ok after) :
    ∃ path length, fileLengthGiven fileValue = some length ∧
      after = (offset + length.toUInt64, total + length.toUInt64,
        files ++ [⟨path, length.toUInt64, offset⟩]) := by
  cases fileValue with
  | dictionary fileDict =>
      obtain ⟨pathValue, -, h⟩ := except_bind_eq_ok_iff.mp h
      obtain ⟨parts, -, h⟩ := except_bind_eq_ok_iff.mp h
      obtain ⟨path, -, h⟩ := except_bind_eq_ok_iff.mp h
      obtain ⟨lengthValue, hkey, h⟩ := except_bind_eq_ok_iff.mp h
      obtain ⟨length, hlength, h⟩ := except_bind_eq_ok_iff.mp h
      exact ⟨_, length, lengthGiven_of_reads hkey hlength, (Except.ok.inj h).symm⟩
  | _ => cases h

/-- The loop over the files lays out the lengths that are given. -/
theorem foldlM_addFile_eq_ok {name : Bytes} {fileValues : List BencodeValue}
    {offset total : UInt64} {files : List TorrentFileRecord}
    {after : UInt64 × UInt64 × List TorrentFileRecord}
    (h : fileValues.foldlM (addFile name) (offset, total, files) = .ok after) :
    ∃ parts : List (Bytes × Int64),
      parts.map (·.2) = fileValues.filterMap fileLengthGiven ∧
        after = (offsetAfter offset (parts.map (·.2)), offsetAfter total (parts.map (·.2)),
          files ++ layOut offset parts) := by
  induction fileValues generalizing offset total files with
  | nil =>
      obtain rfl := Except.ok.inj h
      exact ⟨[], rfl, by simp [offsetAfter, layOut]⟩
  | cons fileValue rest ih =>
      rw [List.foldlM_cons] at h
      obtain ⟨next, hnext, h⟩ := except_bind_eq_ok_iff.mp h
      obtain ⟨path, length, hlength, rfl⟩ := addFile_eq_ok hnext
      obtain ⟨parts, hparts, rfl⟩ := ih h
      refine ⟨(path, length) :: parts, ?_, ?_⟩
      · rw [List.map_cons, hparts, List.filterMap_cons_some hlength]
      · simp [offsetAfter, layOut]

/-- The files of a torrent are laid out from 0 on, with the lengths given. -/
theorem filesOf_eq_layOut {root : BencodeValue} {metadata : TorrentMetadata}
    (h : metadataOf root = .ok metadata) :
    ∃ parts : List (Bytes × Int64), parts.map (·.2) = lengthsGiven root ∧
      metadata.files = layOut 0 parts ∧
        metadata.totalSize = offsetAfter 0 (parts.map (·.2)) := by
  obtain ⟨entries, info, rfl, hinfo, -, -, -, hfiles⟩ := metadataOf_eq_ok h
  simp only [lengthsGiven, hinfo]
  unfold filesOf at hfiles
  split at hfiles
  · rename_i fileValues hlist
    obtain ⟨after, hfold, hfiles⟩ := except_bind_eq_ok_iff.mp hfiles
    obtain ⟨parts, hparts, rfl⟩ := foldlM_addFile_eq_ok hfold
    obtain ⟨htotal, hrecords⟩ := Prod.mk.inj (Except.ok.inj hfiles)
    rw [hlist]
    exact ⟨parts, hparts, hrecords.symm, htotal.symm⟩
  · cases hfiles
  · rename_i hnone
    obtain ⟨lengthValue, hkey, hfiles⟩ := except_bind_eq_ok_iff.mp hfiles
    obtain ⟨length, hlength, hfiles⟩ := except_bind_eq_ok_iff.mp hfiles
    obtain ⟨htotal, hrecords⟩ := Prod.mk.inj (Except.ok.inj hfiles)
    rw [hnone, lengthGiven_of_reads hkey hlength]
    refine ⟨[(metadata.name, length)], rfl, hrecords.symm, ?_⟩
    rw [← htotal]
    simp [offsetAfter]

/-! ## The row over the naturals -/

/-- The place of a file. -/
def placeOf (record : TorrentFileRecord) : ℕ × ℕ := (record.offset.toNat, record.size.toNat)

/-- The layout is without gaps when the sizes are the lengths and the places are a row. -/
theorem gapFree_iff_tiles {lengths : List Int64} {metadata : TorrentMetadata} :
    GapFree lengths metadata ↔
      metadata.files.map (fun record => (record.size.toNat : ℤ)) =
          lengths.map (fun length => length.toInt) ∧
        Tiles 0 (metadata.files.map placeOf) metadata.totalSize.toNat := by
  constructor
  · intro h
    refine ⟨h.sizes, tiles_of_neighbours ?_ ?_ ?_ ?_⟩
    · intro hempty
      exact (h.empty (List.map_eq_nil_iff.mp hempty)).symm
    · intro block hblock
      rw [List.getElem?_map, Option.map_eq_some_iff] at hblock
      obtain ⟨record, hrecord, rfl⟩ := hblock
      exact h.first record hrecord
    · intro i block after hi hafter
      rw [List.getElem?_map, Option.map_eq_some_iff] at hi hafter
      obtain ⟨record, hrecord, rfl⟩ := hi
      obtain ⟨next, hnext, rfl⟩ := hafter
      exact h.next i record next hrecord hnext
    · intro block hblock
      rw [List.getLast?_map, Option.map_eq_some_iff] at hblock
      obtain ⟨record, hrecord, rfl⟩ := hblock
      exact h.last record hrecord
  · rintro ⟨hsizes, htiles⟩
    have hplace : ∀ {i : ℕ} {record : TorrentFileRecord}, metadata.files[i]? = some record →
        (metadata.files.map placeOf)[i]? = some (placeOf record) := by
      intro i record hi
      rw [List.getElem?_map, hi, Option.map_some]
    have hwithin : ∀ record ∈ metadata.files, ∀ position, Occupies record position →
        position < metadata.totalSize.toNat := by
      intro record hrecord position hposition
      exact lt_of_lt_of_le hposition.2 (htiles.within (List.mem_map_of_mem hrecord)).2
    have hdisjoint : ∀ {i j : ℕ} {record other : TorrentFileRecord}, i < j →
        metadata.files[i]? = some record → metadata.files[j]? = some other →
          ∀ position, ¬ (Occupies record position ∧ Occupies other position) := by
      intro i j record other hij hi hj position ⟨hrecord, hother⟩
      have hbefore := htiles.before hij (hplace hi) (hplace hj)
      exact absurd (lt_of_lt_of_le hrecord.2 hbefore) (not_lt.mpr hother.1)
    exact {
      sizes := hsizes
      first := fun record hfirst => htiles.first (hplace hfirst)
      next := fun i record after hi hafter => htiles.next (hplace hi) (hplace hafter)
      last := fun record hlast => htiles.last (by rw [List.getLast?_map, hlast, Option.map_some])
      empty := fun hempty => by
        rw [hempty] at htiles
        exact (tiles_nil.mp htiles).symm
      within := hwithin
      disjoint := fun i j record other hij hi hj position hboth => by
        rcases Nat.lt_or_gt_of_ne hij with hlt | hlt
        · exact hdisjoint hlt hi hj position hboth
        · exact hdisjoint hlt hj hi position hboth.symm }

/-- A length is the size it is cast to when it is not negative. -/
theorem toNat_toUInt64_eq_iff (length : Int64) :
    (length.toUInt64.toNat : ℤ) = length.toInt ↔ 0 ≤ length.toInt := by
  have hlt := length.toUInt64.toBitVec.isLt
  have hbound : length.toUInt64.toNat < 2 ^ 64 := hlt
  rw [toInt_eq_of_toUInt64]
  split <;> omega

/-- The sizes are the lengths given exactly when none is negative. -/
theorem sizes_layOut_iff (offset : UInt64) (parts : List (Bytes × Int64)) :
    ((layOut offset parts).map fun record => (record.size.toNat : ℤ)) =
        (parts.map (·.2)).map (fun length => length.toInt) ↔
      ∀ length ∈ parts.map (·.2), 0 ≤ length.toInt := by
  induction parts generalizing offset with
  | nil => simp [layOut]
  | cons part rest ih =>
      simp only [layOut, List.map_cons, List.cons.injEq, List.forall_mem_cons,
        toNat_toUInt64_eq_iff]
      exact and_congr_right fun _ => ih _

/-- Lengths that fit are laid out in a row. -/
theorem tiles_layOut (offset : UInt64) {parts : List (Bytes × Int64)}
    (hnonneg : ∀ length ∈ parts.map (·.2), 0 ≤ length.toInt)
    (hsum : offset.toNat + ((parts.map (·.2)).map fun length => length.toInt).sum < 2 ^ 64) :
    Tiles offset.toNat ((layOut offset parts).map placeOf)
      (offsetAfter offset (parts.map (·.2))).toNat := by
  induction parts generalizing offset with
  | nil => exact tiles_nil.mpr rfl
  | cons part rest ih =>
      simp only [List.map_cons, List.forall_mem_cons] at hnonneg
      simp only [List.map_cons, List.sum_cons] at hsum
      have hrest : 0 ≤ ((rest.map (·.2)).map fun length => length.toInt).sum := by
        apply List.sum_nonneg
        intro n hn
        obtain ⟨length, hlength, rfl⟩ := List.mem_map.mp hn
        exact hnonneg.2 length hlength
      have hsize := (toNat_toUInt64_eq_iff part.2).mpr hnonneg.1
      -- the sum with this length does not wrap
      have hadd : (offset + part.2.toUInt64).toNat = offset.toNat + part.2.toUInt64.toNat := by
        rw [UInt64.toNat_add, Nat.mod_eq_of_lt]
        omega
      refine tiles_cons.mpr ⟨rfl, ?_⟩
      have htiles := ih (offset + part.2.toUInt64) hnonneg.2 (by rw [hadd]; omega)
      rw [hadd] at htiles
      exact htiles

/-- **The layout of the files.**  The files of an accepted torrent lie one after the other without
a gap if and only if no length is negative and the lengths together are below `2 ^ 64`.
SRCLINE: TorrentMetadata.cpp:70-95 -/
theorem gapFree_iff {raw : StringView} {root : BencodeValue} {metadata : TorrentMetadata}
    (hparses : Parses raw root) (haccepts : Accepts raw metadata) :
    GapFree (lengthsGiven root) metadata ↔ LengthsFit (lengthsGiven root) := by
  obtain ⟨root', hparses', hmetadata⟩ := accepts_iff.mp haccepts
  obtain rfl := parses_unique hparses hparses'
  obtain ⟨parts, hlengths, hfiles, htotal⟩ := filesOf_eq_layOut hmetadata
  rw [gapFree_iff_tiles, hfiles, htotal, ← hlengths, sizes_layOut_iff]
  constructor
  · rintro ⟨hnonneg, htiles⟩
    refine ⟨hnonneg, ?_⟩
    -- the sum of the lengths is where the row ends
    have hsum : ((parts.map (·.2)).map fun length => length.toInt).sum =
        (offsetAfter 0 (parts.map (·.2))).toNat := by
      rw [htiles.stop_eq, ← (sizes_layOut_iff 0 parts).mpr hnonneg, Nat.zero_add,
        Nat.cast_list_sum, List.map_map, List.map_map]
      rfl
    rw [hsum]
    exact_mod_cast (offsetAfter 0 (parts.map (·.2))).toBitVec.isLt
  · rintro ⟨hnonneg, hsum⟩
    exact ⟨hnonneg, tiles_layOut 0 hnonneg (by simpa using hsum)⟩

/-! ## Concrete files -/

/-- A torrent that loads, with the lengths that are given in it. -/
theorem exists_accepts_of_lengths (raw : StringView) (lengths : List Int64) (fuel : ℕ)
    (hlengths : (parse raw fuel).value?.map lengthsGiven = some lengths)
    (hloads : (loadFromFile "" (some raw) fuel).value?.isSome) :
    ∃ root metadata, Parses raw root ∧ Accepts raw metadata ∧ lengthsGiven root = lengths :=
  exists_parses_of lengthsGiven fuel hlengths hloads

/-- A torrent with files of 2 and 3 bytes. -/
def twoFileTorrent : StringView :=
  ⟨bytes "d4:infod5:filesld6:lengthi2e4:pathl1:xeed6:lengthi3e4:pathl1:yeee" ++
    bytes "4:name1:a12:piece lengthi1e6:pieces0:ee", by decide⟩

/-- Two files that lie side by side. -/
theorem gapFree_twoFiles :
    ∃ root metadata, Parses twoFileTorrent root ∧ Accepts twoFileTorrent metadata ∧
      GapFree (lengthsGiven root) metadata := by
  obtain ⟨root, metadata, hparses, haccepts, hlengths⟩ :=
    exists_accepts_of_lengths twoFileTorrent [2, 3] 40
      (by decide +kernel) (by decide +kernel)
  refine ⟨root, metadata, hparses, haccepts, (gapFree_iff hparses haccepts).mpr ?_⟩
  have htwo : (2 : Int64).toInt = 2 := by decide
  have hthree : (3 : Int64).toInt = 3 := by decide
  rw [hlengths]
  constructor
  · simp [htwo, hthree]
  · simp [htwo, hthree]

/-- A torrent with a file of length -1. -/
def negativeLengthTorrent : StringView :=
  ⟨bytes "d4:infod6:lengthi-1e4:name1:a12:piece lengthi1e6:pieces0:ee", by decide⟩

/-- Its file has the size `2 ^ 64 - 1`. -/
theorem gapFree_fails : ¬ ∀ raw root metadata, Parses raw root → Accepts raw metadata →
    GapFree (lengthsGiven root) metadata := by
  intro h
  obtain ⟨root, metadata, hparses, haccepts, hlengths⟩ :=
    exists_accepts_of_lengths negativeLengthTorrent [-1] 40
      (by decide +kernel) (by decide +kernel)
  have hsizes := (h _ root metadata hparses haccepts).sizes
  rw [hlengths, List.map_cons, List.map_nil] at hsizes
  -- a size is not negative
  cases hfiles : metadata.files with
  | nil => simp [hfiles] at hsizes
  | cons record rest =>
      rw [hfiles, List.map_cons, List.cons.injEq] at hsizes
      have hnegative : (-1 : Int64).toInt = -1 := by decide
      omega

end Vtfs.Analysis
