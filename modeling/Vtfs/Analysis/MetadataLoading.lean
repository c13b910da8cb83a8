import Vtfs.Model.TorrentMetadata
import Vtfs.Analysis.BencodeAdequacy
import Mathlib.Algebra.Ring.Int.Defs

/-!
# Which files are accepted as torrents

A file is accepted when it parses and the fields can be taken out of the root dictionary
(`accepts_iff`); the fields of the metadata are then those of the dictionaries
(`metadataOf_eq_ok`).
-/

set_option autoImplicit false

namespace Vtfs.Analysis

open Vtfs.Library
open Vtfs.Model

/-! ## What is accepted -/

/-- A file is accepted when it parses and the metadata can be taken out of the value. -/
theorem accepts_iff {raw : StringView} {metadata : TorrentMetadata} :
    Accepts raw metadata ↔ ∃ root, Parses raw root ∧ metadataOf root = .ok metadata := by
  constructor
  · rintro ⟨path, fuel, s, hload⟩
    simp only [loadFromFile] at hload
    cases hparse : parse raw fuel with
    | value root t =>
        simp only [hparse] at hload
        cases hmetadata : metadataOf root with
        | ok m =>
            simp only [hmetadata, Outcome.value.injEq] at hload
            exact ⟨root, ⟨fuel, t, hparse⟩, by rw [hmetadata, hload.1]⟩
        | error e => simp [hmetadata] at hload
    | thrown e t => simp [hparse] at hload
    | running t => simp [hparse] at hload
  · rintro ⟨root, ⟨fuel, s, hparse⟩, hmetadata⟩
    exact ⟨"", fuel, s, by simp [loadFromFile, hparse, hmetadata]⟩

/-- A key that is required is one that is found. -/
theorem requireKey_eq_ok_iff {dict : BencodeDictionary} {key : String} {v : BencodeValue} :
    requireKey dict key = .ok v ↔ SortedMap.find dict (bytes key) = some v := by
  unfold requireKey
  cases SortedMap.find dict (bytes key) <;> simp

/-- Only a string is taken for one. -/
theorem asString_eq_ok_iff {v : BencodeValue} {text : Bytes} :
    v.asString = .ok text ↔ v = .string text := by
  cases v <;> simp [BencodeValue.asString]

/-- A signed number is the unsigned one of the same bits, or that minus `2 ^ 64`. -/
theorem toInt_eq_of_toUInt64 (a : Int64) : a.toInt =
    if 2 * a.toUInt64.toNat < 2 ^ 64 then (a.toUInt64.toNat : ℤ) else a.toUInt64.toNat - 2 ^ 64 :=
  BitVec.toInt_eq_toNat_cond _

/-- Only an integer is taken for one. -/
theorem asInteger_eq_ok_iff {v : BencodeValue} {n : Int64} :
    v.asInteger = .ok n ↔ v = .integer n := by
  cases v <;> simp [BencodeValue.asInteger]

/-- The parts of accepted metadata: the dictionaries they come from and their fields. -/
theorem metadataOf_eq_ok {root : BencodeValue} {metadata : TorrentMetadata}
    (h : metadataOf root = .ok metadata) :
    ∃ entries info, root = .dictionary entries ∧
      SortedMap.find entries (bytes "info") = some (.dictionary info) ∧
      metadata.infoHashHex = Sha1.toHex (Sha1.digest (encodeBencode (.dictionary info))) ∧
      SortedMap.find info (bytes "name") = some (.string metadata.name) ∧
      (∃ pieceLength, SortedMap.find info (bytes "piece length") = some (.integer pieceLength) ∧
        metadata.pieceLength = pieceLength.toUInt64) ∧
      filesOf metadata.name info = .ok (metadata.totalSize, metadata.files) := by
  cases root with
  | dictionary entries =>
      obtain ⟨infoValue, hinfo, hfields⟩ := except_bind_eq_ok_iff.mp h
      rw [requireKey_eq_ok_iff] at hinfo
      cases infoValue with
      | dictionary info =>
          obtain ⟨nameValue, hnameKey, hfields⟩ := except_bind_eq_ok_iff.mp hfields
          obtain ⟨name, hname, hfields⟩ := except_bind_eq_ok_iff.mp hfields
          obtain ⟨lengthValue, hlengthKey, hfields⟩ := except_bind_eq_ok_iff.mp hfields
          obtain ⟨pieceLength, hlength, hfields⟩ := except_bind_eq_ok_iff.mp hfields
          obtain ⟨piecesValue, -, hfields⟩ := except_bind_eq_ok_iff.mp hfields
          obtain ⟨piecesRaw, -, hfields⟩ := except_bind_eq_ok_iff.mp hfields
          obtain ⟨⟨totalSize, files⟩, hfiles, hresult⟩ := except_bind_eq_ok_iff.mp hfields
          obtain rfl := Except.ok.inj hresult
          rw [requireKey_eq_ok_iff] at hnameKey
          rw [asString_eq_ok_iff] at hname
          rw [requireKey_eq_ok_iff] at hlengthKey
          rw [asInteger_eq_ok_iff] at hlength
          exact ⟨entries, info, rfl, hinfo, rfl, by rw [hnameKey, hname],
            ⟨pieceLength, by rw [hlengthKey, hlength], rfl⟩, hfiles⟩
      | _ => cases hfields
  | _ => cases h

/-! ## Concrete files -/

/-- A torrent is accepted when it loads with some fuel. -/
theorem accepts_of_value? {raw : StringView} {metadata : TorrentMetadata} (fuel : ℕ)
    (h : (loadFromFile "" (some raw) fuel).value? = some metadata) : Accepts raw metadata := by
  obtain ⟨s, hs⟩ := Outcome.value?_eq_some_iff.mp h
  exact ⟨"", fuel, s, hs⟩

/-- What is computed from the metadata of a file, with some fuel, is so of accepted metadata. -/
theorem exists_accepts_of {α : Type} {raw : StringView} {x : α} (f : TorrentMetadata → α)
    (fuel : ℕ) (h : (loadFromFile "" (some raw) fuel).value?.map f = some x) :
    ∃ metadata, Accepts raw metadata ∧ f metadata = x := by
  obtain ⟨metadata, hvalue, hx⟩ := Option.map_eq_some_iff.mp h
  exact ⟨metadata, accepts_of_value? fuel hvalue, hx⟩

/-- A torrent that loads with these files is accepted with them. -/
theorem exists_accepts_of_files {raw : StringView} {files : List TorrentFileRecord} (fuel : ℕ)
    (h : (loadFromFile "" (some raw) fuel).value?.map (·.files) = some files) :
    ∃ metadata, Accepts raw metadata ∧ metadata.files = files :=
  exists_accepts_of (·.files) fuel h

/-- The same for what is computed from the parsed root. -/
theorem exists_parses_of {α : Type} {raw : StringView} {x : α} (f : BencodeValue → α) (fuel : ℕ)
    (hroot : (parse raw fuel).value?.map f = some x)
    (hloads : (loadFromFile "" (some raw) fuel).value?.isSome) :
    ∃ root metadata, Parses raw root ∧ Accepts raw metadata ∧ f root = x := by
  obtain ⟨root, hvalue, hx⟩ := Option.map_eq_some_iff.mp hroot
  obtain ⟨s, hparse⟩ := Outcome.value?_eq_some_iff.mp hvalue
  obtain ⟨metadata, hmetadata⟩ := Option.isSome_iff_exists.mp hloads
  exact ⟨root, metadata, ⟨fuel, s, hparse⟩, accepts_of_value? fuel hmetadata, hx⟩

/-- A torrent with a file of five bytes in one piece. -/
def onePieceTorrent : StringView :=
  ⟨bytes "d4:infod6:lengthi5e4:name1:a12:piece lengthi8e6:pieces0:ee", by decide⟩

/-- Its metadata. -/
def onePieceMetadata : TorrentMetadata where
  name := bytes "a"
  infoHashHex := bytes "b72c487846b6a04395b575310830816262bc1ccc"
  announceUrl := []
  totalSize := 5
  pieceLength := 8
  pieceCount := 0
  pieceHashes := []
  files := [⟨bytes "a", 5, 0⟩]

/-- The torrent of one piece loads. -/
theorem accepts_onePieceTorrent : Accepts onePieceTorrent onePieceMetadata :=
  accepts_of_value? 40 (by decide +kernel)

end Vtfs.Analysis
