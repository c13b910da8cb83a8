import Vtfs.Analysis.MetadataLoading
import Vtfs.Analysis.Sha1Streaming
import Vtfs.Model.TorrentEngine

/-!
# Pieces that are verified

The hashes of a torrent are the complete groups of 20 bytes of its `pieces` text, and the class
computes SHA-1, so `verifyPiece` accepts data exactly where the standard's digest of it stands in
the file.
-/

set_option autoImplicit false

namespace Vtfs.Analysis

open Vtfs.Library
open Vtfs.Model
open Vtfs.Interface

/-- The text under `pieces` in a parsed torrent. -/
def piecesTextOf : BencodeValue → Option Bytes
  | .dictionary entries =>
      match SortedMap.find entries (bytes "info") with
      | some (.dictionary info) =>
          match SortedMap.find info (bytes "pieces") with
          | some (.string pieces) => some pieces
          | _ => none
      | _ => none
  | _ => none

/-- The hashes are the blocks of 20 bytes of the text. -/
theorem pieceHashes_of_metadataOf {root : BencodeValue} {pieces : Bytes}
    {metadata : TorrentMetadata} (h : metadataOf root = .ok metadata)
    (htext : piecesTextOf root = some pieces) : metadata.pieceHashes = blocksOf 20 pieces := by
  cases root with
  | dictionary entries =>
      obtain ⟨infoValue, hinfo, hfields⟩ := except_bind_eq_ok_iff.mp h
      rw [requireKey_eq_ok_iff] at hinfo
      cases infoValue with
      | dictionary info =>
          obtain ⟨nameValue, -, hfields⟩ := except_bind_eq_ok_iff.mp hfields
          obtain ⟨name, -, hfields⟩ := except_bind_eq_ok_iff.mp hfields
          obtain ⟨lengthValue, -, hfields⟩ := except_bind_eq_ok_iff.mp hfields
          obtain ⟨pieceLength, -, hfields⟩ := except_bind_eq_ok_iff.mp hfields
          obtain ⟨piecesValue, hpieces, hfields⟩ := except_bind_eq_ok_iff.mp hfields
          obtain ⟨piecesRaw, hpiecesRaw, hfields⟩ := except_bind_eq_ok_iff.mp hfields
          obtain ⟨⟨totalSize, files⟩, -, hresult⟩ := except_bind_eq_ok_iff.mp hfields
          obtain rfl := Except.ok.inj hresult
          rw [requireKey_eq_ok_iff] at hpieces
          rw [asString_eq_ok_iff] at hpiecesRaw
          simp only [piecesTextOf, hinfo, hpieces, hpiecesRaw, Option.some.injEq] at htext
          simp only [blocksOf, ← htext, Nat.mul_comm 20]
      | _ => cases hfields
  | _ => cases h

/-- **What `verifyPiece` accepts.**  The file has the digests of its pieces one after the other,
with less than one more behind them.  Data is accepted at an index when its SHA-1 digest stands
there, whatever its length, and nothing is accepted at any other index.
SRCLINE: TorrentEngine.cpp:101-109, TorrentMetadata.cpp:62-67, Sha1.cpp:17-62 -/
theorem verifyPiece_iff {raw : StringView} {root : BencodeValue} {metadata : TorrentMetadata}
    {digests : List Bytes} {rest : Bytes} (h : Accepts raw metadata) (hroot : Parses raw root)
    (htext : piecesTextOf root = some (digests.flatten ++ rest))
    (hdigests : ∀ digest ∈ digests, digest.length = 20) (hrest : rest.length < 20)
    {engine : TorrentEngine} (hengine : engine.metadata = metadata) (pieceIndex : ℕ)
    (pieceData : Bytes) :
    engine.verifyPiece pieceIndex pieceData = true ↔
      digests[pieceIndex]? = some (Sha1Standard.sha1 pieceData) := by
  obtain ⟨parsed, hparsed, hmetadata⟩ := accepts_iff.mp h
  obtain rfl := parses_unique hparsed hroot
  have hhashes := pieceHashes_of_metadataOf hmetadata htext
  rw [blocksOf_append (by decide) hdigests hrest] at hhashes
  have hdigest : (Sha1.initial.update pieceData).final.1 = Sha1Standard.sha1 pieceData :=
    digest_eq_sha1 pieceData
  unfold TorrentEngine.verifyPiece
  rw [hdigest, hengine, hhashes]
  cases digests[pieceIndex]? with
  | none => simp
  | some digest => simp [eq_comm]

/-- The digest of `abc`. -/
def abcDigest : Bytes :=
  [0xa9, 0x99, 0x3e, 0x36, 0x47, 0x06, 0x81, 0x6a, 0xba, 0x3e, 0x25, 0x71, 0x78, 0x50, 0xc2, 0x6c,
    0x9c, 0xd0, 0xd8, 0x9d]

/-- A torrent with the file `abc`. -/
def abcTorrent : StringView :=
  ⟨bytes "d4:infod6:lengthi3e4:name1:a12:piece lengthi4e6:pieces20:" ++ abcDigest ++ bytes "ee",
    by decide⟩

/-- The three bytes are accepted as its piece. -/
theorem verifyPiece_iff_abc : ∃ metadata, Accepts abcTorrent metadata ∧
    (TorrentEngine.create metadata).verifyPiece 0 (bytes "abc") = true := by
  have hloads : (loadFromFile "" (some abcTorrent) 80).value?.isSome := by decide +kernel
  have hread : (parse abcTorrent 80).value?.map piecesTextOf = some (some abcDigest) := by
    decide +kernel
  obtain ⟨root, metadata, hroot, haccepts, htext⟩ := exists_parses_of piecesTextOf 80 hread hloads
  have hdigest : Sha1Standard.sha1 (bytes "abc") = abcDigest := by
    rw [← digest_eq_sha1]
    decide +kernel
  have hverify := @verifyPiece_iff abcTorrent root metadata [abcDigest] [] haccepts hroot htext
    (by decide) (by decide) (TorrentEngine.create metadata) rfl 0 (bytes "abc")
  rw [hdigest] at hverify
  exact ⟨metadata, haccepts, hverify.mpr rfl⟩

end Vtfs.Analysis
