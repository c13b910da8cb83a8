import Vtfs.Interface.StreamRequests

/-!
# The address of a block

A block is asked for by a piece, a place in it and a length, all of 32 bits.  `Addresses` is what
such a block has to be for a position of the torrent.  `Addressable` is the condition on the
position and the piece length, over the naturals, under which the arithmetic of 32 bits gives it.
-/

set_option autoImplicit false

namespace Vtfs.Interface

open Vtfs.Library
open Vtfs.Model

/-- The integer that a torrent gives as its piece length. -/
def pieceLengthGiven : BencodeValue → Option Int64
  | .dictionary root =>
      match SortedMap.find root (bytes "info") with
      | some (.dictionary info) =>
          match SortedMap.find info (bytes "piece length") with
          | some (.integer length) => some length
          | _ => none
      | _ => none
  | _ => none

/-- In the states that the engine reaches, the divisor is not zero when there is a peer and a
request, and no call of `pumpOnce` divides by zero. -/
structure NeverDividesByZero (metadata : TorrentMetadata) : Prop where
  divisor : ∀ engine, Reachable nextEngine anyAction (TorrentEngine.create metadata) engine →
    engine.peerConnection ≠ none → engine.requests ≠ [] →
      engine.metadata.pieceLength.toUInt32 ≠ 0
  division : ∀ engine, Reachable nextEngine anyAction (TorrentEngine.create metadata) engine →
    ∀ announced network, engine.pumpOnce announced network ≠ .error .divisionByZero

/-- The block starts at the position, in a piece of the torrent, is not empty, and ends inside
that piece and inside the torrent. -/
structure Addresses (metadata : TorrentMetadata) (block : TorrentEngine.Block) (first : ℕ) :
    Prop where
  position : block.pieceIndex.toNat * metadata.pieceLength.toNat + block.pieceOffset.toNat = first
  piece : block.pieceIndex.toNat < metadata.pieceCount
  nonempty : 0 < block.length.toNat
  inPiece : block.pieceOffset.toNat + block.length.toNat ≤ metadata.pieceLength.toNat
  inTorrent : block.pieceIndex.toNat * metadata.pieceLength.toNat + block.pieceOffset.toNat +
    block.length.toNat ≤ metadata.totalSize.toNat

/-- The bytes from `first` on, `count` of them, are in one piece and inside the torrent, and the
number of the piece and the place in it come out of the division by the piece length modulo
`2 ^ 32`. -/
structure Addressable (metadata : TorrentMetadata) (first count : ℕ) : Prop where
  nonempty : 0 < count
  samePiece : first % metadata.pieceLength.toNat + count ≤ metadata.pieceLength.toNat
  piece : first / metadata.pieceLength.toNat < metadata.pieceCount
  inTorrent : first + count ≤ metadata.totalSize.toNat
  small : first / metadata.pieceLength.toNat < 2 ^ 32
  -- for a piece length below `2 ^ 32` nothing more is asked
  early : first % metadata.pieceLength.toNat < metadata.pieceLength.toNat % 2 ^ 32
  even : metadata.pieceLength.toNat % 2 ^ 32 ∣
    first / metadata.pieceLength.toNat * (metadata.pieceLength.toNat / 2 ^ 32)

/-- The number of bytes that are asked for at once. -/
def blockLength (request : StreamRequest) : ℕ := min request.length.toNat (16 * 1024)

end Vtfs.Interface
