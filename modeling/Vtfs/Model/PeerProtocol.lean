import Vtfs.Library.BigEndian
import Mathlib.Data.Vector.Defs

/-!
# Handshakes and messages of the peer wire protocol

A frame is a byte vector, which the code indexes without a check.  Every read and every write of
the model is checked instead: one outside the vector is a `Fault`, which the code does not have
(there it is undefined behaviour).
-/

set_option autoImplicit false

namespace Vtfs.Model

open Vtfs.Library
open Vtfs.Library.BigEndian (bytesOfWord wordOfBytes)

/-! ## Handshakes -/

/-- `Handshake`. -/
structure Handshake where
  reserved : List.Vector UInt8 8
  infoHash : List.Vector UInt8 20
  peerId : List.Vector UInt8 20
  deriving DecidableEq

/-- The name of the protocol. -/
def protocol : Bytes := bytes "BitTorrent protocol"

/-- SRCLINE: PeerProtocol.cpp:21-30 -/
def encodeHandshake (handshake : Handshake) : Bytes :=
  UInt8.ofNat protocol.length :: protocol ++ handshake.reserved.toList ++
    handshake.infoHash.toList ++ handshake.peerId.toList

/-- The `count` bytes from `data.data() + first`. -/
def copyRange (data : Bytes) (first count : ℕ) (h : first + count ≤ data.length) :
    List.Vector UInt8 count :=
  ⟨(data.drop first).take count, by rw [List.length_take, List.length_drop]; omega⟩

/-- A received handshake, or `none`.
SRCLINE: PeerProtocol.cpp:32-41 -/
def decodeHandshake (data : Bytes) : Option Handshake :=
  if h : data.length < 68 ∨ data[0]? ≠ some 19 then none
  else
    have hsize : 68 ≤ data.length := not_lt.mp (not_or.mp h).1
    some
      { reserved := copyRange data 20 8 (by omega)
        infoHash := copyRange data 28 20 (by omega)
        peerId := copyRange data 48 20 (by omega) }

/-! ## Messages -/

/-- A message.  Its type is an enumeration over `std::uint8_t`, which can hold any byte; the
named types are 0 to 9 and `keepAlive`. -/
structure PeerMessage where
  type : UInt8
  payload : Bytes
  deriving DecidableEq

/-- `PeerMessage::Type::keepAlive`. -/
def keepAlive : UInt8 := 255

/-- `PeerMessage::Type::interested`. -/
def interested : UInt8 := 2

/-- `PeerMessage::Type::request`. -/
def request : UInt8 := 6

/-- A read or a write at or past the end of a vector. -/
structure Fault where
  index : ℕ
  size : ℕ
  deriving DecidableEq

/-- `data[index]`. -/
def readAt (data : Bytes) (index : ℕ) : Except Fault UInt8 :=
  match data[index]? with
  | some b => .ok b
  | none => .error ⟨index, data.length⟩

/-- The bytes from `data.begin() + first` to `data.begin() + last`. -/
def readRange (data : Bytes) (first last : ℕ) : Except Fault Bytes :=
  if first < last ∧ data.length < last then .error ⟨last - 1, data.length⟩
  else .ok ((data.drop first).take (last - first))

/-- The type and the payload of a frame. -/
def readPayload (data : Bytes) (length : ℕ) : Except Fault (Option PeerMessage) := do
  let type ← readAt data 4
  let payload ← readRange data 5 (4 + length)
  pure (some ⟨type, payload⟩)

/-- A received frame as a message, or `none`.  `length + 4` is a sum of 32-bit numbers.
SRCLINE: PeerProtocol.cpp:59-79 -/
def decodeMessage (data : Bytes) : Except Fault (Option PeerMessage) :=
  if data.length < 4 then .ok none
  else do
    let length := wordOfBytes (← readAt data 0) (← readAt data 1) (← readAt data 2)
      (← readAt data 3)
    if length = 0 then pure (some ⟨keepAlive, []⟩)
    else if data.length < (length + 4).toNat then pure none
    else readPayload data length.toNat

/-- The bytes that the encoder writes, in their order.
SRCLINE: PeerProtocol.cpp:44-55 -/
def messageFrame (message : PeerMessage) : Bytes :=
  if message.type = keepAlive then [0, 0, 0, 0]
  else
    bytesOfWord (1 + message.payload.length).toUInt32 ++ message.type :: message.payload

/-- The frame written to a vector of `size` zeros from its start. -/
def writeFrame (frame : Bytes) (size : ℕ) : Except Fault Bytes :=
  if size < frame.length then .error ⟨size, size⟩
  else .ok (frame ++ List.replicate (size - frame.length) 0)

/-- A message as a frame.  The size of the vector is a sum of 32-bit numbers, so a payload that
leaves less than 5 bytes to `2 ^ 32` is copied past the end of the vector.
SRCLINE: PeerProtocol.cpp:43-57 -/
def encodeMessage (message : PeerMessage) : Except Fault Bytes :=
  if message.type = keepAlive then .ok (messageFrame message)
  else
    let length : UInt32 := (1 + message.payload.length).toUInt32
    writeFrame (messageFrame message) (4 + length).toNat

end Vtfs.Model
