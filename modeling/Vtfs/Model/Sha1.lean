import Vtfs.Library.BigEndian
import Mathlib.Logic.Function.Iterate

/-!
# The SHA-1 class

The object holds the five state words, a 64-byte buffer with the count of bytes in use, and the
length so far in bits.  Bytes of the buffer past the count are stale: they stay from earlier
blocks and are overwritten before the buffer is processed.
-/

set_option autoImplicit false

namespace Vtfs.Model

open Vtfs.Library
open Vtfs.Library.BigEndian (byteOfWord32 byteOfWord64 wordOfBytes)

/-- Five 32-bit words: the state `state_`, and the working variables `a` to `e`. -/
@[ext] structure Sha1Words where
  a : UInt32
  b : UInt32
  c : UInt32
  d : UInt32
  e : UInt32
  deriving DecidableEq

/-- The object. -/
structure Sha1 where
  state : Sha1Words
  buffer : Bytes
  bitCount : UInt64
  bufferSize : ℕ

/-! ## One block -/

/-- A rotation to the left.
SRCLINE: Sha1.cpp:10-12 -/
def leftRotate (value bits : UInt32) : UInt32 := (value <<< bits) ||| (value >>> (32 - bits))

/-- The first sixteen of `words`, from the bytes of the block. -/
def blockWords (block : Bytes) : List UInt32 :=
  (List.range 16).map fun i =>
    wordOfBytes (block.getD (i * 4) 0) (block.getD (i * 4 + 1) 0) (block.getD (i * 4 + 2) 0)
      (block.getD (i * 4 + 3) 0)

/-- `words[i]` from the words before it. -/
def nextWord (words : List UInt32) (i : ℕ) : UInt32 :=
  leftRotate (words.getD (i - 3) 0 ^^^ words.getD (i - 8) 0 ^^^ words.getD (i - 14) 0 ^^^
    words.getD (i - 16) 0) 1

/-- All eighty of `words`. -/
def words (block : Bytes) : List UInt32 :=
  (List.range' 16 64).foldl (fun soFar i => soFar ++ [nextWord soFar i]) (blockWords block)

/-- The `f` and the `k` of a round. -/
def roundFunction (i : ℕ) (b c d : UInt32) : UInt32 × UInt32 :=
  if i < 20 then ((b &&& c) ||| (~~~b &&& d), 0x5A827999)
  else if i < 40 then (b ^^^ c ^^^ d, 0x6ED9EBA1)
  else if i < 60 then ((b &&& c) ||| (b &&& d) ||| (c &&& d), 0x8F1BBCDC)
  else (b ^^^ c ^^^ d, 0xCA62C1D6)

/-- One round on the working variables. -/
def roundStep (words : List UInt32) (v : Sha1Words) (i : ℕ) : Sha1Words :=
  let (f, k) := roundFunction i v.b v.c v.d
  let temp := leftRotate v.a 5 + f + v.e + k + words.getD i 0
  { a := temp, b := v.a, c := leftRotate v.b 30, d := v.c, e := v.d }

/-- A block is mixed into the state.
SRCLINE: Sha1.cpp:79-126 -/
def processBlock (state : Sha1Words) (block : Bytes) : Sha1Words :=
  let v := (List.range 80).foldl (roundStep (words block)) state
  { a := state.a + v.a, b := state.b + v.b, c := state.c + v.c, d := state.d + v.d,
    e := state.e + v.e }

namespace Sha1

/-- The constructor.
SRCLINE: Sha1.cpp:15 -/
def initial : Sha1 where
  state := ⟨0x67452301, 0xEFCDAB89, 0x98BADCFE, 0x10325476, 0xC3D2E1F0⟩
  buffer := List.replicate 64 0
  bitCount := 0
  bufferSize := 0

/-- `std::memcpy` of a chunk behind the bytes in use. -/
def copy (s : Sha1) (chunk : Bytes) : Sha1 :=
  { s with
    buffer := s.buffer.take s.bufferSize ++ chunk ++ s.buffer.drop (s.bufferSize + chunk.length)
    bufferSize := s.bufferSize + chunk.length }

/-- The buffer is processed and emptied. -/
def flush (s : Sha1) : Sha1 :=
  { s with state := processBlock s.state s.buffer, bufferSize := 0 }

/-- A flush takes the block into the state. -/
@[simp] theorem flush_state (s : Sha1) : s.flush.state = processBlock s.state s.buffer := rfl

/-- A flush leaves the bytes of the buffer as they are. -/
@[simp] theorem flush_buffer (s : Sha1) : s.flush.buffer = s.buffer := by cases s; rfl

/-- A flush does not count. -/
@[simp] theorem flush_bitCount (s : Sha1) : s.flush.bitCount = s.bitCount := by cases s; rfl

/-- After a flush the buffer is empty. -/
@[simp] theorem flush_bufferSize (s : Sha1) : s.flush.bufferSize = 0 := rfl

/-- The loop of `update`.  Every round takes at least one byte, so as many rounds as there are
bytes are enough. -/
def updateLoop : ℕ → Sha1 → Bytes → Sha1
  | 0, s, _ => s
  | rounds + 1, s, data =>
      if data.length = 0 then s
      else
        let chunk := min data.length (64 - s.bufferSize)
        let copied := s.copy (data.take chunk)
        updateLoop rounds (if copied.bufferSize = 64 then copied.flush else copied)
          (data.drop chunk)

/-- More bytes of the message.
SRCLINE: Sha1.cpp:17-30 -/
def update (s : Sha1) (data : Bytes) : Sha1 :=
  updateLoop data.length { s with bitCount := s.bitCount + UInt64.ofNat data.length * 8 } data

/-- `buffer_[bufferSize_++] = b`. -/
def put (s : Sha1) (b : UInt8) : Sha1 :=
  { s with buffer := s.buffer.set s.bufferSize b, bufferSize := s.bufferSize + 1 }

/-- `while (bufferSize_ < limit) buffer_[bufferSize_++] = 0;` -/
def zeroFill (limit : ℕ) (s : Sha1) : Sha1 := (fun t => t.put 0)^[limit - s.bufferSize] s

/-- The end of the message: the marker, zeros and the length fill the last one or two blocks. -/
def finish (s : Sha1) : Sha1 :=
  let marked := s.put 0x80
  let room := if 56 < marked.bufferSize then (marked.zeroFill 64).flush else marked
  let padded := room.zeroFill 56
  ([7, 6, 5, 4, 3, 2, 1, 0].foldl (fun t i => t.put (byteOfWord64 t.bitCount i)) padded).flush

/-- The four bytes of a state word. -/
def wordBytes (w : UInt32) : Bytes :=
  [byteOfWord32 w 3, byteOfWord32 w 2, byteOfWord32 w 1, byteOfWord32 w 0]

/-- The digest, and the object after it.
SRCLINE: Sha1.cpp:36-62 -/
def final (s : Sha1) : Bytes × Sha1 :=
  let t := s.finish
  (wordBytes t.state.a ++ wordBytes t.state.b ++ wordBytes t.state.c ++ wordBytes t.state.d ++
    wordBytes t.state.e, t)

/-- The digest of a text.
SRCLINE: Sha1.cpp:64-68 -/
def digest (text : Bytes) : Bytes := (initial.update text).final.1

/-- A lower-case hexadecimal digit. -/
def hexDigit (n : ℕ) : UInt8 := if n < 10 then UInt8.ofNat (48 + n) else UInt8.ofNat (87 + n)

/-- The lower-case hexadecimal text of a digest.
SRCLINE: Sha1.cpp:70-77 -/
def toHex (digestBytes : Bytes) : Bytes :=
  digestBytes.flatMap fun b => [hexDigit (b.toNat / 16), hexDigit (b.toNat % 16)]

end Sha1

end Vtfs.Model
