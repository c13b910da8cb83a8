import Vtfs.Library.BigEndian
import Vtfs.Library.BlockStream

/-!
# The Secure Hash Standard's SHA-1

SHA-1 as FIPS 180-4 defines it, for messages that are byte strings: the functions of sections
3.2 and 4.1.1, the constants of 4.2.1, the padding of 5.1.1, the initial value of 5.3.1 and the
computation of 6.1.2.  Nothing here is taken from the program.
-/

set_option autoImplicit false

namespace Vtfs.Interface.Sha1Standard

open Vtfs.Library
open Vtfs.Library.BigEndian (bigEndian fromBigEndian)

/-- A word is a 32-bit string; words are added modulo `2 ^ 32`. -/
abbrev Word := UInt32

/-- Rotation to the left by `n` bits. -/
def ROTL (n x : Word) : Word := (x <<< n) ||| (x >>> (32 - n))

/-- Choice. -/
def Ch (x y z : Word) : Word := (x &&& y) ^^^ (~~~x &&& z)

/-- Parity. -/
def Parity (x y z : Word) : Word := x ^^^ y ^^^ z

/-- Majority. -/
def Maj (x y z : Word) : Word := (x &&& y) ^^^ (x &&& z) ^^^ (y &&& z)

/-- The logical function of step `t`. -/
def f (t : ℕ) (x y z : Word) : Word :=
  if t ≤ 19 then Ch x y z
  else if t ≤ 39 then Parity x y z
  else if t ≤ 59 then Maj x y z
  else Parity x y z

/-- The constant of step `t`. -/
def K (t : ℕ) : Word :=
  if t ≤ 19 then 0x5a827999
  else if t ≤ 39 then 0x6ed9eba1
  else if t ≤ 59 then 0x8f1bbcdc
  else 0xca62c1d6

/-- Word `t` of a message block. -/
def M (block : Bytes) (t : ℕ) : Word :=
  UInt32.ofNat (fromBigEndian ((block.drop (4 * t)).take 4))

/-- The message schedule. -/
def W (block : Bytes) (t : ℕ) : Word :=
  if t < 16 then M block t
  else ROTL 1 (W block (t - 3) ^^^ W block (t - 8) ^^^ W block (t - 14) ^^^ W block (t - 16))
termination_by t

/-- A hash value, and the working variables `a` to `e`. -/
structure Hash where
  h0 : Word
  h1 : Word
  h2 : Word
  h3 : Word
  h4 : Word

/-- The initial hash value. -/
def H0 : Hash := ⟨0x67452301, 0xefcdab89, 0x98badcfe, 0x10325476, 0xc3d2e1f0⟩

/-- Step `t` on the working variables. -/
def step (block : Bytes) (v : Hash) (t : ℕ) : Hash where
  h0 := ROTL 5 v.h0 + f t v.h1 v.h2 v.h3 + v.h4 + K t + W block t
  h1 := v.h0
  h2 := ROTL 30 v.h1
  h3 := v.h2
  h4 := v.h3

/-- The next intermediate hash value. -/
def compress (H : Hash) (block : Bytes) : Hash :=
  let v := (List.range 80).foldl (step block) H
  ⟨v.h0 + H.h0, v.h1 + H.h1, v.h2 + H.h2, v.h3 + H.h3, v.h4 + H.h4⟩

/-- The number of zero bits after the one bit, for a message of `l` bits. -/
def zeroBits (l : ℕ) : ℕ := (959 - l % 512) % 512

/-- The padding of a message: a one bit, zero bits, and the length in bits in 64 bits. -/
def padding (message : Bytes) : Bytes :=
  0x80 :: (List.replicate ((zeroBits (8 * message.length) - 7) / 8) 0 ++
    bigEndian 8 (8 * message.length))

/-- The digest. -/
def sha1 (message : Bytes) : Bytes :=
  let H := (blocksOf 64 (message ++ padding message)).foldl compress H0
  bigEndian 4 H.h0.toNat ++ bigEndian 4 H.h1.toNat ++ bigEndian 4 H.h2.toNat ++
    bigEndian 4 H.h3.toNat ++ bigEndian 4 H.h4.toNat

/-- `zeroBits` is the least count that brings the padded length to 448 modulo 512. -/
theorem zeroBits_least (l : ℕ) :
    (l + 1 + zeroBits l) % 512 = 448 ∧ ∀ k, (l + 1 + k) % 512 = 448 → zeroBits l ≤ k := by
  unfold zeroBits
  refine ⟨by omega, fun k hk => by omega⟩

end Vtfs.Interface.Sha1Standard
