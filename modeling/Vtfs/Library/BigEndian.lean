import Vtfs.Library.Bytes
import Mathlib.Data.Nat.Bitwise
import Mathlib.Tactic.Ring

/-!
# Big-endian numbers

`bigEndian count n` is the text of `n` in `count` bytes, most significant first, and
`fromBigEndian` reads such a text.  Code that shifts and masks machine words computes the same
bytes and the same numbers (`byteOfWord32_eq`, `byteOfWord64_eq`, `wordOfBytes_toNat`).
-/

set_option autoImplicit false

namespace Vtfs.Library.BigEndian

/-- The last `count` base-256 digits of a number, most significant first. -/
def bigEndian (count n : ℕ) : Bytes :=
  (List.range count).map fun i => UInt8.ofNat (n / 256 ^ (count - 1 - i))

/-- The number a text stands for. -/
def fromBigEndian (text : Bytes) : ℕ := text.foldl (fun acc c => 256 * acc + c.toNat) 0

/-- A number in `count` bytes takes `count` bytes. -/
@[simp] theorem length_bigEndian (count n : ℕ) : (bigEndian count n).length = count := by
  simp [bigEndian]

/-! ## Shifts and masks of machine words -/

/-- The byte of a 32-bit word that lies `8 * i` bits above the lowest. -/
def byteOfWord32 (w : UInt32) (i : ℕ) : UInt8 := ((w >>> UInt32.ofNat (i * 8)) &&& 0xFF).toUInt8

/-- The byte of a 64-bit word that lies `8 * i` bits above the lowest. -/
def byteOfWord64 (w : UInt64) (i : ℕ) : UInt8 := ((w >>> UInt64.ofNat (i * 8)) &&& 0xFF).toUInt8

/-- The 32-bit word of four bytes, by shifts. -/
def wordOfBytes (b0 b1 b2 b3 : UInt8) : UInt32 :=
  (b0.toUInt32 <<< 24) ||| (b1.toUInt32 <<< 16) ||| (b2.toUInt32 <<< 8) ||| b3.toUInt32

/-- Shifting a word and cutting it to a byte gives the digit to base 256. -/
theorem byteOfWord32_eq (w : UInt32) {i : ℕ} (hi : i < 4) :
    byteOfWord32 w i = UInt8.ofNat (w.toNat / 256 ^ i) := by
  apply UInt8.toNat_inj.mp
  have hmask : ∀ n : ℕ, n &&& 255 = n % 2 ^ 8 := fun n => Nat.and_two_pow_sub_one_eq_mod n 8
  have hpow : (2 : ℕ) ^ (i * 8) = 256 ^ i := by rw [Nat.mul_comm, Nat.pow_mul]
  have hshift : i * 8 % 32 = i * 8 := by omega
  simp [byteOfWord32, UInt32.toNat_shiftRight, hshift, Nat.shiftRight_eq_div_pow, hpow, hmask]

/-- So it is with a word of 64 bits. -/
theorem byteOfWord64_eq (w : UInt64) {i : ℕ} (hi : i < 8) :
    byteOfWord64 w i = UInt8.ofNat (w.toNat / 256 ^ i) := by
  apply UInt8.toNat_inj.mp
  have hmask : ∀ n : ℕ, n &&& 255 = n % 2 ^ 8 := fun n => Nat.and_two_pow_sub_one_eq_mod n 8
  have hpow : (2 : ℕ) ^ (i * 8) = 256 ^ i := by rw [Nat.mul_comm, Nat.pow_mul]
  have hshift : i * 8 % 64 = i * 8 := by omega
  simp [byteOfWord64, UInt64.toNat_shiftRight, hshift, Nat.shiftRight_eq_div_pow, hpow, hmask]

/-- A multiple of `2 ^ k` and a number below it have no bit in common. -/
theorem or_eq_add_of_dvd {a b k : ℕ} (ha : 2 ^ k ∣ a) (hb : b < 2 ^ k) : a ||| b = a + b := by
  obtain ⟨c, rfl⟩ := ha
  rw [Nat.mul_comm, ← Nat.shiftLeft_eq, Nat.shiftLeft_add_eq_or_of_lt hb]

/-- The shifts put the bytes together, most significant first. -/
theorem wordOfBytes_toNat (b0 b1 b2 b3 : UInt8) :
    (wordOfBytes b0 b1 b2 b3).toNat = fromBigEndian [b0, b1, b2, b3] := by
  have h0 := b0.toNat_lt
  have h1 := b1.toNat_lt
  have h2 := b2.toNat_lt
  have h3 := b3.toNat_lt
  have hor : b0.toNat * 2 ^ 24 ||| b1.toNat * 2 ^ 16 ||| b2.toNat * 2 ^ 8 ||| b3.toNat =
      b0.toNat * 2 ^ 24 + b1.toNat * 2 ^ 16 + b2.toNat * 2 ^ 8 + b3.toNat := by
    have hfirst : b0.toNat * 2 ^ 24 ||| b1.toNat * 2 ^ 16 =
        b0.toNat * 2 ^ 24 + b1.toNat * 2 ^ 16 :=
      or_eq_add_of_dvd (Nat.dvd_mul_left (2 ^ 24) _) (by omega)
    have hsecond : b0.toNat * 2 ^ 24 + b1.toNat * 2 ^ 16 ||| b2.toNat * 2 ^ 8 =
        b0.toNat * 2 ^ 24 + b1.toNat * 2 ^ 16 + b2.toNat * 2 ^ 8 :=
      or_eq_add_of_dvd (k := 16) (by omega) (by omega)
    rw [hfirst, hsecond, or_eq_add_of_dvd (k := 8) (by omega) (by omega)]
  have hleft : (wordOfBytes b0 b1 b2 b3).toNat =
      b0.toNat * 2 ^ 24 ||| b1.toNat * 2 ^ 16 ||| b2.toNat * 2 ^ 8 ||| b3.toNat := by
    have hs0 : b0.toNat * 2 ^ 24 % 2 ^ 32 = b0.toNat * 2 ^ 24 := Nat.mod_eq_of_lt (by omega)
    have hs1 : b1.toNat * 2 ^ 16 % 2 ^ 32 = b1.toNat * 2 ^ 16 := Nat.mod_eq_of_lt (by omega)
    have hs2 : b2.toNat * 2 ^ 8 % 2 ^ 32 = b2.toNat * 2 ^ 8 := Nat.mod_eq_of_lt (by omega)
    simp only [wordOfBytes, UInt32.toNat_or, UInt32.toNat_shiftLeft, UInt8.toNat_toUInt32,
      UInt32.reduceToNat, Nat.shiftLeft_eq, Nat.reduceMod, hs0, hs1, hs2]
  rw [hleft, hor]
  simp only [fromBigEndian, List.foldl_cons, List.foldl_nil]
  ring

/-- The four bytes of a 32-bit word, most significant first. -/
def bytesOfWord (w : UInt32) : Bytes :=
  [byteOfWord32 w 3, byteOfWord32 w 2, byteOfWord32 w 1, byteOfWord32 w 0]

/-- A word takes four bytes. -/
@[simp] theorem length_bytesOfWord (w : UInt32) : (bytesOfWord w).length = 4 := rfl

/-- Putting the bytes of a word together gives the word. -/
theorem wordOfBytes_byteOfWord32 (w : UInt32) :
    wordOfBytes (byteOfWord32 w 3) (byteOfWord32 w 2) (byteOfWord32 w 1) (byteOfWord32 w 0) =
      w := by
  apply UInt32.toNat_inj.mp
  have hlt := w.toNat_lt
  have hbyte : ∀ n : ℕ, (UInt8.ofNat n).toNat = n % 256 := fun n => by simp
  rw [wordOfBytes_toNat, byteOfWord32_eq w (by decide), byteOfWord32_eq w (by decide),
    byteOfWord32_eq w (by decide), byteOfWord32_eq w (by decide)]
  simp only [fromBigEndian, List.foldl_cons, List.foldl_nil, hbyte]
  omega

/-- The bytes of the word that four bytes make are these bytes. -/
theorem bytesOfWord_wordOfBytes (b0 b1 b2 b3 : UInt8) :
    bytesOfWord (wordOfBytes b0 b1 b2 b3) = [b0, b1, b2, b3] := by
  have h0 := b0.toNat_lt
  have h1 := b1.toNat_lt
  have h2 := b2.toNat_lt
  have h3 := b3.toNat_lt
  have hbyte : ∀ (b : UInt8) (n : ℕ), n % 256 = b.toNat → UInt8.ofNat n = b := by
    intro b n hn
    apply UInt8.toNat_inj.mp
    rw [UInt8.toNat_ofNat']
    exact hn
  have hword : (wordOfBytes b0 b1 b2 b3).toNat =
      256 * (256 * (256 * b0.toNat + b1.toNat) + b2.toNat) + b3.toNat := by
    rw [wordOfBytes_toNat]
    simp only [fromBigEndian, List.foldl_cons, List.foldl_nil]
    ring
  rw [bytesOfWord, byteOfWord32_eq _ (by decide), byteOfWord32_eq _ (by decide),
    byteOfWord32_eq _ (by decide), byteOfWord32_eq _ (by decide), hword,
    hbyte b0 _ (by omega), hbyte b1 _ (by omega), hbyte b2 _ (by omega), hbyte b3 _ (by omega)]

end Vtfs.Library.BigEndian
