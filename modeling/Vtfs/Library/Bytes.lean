import Mathlib.Data.List.Basic
import Mathlib.Data.List.TakeWhile
import Mathlib.Order.Lattice

/-!
# Byte strings

A C++ `std::string` or `std::vector<std::uint8_t>` is a list of bytes.  This file has the
character constants, the smaller of two machine numbers, the scan up to a stop byte (`upTo`), with
the equations its callers rewrite with, and what is known at a position from what is left of the
text there.
-/

set_option autoImplicit false

namespace Vtfs.Library

/-- A string of unsigned bytes. -/
abbrev Bytes := List UInt8

/-- The byte of an ASCII character. -/
def byte (c : Char) : UInt8 := c.toNat.toUInt8

/-- The bytes of an ASCII text. -/
def bytes (text : String) : Bytes := text.toList.map byte

/-- Bytes are ordered as unsigned numbers, the order of `std::string` comparison. -/
instance byteLinearOrder : LinearOrder UInt8 where
  le_refl := UInt8.le_refl
  le_trans _ _ _ := UInt8.le_trans
  lt_iff_le_not_ge a b := by simp only [UInt8.le_iff_toNat_le, UInt8.lt_iff_toNat_lt]; omega
  le_antisymm _ _ := UInt8.le_antisymm
  le_total := UInt8.le_total
  toDecidableLE := inferInstance

/-- Texts are compared byte by byte. -/
instance lawfulBEqBytes : LawfulBEq Bytes := inferInstance

/-- The smaller of two machine numbers is that of the naturals. -/
theorem toNat_minOfLe {α : Type} [LE α] [DecidableLE α] {toNat : α → ℕ}
    (hle : ∀ a b : α, a ≤ b ↔ toNat a ≤ toNat b) (a b : α) :
    toNat (minOfLe.min a b) = min (toNat a) (toNat b) := by
  have hif : minOfLe.min a b = if a ≤ b then a else b := rfl
  rw [hif, Nat.min_def, apply_ite toNat]
  exact if_congr (hle a b) rfl rfl

/-- The smaller of two words is the smaller of the numbers. -/
theorem toNat_min_uInt32 (a b : UInt32) : (min a b).toNat = min a.toNat b.toNat :=
  toNat_minOfLe (fun _ _ => UInt32.le_iff_toNat_le) a b

/-- So it is with 64 bits. -/
theorem toNat_min_uInt64 (a b : UInt64) : (min a b).toNat = min a.toNat b.toNat :=
  toNat_minOfLe (fun _ _ => UInt64.le_iff_toNat_le) a b

section Scan

variable {α : Type} [DecidableEq α]

/-- The items before the first `stop`, or all of them. -/
def upTo (stop : α) (text : List α) : List α := text.takeWhile (· ≠ stop)

/-- What comes before the first stop has no stop in it. -/
theorem stop_not_mem_upTo (stop : α) (text : List α) : stop ∉ upTo stop text := by
  intro hmem
  simpa using List.mem_takeWhile_imp hmem

/-- With a stop in it, a text is what comes before the first one, the stop, and a rest. -/
theorem exists_upTo_append {stop : α} {text : List α} (h : stop ∈ text) :
    ∃ rest, text = upTo stop text ++ stop :: rest := by
  induction text with
  | nil => simp at h
  | cons c cs ih =>
      by_cases hc : c = stop
      · exact ⟨cs, by simp [upTo, hc]⟩
      · obtain ⟨rest, hrest⟩ := ih (by simpa [Ne.symm hc] using h)
        refine ⟨rest, ?_⟩
        have hscan : upTo stop (c :: cs) = c :: upTo stop cs := by simp [upTo, hc]
        rw [hscan, List.cons_append, ← hrest]

/-- Without a stop all of the text comes before it. -/
theorem upTo_eq_self {stop : α} {text : List α} (h : stop ∉ text) : upTo stop text = text := by
  refine List.takeWhile_eq_self_iff.mpr fun c hc => ?_
  have hne : c ≠ stop := by
    rintro rfl
    exact h hc
  simpa using hne

/-- Of a token with a stop behind it the token is taken. -/
theorem upTo_append {stop : α} {token : List α} (h : stop ∉ token) (rest : List α) :
    upTo stop (token ++ stop :: rest) = token := by
  induction token with
  | nil => simp [upTo]
  | cons c cs ih =>
      have hc : c ≠ stop := fun heq => h (by simp [heq])
      have hcs : stop ∉ cs := fun hmem => h (by simp [hmem])
      have hscan : upTo stop (c :: cs ++ stop :: rest) = c :: upTo stop (cs ++ stop :: rest) := by
        simp [upTo, hc]
      rw [hscan, ih hcs]

end Scan

section Drop

variable {α : Type} {s : List α} {p : ℕ}

/-- The rest of a text begins with the element at its position. -/
theorem getElem?_of_drop {c : α} {rest : List α} (h : s.drop p = c :: rest) :
    s[p]? = some c := by
  have hfirst : (s.drop p)[0]? = some c := by rw [h]; rfl
  simpa using hfirst

/-- Past a front of the rest there is what follows it. -/
theorem drop_of_append (front : List α) {rest : List α} (h : s.drop p = front ++ rest) :
    s.drop (p + front.length) = rest := by
  rw [← List.drop_drop, h, List.drop_left]

/-- One position further the rest has lost its first element. -/
theorem drop_of_cons {c : α} {rest : List α} (h : s.drop p = c :: rest) :
    s.drop (p + 1) = rest :=
  drop_of_append [c] h

/-- From an element on, the rest begins with it. -/
theorem drop_of_getElem? {c : α} (h : s[p]? = some c) : s.drop p = c :: s.drop (p + 1) := by
  obtain ⟨hlt, rfl⟩ := List.getElem?_eq_some_iff.mp h
  exact List.drop_eq_getElem_cons hlt

/-- A rest with a front that is not empty ends within the text. -/
theorem length_of_drop {front rest : List α} (h : s.drop p = front ++ rest) (hne : front ≠ []) :
    p + front.length ≤ s.length := by
  have hlen := congrArg List.length h
  have hpos := List.length_pos_of_ne_nil hne
  simp only [List.length_drop, List.length_append] at hlen
  omega

/-- A part is `count` of its items and the part after them. -/
theorem take_append_drop_take (s : List α) {p count stop : ℕ} (h : p + count ≤ stop) :
    (s.drop p).take count ++ (s.take stop).drop (p + count) = (s.take stop).drop p := by
  have hchunk : (s.drop p).take count = ((s.take stop).drop p).take count := by
    rw [List.drop_take, List.take_take, Nat.min_eq_left (by omega)]
  rw [hchunk, ← List.drop_drop, List.take_append_drop]

end Drop

end Vtfs.Library
