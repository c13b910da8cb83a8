import Vtfs.Library.Bytes

/-!
# Percent encoding

A text in which some bytes stand for themselves and the others are written as a percent sign and
two hexadecimal digits.  `Encodes` says that a text is such an encoding; a text encodes one byte
string at most (`Encodes.unique`).
-/

set_option autoImplicit false

namespace Vtfs.Library.PercentEncoding

/-- The percent sign. -/
def percent : UInt8 := byte '%'

/-- The value of a hexadecimal digit. -/
def hexValue (digit : UInt8) : Option UInt8 :=
  if byte '0' ≤ digit ∧ digit ≤ byte '9' then some (digit - byte '0')
  else if byte 'A' ≤ digit ∧ digit ≤ byte 'F' then some (digit - byte 'A' + 10)
  else if byte 'a' ≤ digit ∧ digit ≤ byte 'f' then some (digit - byte 'a' + 10)
  else none

/-- The text encodes the data, where the bytes of `plain` stand for themselves. -/
inductive Encodes (plain : UInt8 → Prop) : Bytes → Bytes → Prop
  | nil : Encodes plain [] []
  | plain {c : UInt8} {text data : Bytes} (hc : plain c) (h : Encodes plain text data) :
      Encodes plain (c :: text) (c :: data)
  | escaped {high low a b : UInt8} {text data : Bytes} (hhigh : hexValue high = some a)
      (hlow : hexValue low = some b) (h : Encodes plain text data) :
      Encodes plain (percent :: high :: low :: text) ((16 * a + b) :: data)

namespace Encodes

variable {plain : UInt8 → Prop} {text data data' : Bytes}

/-- A text encodes one byte string at most, if the percent sign does not stand for itself. -/
theorem unique (hpercent : ¬ plain percent) (h : Encodes plain text data)
    (h' : Encodes plain text data') : data = data' := by
  induction h generalizing data' with
  | nil =>
      cases h'
      rfl
  | plain hc _ ih =>
      cases h' with
      | plain _ hrest => rw [ih hrest]
      | escaped _ _ _ => exact absurd hc hpercent
  | escaped hhigh hlow _ ih =>
      cases h' with
      | plain hc _ => exact absurd hc hpercent
      | escaped hhigh' hlow' hrest =>
          obtain rfl := Option.some.inj (hhigh.symm.trans hhigh')
          obtain rfl := Option.some.inj (hlow.symm.trans hlow')
          rw [ih hrest]

/-- A text whose bytes all stand for themselves encodes itself. -/
theorem self (h : ∀ c ∈ text, plain c) : Encodes plain text text := by
  induction text with
  | nil => exact .nil
  | cons c text ih =>
      obtain ⟨hc, htext⟩ := List.forall_mem_cons.mp h
      exact .plain hc (ih htext)

/-- The bytes of an encoding stand for themselves, are the percent sign, or are digits. -/
theorem mem_cases (h : Encodes plain text data) {c : UInt8} (hc : c ∈ text) :
    plain c ∨ c = percent ∨ ∃ a, hexValue c = some a := by
  induction h with
  | nil => cases hc
  | plain hplain _ ih =>
      rcases List.mem_cons.mp hc with rfl | hrest
      · exact Or.inl hplain
      · exact ih hrest
  | escaped hhigh hlow _ ih =>
      simp only [List.mem_cons] at hc
      rcases hc with rfl | rfl | rfl | hrest
      · exact Or.inr (Or.inl rfl)
      · exact Or.inr (Or.inr ⟨_, hhigh⟩)
      · exact Or.inr (Or.inr ⟨_, hlow⟩)
      · exact ih hrest

end Encodes

end Vtfs.Library.PercentEncoding
