import Vtfs.Library.Bytes
import Mathlib.Tactic.Ring
import Mathlib.Tactic.Positivity
import Mathlib.Data.List.Induction

/-!
# Decimal numerals over bytes

`numeral n` is the text `std::to_string` prints for an unsigned `n`, and `value` reads a run
of digits back.  `Canonical` is the spelling a printer produces: digits, at least one, and no
leading zero.  Printing and reading are inverse exactly on it (`value_numeral`,
`numeral_value`).
-/

set_option autoImplicit false

namespace Vtfs.Library.Decimal

/-- An ASCII digit. -/
def isDigit (c : UInt8) : Bool := 48 ≤ c && c ≤ 57

/-- The number one digit stands for. -/
def digitValue (c : UInt8) : ℕ := c.toNat - 48

/-- The number a run of digits stands for, most significant digit first. -/
def value (digits : Bytes) : ℕ := digits.foldl (fun acc c => 10 * acc + digitValue c) 0

/-- The decimal text of a natural number. -/
def numeral (n : ℕ) : Bytes := (Nat.toDigits 10 n).map byte

/-- A run of digits without a leading zero. -/
def Canonical (token : Bytes) : Prop :=
  token ≠ [] ∧ token.all isDigit = true ∧ (token.head? = some 48 → token = [48])

instance (token : Bytes) : Decidable (Canonical token) := by
  unfold Canonical; infer_instance

/-- A digit behind a token adds its value to ten times the value before. -/
theorem value_append_singleton (digits : Bytes) (c : UInt8) :
    value (digits ++ [c]) = 10 * value digits + digitValue c := by
  simp [value]

/-- What was read before a token counts as much as the places behind it. -/
theorem value_cons_aux (digits : Bytes) (acc : ℕ) :
    digits.foldl (fun a c => 10 * a + digitValue c) acc =
      10 ^ digits.length * acc + value digits := by
  induction digits generalizing acc with
  | nil => simp [value]
  | cons c cs ih =>
      simp only [value, List.foldl_cons, List.length_cons, mul_zero, zero_add]
      rw [ih, ih (digitValue c)]
      ring

/-- The first digit counts as much as the places behind it. -/
theorem value_cons (c : UInt8) (digits : Bytes) :
    value (c :: digits) = 10 ^ digits.length * digitValue c + value digits := by
  have h := value_cons_aux digits (10 * 0 + digitValue c)
  simpa [value] using h

/-- The digits are the codes from 48 to 57. -/
theorem isDigit_iff {c : UInt8} : isDigit c = true ↔ 48 ≤ c.toNat ∧ c.toNat ≤ 57 := by
  simp [isDigit, UInt8.le_iff_toNat_le]

/-- A digit has a value below ten. -/
theorem digitValue_lt {c : UInt8} (h : isDigit c = true) : digitValue c < 10 := by
  have := isDigit_iff.mp h
  unfold digitValue
  omega

/-- The codes of the digits follow each other from 48 on. -/
theorem byte_digitChar {d : ℕ} (h : d < 10) : (byte d.digitChar).toNat = 48 + d := by
  have hchar : d.digitChar.toNat = 48 + d := Nat.toNat_digitChar_of_lt_ten h
  simp only [byte, hchar, Nat.toUInt8_eq, UInt8.toNat_ofNat']
  omega

/-- The value of a written digit is the digit. -/
theorem digitValue_byte_digitChar {d : ℕ} (h : d < 10) : digitValue (byte d.digitChar) = d := by
  simp [digitValue, byte_digitChar h]

/-- What is written for a digit is one. -/
theorem isDigit_byte_digitChar {d : ℕ} (h : d < 10) : isDigit (byte d.digitChar) = true := by
  rw [isDigit_iff, byte_digitChar h]
  omega

/-- Writing the value of a digit gives it back. -/
theorem byte_digitChar_digitValue {c : UInt8} (h : isDigit c = true) :
    byte (digitValue c).digitChar = c := by
  apply UInt8.toNat_inj.mp
  rw [byte_digitChar (digitValue_lt h)]
  have := isDigit_iff.mp h
  unfold digitValue
  omega

/-- Below ten a numeral is one digit. -/
theorem numeral_of_lt {n : ℕ} (h : n < 10) : numeral n = [byte n.digitChar] := by
  simp [numeral, Nat.toDigits_of_lt_base h]

/-- The numeral of a number ends in its last digit. -/
theorem numeral_step {n d : ℕ} (hn : 0 < n) (hd : d < 10) :
    numeral (10 * n + d) = numeral n ++ [byte d.digitChar] := by
  have h := @Nat.toDigits_append_toDigits 10 n d (by omega) hn hd
  simp [numeral, ← h, Nat.toDigits_of_lt_base hd]

/-- Induction on the decimal digits of a number. -/
theorem digit_induction {P : ℕ → Prop} (small : ∀ d < 10, P d)
    (step : ∀ n d, 0 < n → d < 10 → P n → P (10 * n + d)) (n : ℕ) : P n := by
  induction n using Nat.strongRecOn with
  | ind n ih =>
      by_cases h : n < 10
      · exact small n h
      · have hstep := step (n / 10) (n % 10) (by omega) (by omega) (ih (n / 10) (by omega))
        rwa [Nat.div_add_mod] at hstep

/-- Every number has at least one digit. -/
theorem numeral_ne_nil (n : ℕ) : numeral n ≠ [] := by
  simp [numeral]

/-- A numeral has nothing but digits. -/
theorem numeral_all_isDigit (n : ℕ) : (numeral n).all isDigit = true := by
  induction n using digit_induction with
  | small d hd => simp [numeral_of_lt hd, isDigit_byte_digitChar hd]
  | step n d hn hd ih =>
      rw [numeral_step hn hd, List.all_append, ih]
      simp [isDigit_byte_digitChar hd]

/-- Reading back a printed number. -/
@[simp] theorem value_numeral (n : ℕ) : value (numeral n) = n := by
  induction n using digit_induction with
  | small d hd => simp [numeral_of_lt hd, value, digitValue_byte_digitChar hd]
  | step n d hn hd ih =>
      rw [numeral_step hn hd, value_append_singleton, ih, digitValue_byte_digitChar hd]

/-- The numeral of a positive number does not begin with zero. -/
theorem numeral_head_ne_zero {n : ℕ} (h : 0 < n) : (numeral n).head? ≠ some 48 := by
  induction n using digit_induction with
  | small d hd =>
      rw [numeral_of_lt hd]
      intro hhead
      have hbyte : byte d.digitChar = 48 := by simpa using hhead
      have := byte_digitChar hd
      rw [hbyte] at this
      simp at this
      omega
  | step n d hn hd ih =>
      rw [numeral_step hn hd, List.head?_append_of_ne_nil _ (numeral_ne_nil n)]
      exact ih hn

/-- What is written for a number is canonical. -/
theorem numeral_canonical (n : ℕ) : Canonical (numeral n) := by
  refine ⟨numeral_ne_nil n, numeral_all_isDigit n, ?_⟩
  intro hhead
  rcases Nat.eq_zero_or_pos n with rfl | hpos
  · decide
  · exact absurd hhead (numeral_head_ne_zero hpos)

/-- Digits that do not begin with zero have a positive value. -/
theorem value_pos {token : Bytes} (hd : token.all isDigit = true) (hne : token ≠ [])
    (hhead : token.head? ≠ some 48) : 0 < value token := by
  cases token with
  | nil => exact absurd rfl hne
  | cons c cs =>
      have hc : isDigit c = true := by simp_all
      have hdv : 0 < digitValue c := by
        have hrange := isDigit_iff.mp hc
        have hc48 : c.toNat ≠ 48 := fun h => hhead (by
          have : c = 48 := UInt8.toNat_inj.mp (by simpa using h)
          simp [this])
        unfold digitValue
        omega
      rw [value_cons]
      have : 0 < 10 ^ cs.length * digitValue c := Nat.mul_pos (by positivity) hdv
      omega

/-- A canonical token is the numeral of its value. -/
theorem numeral_value {token : Bytes} (h : Canonical token) : numeral (value token) = token := by
  obtain ⟨hne, hdigits, hzero⟩ := h
  induction token using List.reverseRecOn with
  | nil => exact absurd rfl hne
  | append_singleton front c ih =>
      have hc : isDigit c = true := by simp_all
      rw [value_append_singleton]
      by_cases hfront : front = []
      · subst hfront
        simp only [value, List.foldl_nil, mul_zero, zero_add, List.nil_append]
        rw [numeral_of_lt (digitValue_lt hc), byte_digitChar_digitValue hc]
      · have hhead : front.head? ≠ some 48 := by
          intro hh
          have := hzero (by rw [List.head?_append_of_ne_nil _ hfront]; exact hh)
          cases front with
          | nil => exact hfront rfl
          | cons x xs => simp at this
        have hfd : front.all isDigit = true := by simp_all
        rw [numeral_step (value_pos hfd hfront hhead) (digitValue_lt hc),
          ih hfront hfd (fun hh => absurd hh hhead), byte_digitChar_digitValue hc]

/-- Among digits there is nothing else. -/
theorem not_mem_of_all_isDigit {token : Bytes} (h : token.all isDigit = true) {c : UInt8}
    (hc : isDigit c = false) : c ∉ token := by
  intro hmem
  have := List.all_eq_true.mp h c hmem
  simp [hc] at this

/-! ## `std::from_chars` and `std::to_string` -/

/-- `std::from_chars` into an unsigned integer below `limit`: the number of the longest run of
digits and the count of bytes it takes, or `none` for an error code. -/
def fromCharsUnsigned (limit : ℕ) (text : Bytes) : Option (ℕ × ℕ) :=
  let digits := text.takeWhile isDigit
  if digits = [] then none
  else if value digits < limit then some (value digits, digits.length)
  else none

/-- `std::from_chars` into a signed integer in `[-limit, limit)`: an optional minus sign, then
digits. -/
def fromCharsSigned (limit : ℕ) (text : Bytes) : Option (ℤ × ℕ) :=
  let negative := text.head? = some (byte '-')
  let digits := (if negative then text.tail else text).takeWhile isDigit
  if digits = [] then none
  else if negative then
    if value digits ≤ limit then some (-(value digits : ℤ), digits.length + 1) else none
  else
    if value digits < limit then some ((value digits : ℤ), digits.length) else none

/-- `std::to_string` of a signed integer. -/
def signedNumeral (i : ℤ) : Bytes :=
  if i < 0 then byte '-' :: numeral i.natAbs else numeral i.natAbs

/-- The leading digits are the whole text when it has only digits. -/
theorem takeWhile_isDigit_length {text : Bytes} :
    (text.takeWhile isDigit).length = text.length ↔ text.all isDigit = true := by
  rw [List.all_eq_true]
  constructor
  · intro h
    have heq : text.takeWhile isDigit = text :=
      (List.takeWhile_prefix isDigit).eq_of_length h
    exact List.takeWhile_eq_self_iff.mp heq
  · intro h
    rw [List.takeWhile_eq_self_iff.mpr h]

/-- A text that `std::from_chars` consumes whole is a run of digits below the limit. -/
theorem fromCharsUnsigned_eq_iff {limit v : ℕ} {text : Bytes} :
    fromCharsUnsigned limit text = some (v, text.length) ↔
      text ≠ [] ∧ text.all isDigit = true ∧ value text = v ∧ v < limit := by
  unfold fromCharsUnsigned
  constructor
  · intro h
    simp only at h
    split at h
    · simp at h
    · split at h
      · rename_i hne hlt
        simp only [Option.some.injEq, Prod.mk.injEq] at h
        obtain ⟨hv, hlen⟩ := h
        have hall := takeWhile_isDigit_length.mp hlen
        have heq : text.takeWhile isDigit = text :=
          List.takeWhile_eq_self_iff.mpr (List.all_eq_true.mp hall)
        rw [heq] at hne hlt hv
        exact ⟨hne, hall, hv, hv ▸ hlt⟩
      · simp at h
  · rintro ⟨hne, hall, rfl, hlt⟩
    have heq : text.takeWhile isDigit = text :=
      List.takeWhile_eq_self_iff.mpr (List.all_eq_true.mp hall)
    simp [heq, hne, hlt]

/-- The digits of a signed text that `std::from_chars` consumes whole, and its sign. -/
theorem fromCharsSigned_eq_iff {limit : ℕ} {v : ℤ} {text : Bytes} :
    fromCharsSigned limit text = some (v, text.length) ↔
      (∃ digits, text = byte '-' :: digits ∧ digits ≠ [] ∧ digits.all isDigit = true ∧
        v = -(value digits : ℤ) ∧ value digits ≤ limit) ∨
      (text ≠ [] ∧ text.all isDigit = true ∧ v = (value text : ℤ) ∧ value text < limit) := by
  have hminus : isDigit (byte '-') = false := by decide
  cases text with
  | nil => simp [fromCharsSigned]
  | cons c cs =>
      by_cases hc : c = byte '-'
      · subst hc
        constructor
        · intro h
          refine Or.inl ⟨cs, rfl, ?_⟩
          simp only [fromCharsSigned, List.head?_cons, List.tail_cons, if_true] at h
          split at h
          · simp at h
          · split at h
            · rename_i hne hle
              simp only [Option.some.injEq, Prod.mk.injEq, List.length_cons,
                Nat.add_right_cancel_iff] at h
              obtain ⟨hv, hl⟩ := h
              have hall := takeWhile_isDigit_length.mp hl
              have heq : cs.takeWhile isDigit = cs :=
                List.takeWhile_eq_self_iff.mpr (List.all_eq_true.mp hall)
              rw [heq] at hne hle hv
              exact ⟨hne, hall, hv.symm, hle⟩
            · simp at h
        · rintro (⟨digits, hd, hne, hall, rfl, hle⟩ | ⟨-, hall, -⟩)
          · obtain rfl : cs = digits := by simpa using hd
            have heq : cs.takeWhile isDigit = cs :=
              List.takeWhile_eq_self_iff.mpr (List.all_eq_true.mp hall)
            simp [fromCharsSigned, heq, hne, hle]
          · simp [hminus] at hall
      · have hhead : ¬ (some c = some (byte '-')) := by simpa using hc
        constructor
        · intro h
          apply Or.inr
          simp only [fromCharsSigned, List.head?_cons, hhead, if_false] at h
          split at h
          · simp at h
          · split at h
            · rename_i hne hlt
              simp only [Option.some.injEq, Prod.mk.injEq] at h
              obtain ⟨rfl, hl⟩ := h
              have hfc : fromCharsUnsigned limit (c :: cs) =
                  some (value ((c :: cs).takeWhile isDigit), (c :: cs).length) := by
                simp only [fromCharsUnsigned, hne, if_false, hlt, if_true, hl]
              obtain ⟨h1, h2, h3, h4⟩ := fromCharsUnsigned_eq_iff.mp hfc
              exact ⟨h1, h2, by rw [h3], by omega⟩
            · simp at h
        · rintro (⟨digits, hd, -⟩ | ⟨hne, hall, rfl, hlt⟩)
          · exact absurd (by simpa using congrArg List.head? hd) hc
          · have heq : (c :: cs).takeWhile isDigit = c :: cs :=
              List.takeWhile_eq_self_iff.mpr (List.all_eq_true.mp hall)
            simp only [fromCharsSigned, List.head?_cons, hhead, if_false, heq, hne, hlt, if_true]

end Vtfs.Library.Decimal
