import Vtfs.Interface.RangeHeaders

/-!
# The ranges that are read from a header

`std::stoull` takes the number that a text begins with (`stoull_eq_some_iff`), so the parser
takes every header whose two parts begin with numbers (`parseRangeHeader_eq_some_iff`).  These are
the headers of the grammar, and others with a sign or with something after a number.
-/

set_option autoImplicit false

namespace Vtfs.Analysis

open Vtfs.Library
open Vtfs.Model
open Vtfs.Interface

/-! ## White space -/

/-- A blank text has only white space. -/
theorem blank_iff {text : Bytes} : Blank text ↔ ∀ c ∈ text, isSpace c = true := List.all_eq_true

/-- A digit is no white space. -/
theorem isSpace_of_isDigit {c : UInt8} (h : Decimal.isDigit c = true) : isSpace c = false := by
  have hrange := Decimal.isDigit_iff.mp h
  have hspace : ∀ n < 256, 48 ≤ n → isSpace (UInt8.ofNat n) = false := by decide +kernel
  have hc := hspace c.toNat c.toNat_lt hrange.1
  rwa [UInt8.ofNat_toNat] at hc

/-- White space in front is dropped. -/
theorem dropWhile_blank_append {blanks : Bytes} (h : Blank blanks) (text : Bytes) :
    (blanks ++ text).dropWhile isSpace = text.dropWhile isSpace :=
  List.dropWhile_append_of_pos (blank_iff.mp h)

/-- Without white space in front nothing is dropped. -/
theorem dropWhile_eq_self {text : Bytes} (h : ∀ c cs, text = c :: cs → isSpace c = false) :
    text.dropWhile isSpace = text := by
  cases text with
  | nil => rfl
  | cons c cs => rw [List.dropWhile_cons_of_neg (by simp [h c cs rfl])]

/-- White space behind white space is white space. -/
theorem blank_append {text text' : Bytes} (h : Blank text) (h' : Blank text') :
    Blank (text ++ text') := by
  rw [Blank, List.all_append, Bool.and_eq_true]
  exact ⟨h, h'⟩

/-- What is dropped is white space. -/
theorem blank_takeWhile (text : Bytes) : Blank (text.takeWhile isSpace) :=
  blank_iff.mpr fun _ hc => List.mem_takeWhile_imp hc

/-- A text is what `trim` gives of it, with white space around it. -/
theorem padded_trim (text : Bytes) : Padded text (trim text) := by
  refine ⟨text.takeWhile isSpace, (text.dropWhile isSpace).rtakeWhile isSpace, ?_,
    blank_takeWhile text, blank_iff.mpr fun _ hc => ?_⟩
  · rw [List.append_assoc, trim, List.rdropWhile_append_rtakeWhile, List.takeWhile_append_dropWhile]
  · exact List.mem_rtakeWhile_imp hc

/-- Digits with white space around them are what `trim` leaves. -/
theorem trim_of_padded {text digits : Bytes} (h : Padded text digits)
    (hdigits : digits.all Decimal.isDigit = true) : trim text = digits := by
  obtain ⟨before, after, rfl, hbefore, hafter⟩ := h
  have hspace : ∀ c ∈ digits, isSpace c = false :=
    fun c hc => isSpace_of_isDigit (List.all_eq_true.mp hdigits c hc)
  have hright : (digits ++ after).rdropWhile isSpace = digits := by
    rw [List.rdropWhile, List.reverse_append,
      dropWhile_blank_append (blank_iff.mpr fun c hc => blank_iff.mp hafter c (by simpa using hc)),
      dropWhile_eq_self, List.reverse_reverse]
    exact fun c cs heq => hspace c (by rw [← List.mem_reverse, heq]; simp)
  rw [trim, List.append_assoc, dropWhile_blank_append hbefore]
  cases digits with
  | nil =>
      have hnil : after.dropWhile isSpace = [] :=
        List.dropWhile_eq_nil_iff.mpr (blank_iff.mp hafter)
      rw [List.nil_append, hnil, List.rdropWhile_nil]
  | cons c cs =>
      rw [dropWhile_eq_self, hright]
      rintro d ds ⟨⟩
      exact hspace c (by simp)

/-- Only white space is trimmed to nothing. -/
theorem trim_eq_nil_iff {text : Bytes} : trim text = [] ↔ Blank text := by
  constructor
  · intro h
    obtain ⟨before, after, htext, hbefore, hafter⟩ := padded_trim text
    rw [htext, h, List.append_nil]
    exact blank_append hbefore hafter
  · intro h
    exact trim_of_padded ⟨text, [], by simp, h, rfl⟩ rfl

/-! ## Numbers -/

/-- `std::from_chars` takes the run of digits that a text begins with. -/
theorem fromCharsUnsigned_eq_some_iff {text : Bytes} {v : ℕ} :
    (∃ count, Decimal.fromCharsUnsigned (2 ^ 64) text = some (v, count)) ↔
      ∃ digits rest, text = digits ++ rest ∧ IsNumber digits ∧
        (∀ c cs, rest = c :: cs → Decimal.isDigit c = false) ∧ v = Decimal.value digits := by
  unfold Decimal.fromCharsUnsigned
  constructor
  · rintro ⟨count, h⟩
    simp only at h
    split at h
    · cases h
    · rename_i hne
      split at h
      · rename_i hsmall
        obtain ⟨rfl, -⟩ := Prod.mk.inj (Option.some.inj h)
        refine ⟨text.takeWhile Decimal.isDigit, text.dropWhile Decimal.isDigit,
          List.takeWhile_append_dropWhile.symm, ⟨hne, ?_, hsmall⟩, fun c cs hrest => ?_, rfl⟩
        · exact List.all_eq_true.mpr fun c hc => List.mem_takeWhile_imp hc
        · have hhead := List.head?_dropWhile_not Decimal.isDigit text
          rw [hrest] at hhead
          simpa using hhead
      · cases h
  · rintro ⟨digits, rest, rfl, hnumber, hrun, rfl⟩
    have htake : (digits ++ rest).takeWhile Decimal.isDigit = digits := by
      rw [List.takeWhile_append_of_pos (List.all_eq_true.mp hnumber.digits)]
      cases rest with
      | nil => simp
      | cons c cs => rw [List.takeWhile_cons_of_neg (by simp [hrun c cs rfl]), List.append_nil]
    refine ⟨digits.length, ?_⟩
    simp only [htake, hnumber.nonempty, if_false, hnumber.small, if_true]

/-- A text begins with neither white space nor a sign. -/
def Plain (text : Bytes) : Prop :=
  ∀ c cs, text = c :: cs → isSpace c = false ∧ c ≠ byte '+' ∧ c ≠ byte '-'

/-- A number begins with neither white space nor a sign. -/
theorem plain_of_isNumber {digits : Bytes} (h : IsNumber digits) (rest : Bytes) :
    Plain (digits ++ rest) := by
  intro c cs heq
  have hmem : c ∈ digits := by
    cases digits with
    | nil => exact absurd rfl h.nonempty
    | cons d ds => simp [(List.cons.inj heq).1]
  have hdigit := List.all_eq_true.mp h.digits c hmem
  refine ⟨isSpace_of_isDigit hdigit, ?_, ?_⟩
  · rintro rfl
    exact absurd hdigit (by decide)
  · rintro rfl
    exact absurd hdigit (by decide)

/-- Every text is white space, a sign or none, and a text that is plain if there is no sign. -/
theorem exists_signed (text : Bytes) : ∃ blanks sign body, text = blanks ++ (sign ++ body) ∧
    Blank blanks ∧ (sign = [] ∨ sign = bytes "+" ∨ sign = bytes "-") ∧
    (sign = [] → Plain body) := by
  have hsplit := List.takeWhile_append_dropWhile (p := isSpace) (l := text)
  have hhead := List.head?_dropWhile_not isSpace text
  cases hbody : text.dropWhile isSpace with
  | nil =>
      rw [hbody] at hsplit
      refine ⟨_, [], [], hsplit.symm, blank_takeWhile text, Or.inl rfl, fun _ c cs heq => ?_⟩
      cases heq
  | cons c cs =>
      rw [hbody] at hsplit hhead
      by_cases hplus : c = byte '+'
      · subst hplus
        exact ⟨_, bytes "+", cs, hsplit.symm, blank_takeWhile text, Or.inr (Or.inl rfl),
          fun hnil => absurd hnil (by decide)⟩
      by_cases hminus : c = byte '-'
      · subst hminus
        exact ⟨_, bytes "-", cs, hsplit.symm, blank_takeWhile text, Or.inr (Or.inr rfl),
          fun hnil => absurd hnil (by decide)⟩
      refine ⟨_, [], c :: cs, hsplit.symm, blank_takeWhile text, Or.inl rfl, ?_⟩
      rintro - d ds ⟨⟩
      exact ⟨by simpa using hhead, hplus, hminus⟩

/-- A number is read behind white space and a sign, and negated behind a minus. -/
theorem stoull_signed {blanks sign body : Bytes} (hblanks : Blank blanks)
    (hsigned : sign = [] ∨ sign = bytes "+" ∨ sign = bytes "-") (hplain : sign = [] → Plain body) :
    stoull (blanks ++ (sign ++ body)) =
      (Decimal.fromCharsUnsigned (2 ^ 64) body).map fun number =>
        if sign = bytes "-" then 0 - number.1.toUInt64 else number.1.toUInt64 := by
  have hsign : ∀ c cs, sign ++ body = c :: cs → isSpace c = false := by
    intro c cs heq
    rcases hsigned with rfl | rfl | rfl
    · exact (hplain rfl c cs heq).1
    · obtain ⟨rfl, -⟩ := List.cons.inj heq
      decide
    · obtain ⟨rfl, -⟩ := List.cons.inj heq
      decide
  rw [stoull, dropWhile_blank_append hblanks, dropWhile_eq_self hsign]
  rcases hsigned with rfl | rfl | rfl
  · have hbody : body.head? ≠ some (byte '-') ∧ body.head? ≠ some (byte '+') := by
      cases body with
      | nil => simp
      | cons c cs => simpa using (hplain rfl c cs rfl).2.symm
    have hnil : ([] : Bytes) ≠ bytes "-" := by decide
    simp only [List.nil_append, hbody, or_self, if_false, hnil]
  · have hne : byte '+' ≠ byte '-' := by decide
    simp [hne, bytes]
  · have hminus : bytes "-" = [byte '-'] := rfl
    simp [hminus]

/-- **`std::stoull`** takes the number that a text begins with, if there is one. -/
theorem stoull_eq_some_iff {text : Bytes} {n : UInt64} :
    stoull text = some n ↔ ∃ number : LeadingNumber text, number.value = n.toNat := by
  have hconvert : ∀ (sign digits : Bytes), IsNumber digits →
      (if sign = bytes "-" then 0 - (Decimal.value digits).toUInt64
        else (Decimal.value digits).toUInt64).toNat =
      if sign = bytes "-" then (2 ^ 64 - Decimal.value digits) % 2 ^ 64
        else Decimal.value digits := by
    intro sign digits hnumber
    have hsmall := hnumber.small
    have hvalue : (Decimal.value digits).toUInt64.toNat = Decimal.value digits := by
      rw [UInt64.toNat_ofNat']
      exact Nat.mod_eq_of_lt hsmall
    by_cases hminus : sign = bytes "-"
    · rw [if_pos hminus, if_pos hminus, UInt64.toNat_sub, hvalue]
      rfl
    · rw [if_neg hminus, if_neg hminus, hvalue]
  constructor
  · intro h
    obtain ⟨blanks, sign, body, rfl, hblanks, hsigned, hplain⟩ := exists_signed text
    rw [stoull_signed hblanks hsigned hplain] at h
    obtain ⟨⟨v, count⟩, hfrom, rfl⟩ := Option.map_eq_some_iff.mp h
    obtain ⟨digits, rest, rfl, hnumber, hrun, rfl⟩ :=
      fromCharsUnsigned_eq_some_iff.mp ⟨count, hfrom⟩
    exact ⟨⟨blanks, sign, digits, rest, rfl, hblanks, hsigned, hnumber, hrun⟩,
      (hconvert sign digits hnumber).symm⟩
  · rintro ⟨number, hvalue⟩
    obtain ⟨count, hfrom⟩ := fromCharsUnsigned_eq_some_iff.mpr
      ⟨number.digits, number.rest, rfl, number.number, number.run, rfl⟩
    rw [number.eq, stoull_signed number.blank number.signed
      fun _ => plain_of_isNumber number.number number.rest, hfrom, Option.map_some]
    refine congrArg some (UInt64.toNat_inj.mp ?_)
    rw [hconvert _ _ number.number, ← hvalue]
    rfl

/-! ## The parser -/

/-- White space is no digit. -/
theorem isDigit_of_isSpace {c : UInt8} (h : isSpace c = true) : Decimal.isDigit c = false := by
  by_contra hdigit
  rw [isSpace_of_isDigit (by simpa using hdigit)] at h
  cases h

/-- White space after a text does not change the run of digits it begins with. -/
theorem fromCharsUnsigned_append_blank {text after : Bytes} (h : Blank after) :
    Decimal.fromCharsUnsigned (2 ^ 64) (text ++ after) =
      Decimal.fromCharsUnsigned (2 ^ 64) text := by
  have hafter : after.takeWhile Decimal.isDigit = [] := by
    cases after with
    | nil => rfl
    | cons c cs =>
        have hc := isDigit_of_isSpace (blank_iff.mp h c List.mem_cons_self)
        rw [List.takeWhile_cons_of_neg (by simp [hc])]
  have htake : (text ++ after).takeWhile Decimal.isDigit = text.takeWhile Decimal.isDigit := by
    rw [List.takeWhile_append, hafter, List.append_nil]
    split
    · rename_i hall
      exact ((List.takeWhile_prefix _).eq_of_length hall).symm
    · rfl
  simp only [Decimal.fromCharsUnsigned, htake]

/-- White space is no number. -/
theorem stoull_blank {text : Bytes} (h : Blank text) : stoull text = none := by
  have hnone : stoull (text ++ ([] ++ [])) = none :=
    stoull_signed h (Or.inl rfl) fun _ c cs heq => by cases heq
  rwa [List.append_nil, List.append_nil] at hnone

/-- `trim` does not change the number. -/
theorem stoull_trim (text : Bytes) : stoull (trim text) = stoull text := by
  by_cases hblank : Blank text
  · have hnil : Blank [] := rfl
    rw [trim_eq_nil_iff.mpr hblank, stoull_blank hblank, stoull_blank hnil]
  obtain ⟨before, after, htext, hbefore, hafter⟩ := padded_trim text
  obtain ⟨blanks, sign, body, htrim, hblanks, hsigned, hplain⟩ := exists_signed (trim text)
  have hplain' : sign = [] → Plain (body ++ after) := by
    intro hnil c cs heq
    cases body with
    | cons d ds =>
        obtain ⟨rfl, -⟩ := List.cons.inj heq
        exact hplain hnil _ ds rfl
    | nil =>
        -- the text would be white space
        rw [hnil, List.append_nil, List.append_nil] at htrim
        exact absurd (blank_append (blank_append hbefore (htrim ▸ hblanks)) hafter) (htext ▸ hblank)
  have hwhole : text = (before ++ blanks) ++ (sign ++ (body ++ after)) := by
    rw [htext, htrim]
    simp only [List.append_assoc]
  rw [hwhole, stoull_signed (blank_append hbefore hblanks) hsigned hplain',
    fromCharsUnsigned_append_blank hafter, ← hwhole, htrim, stoull_signed hblanks hsigned hplain]

/-- The text of a header with a range, as the parser takes it apart. -/
theorem rangeText_iff {value first last : Bytes} :
    (value = rangeText first last ∧ byte '-' ∉ first) ↔
      bytes "bytes=" <+: value ∧
        cutAt [byte '-'] (value.drop (bytes "bytes=").length) = some (first, last) := by
  rw [cutAt_singleton_eq_some_iff]
  constructor
  · rintro ⟨rfl, hdash⟩
    exact ⟨List.prefix_append _ _, List.drop_left, hdash⟩
  · rintro ⟨⟨rest, rfl⟩, hrest, hdash⟩
    rw [List.drop_left] at hrest
    exact ⟨by rw [hrest]; rfl, hdash⟩

/-- One less in 64 bits is one less. -/
theorem toNat_sub_one {size : UInt64} (h : 0 < size.toNat) :
    (size - 1).toNat = size.toNat - 1 :=
  UInt64.toNat_sub_of_le _ _ (UInt64.le_iff_toNat_le.mpr (by simp; omega))

/-- The last position of a file. -/
theorem toNat_lastOfSize (size : UInt64) :
    (if size = 0 then 0 else size - 1 : UInt64).toNat = size.toNat - 1 := by
  by_cases hsize : size = 0
  · rw [if_pos hsize, hsize]
    rfl
  · rw [if_neg hsize]
    exact toNat_sub_one (Nat.pos_of_ne_zero fun h => hsize (UInt64.toNat_inj.mp h))

/-- The end of the parser: the positions are in order and in the file. -/
theorem checkedRange_eq_some_iff {size first last start stop : UInt64} :
    (if size ≤ first ∨ last < first then none else some (first, min last (size - 1))) =
        some (start, stop) ↔
      first = start ∧ start.toNat < size.toNat ∧ start.toNat ≤ last.toNat ∧
        stop.toNat = min last.toNat (size.toNat - 1) := by
  by_cases hbounds : size ≤ first ∨ last < first
  · rw [if_pos hbounds]
    refine iff_of_false (by simp) ?_
    rintro ⟨rfl, hinside, hordered, -⟩
    rw [UInt64.le_iff_toNat_le, UInt64.lt_iff_toNat_lt] at hbounds
    omega
  · rw [if_neg hbounds]
    rw [UInt64.le_iff_toNat_le, UInt64.lt_iff_toNat_lt] at hbounds
    have hlast : (size - 1).toNat = size.toNat - 1 := toNat_sub_one (by omega)
    rw [Option.some.injEq, Prod.mk.injEq, ← UInt64.toNat_inj (a := min last (size - 1)),
      toNat_min_uInt64, hlast]
    constructor
    · rintro ⟨rfl, hstop⟩
      exact ⟨rfl, by omega, by omega, hstop.symm⟩
    · rintro ⟨rfl, -, -, hstop⟩
      exact ⟨rfl, hstop.symm⟩

/-- **What the range parser takes**: a header whose part before the dash begins with a number, of
a position in the file, and whose part after it is white space or begins with a number that is
not smaller. -/
theorem parseRangeHeader_eq_some_iff {value : Bytes} {size start stop : UInt64} :
    parseRangeHeader value size = some (start, stop) ↔
      ∃ first last, value = rangeText first last ∧ byte '-' ∉ first ∧
        stoull first = some start ∧ start.toNat < size.toNat ∧
        ((Blank last ∧ stop.toNat = size.toNat - 1) ∨
          ∃ last', stoull last = some last' ∧ start.toNat ≤ last'.toNat ∧
            stop.toNat = min last'.toNat (size.toNat - 1)) := by
  unfold parseRangeHeader
  constructor
  · intro h
    split at h
    · cases h
    rename_i hbegins
    simp only [Option.bind_eq_bind, Option.bind_eq_some_iff] at h
    obtain ⟨⟨first, last⟩, hcut, start', hstart, hrange⟩ := h
    obtain ⟨hvalue, hdash⟩ := rangeText_iff.mpr ⟨not_not.mp hbegins, hcut⟩
    refine ⟨first, last, hvalue, hdash, ?_⟩
    by_cases hblank : Blank last
    · rw [if_pos (trim_eq_nil_iff.mpr hblank), Option.bind_some, checkedRange_eq_some_iff,
        toNat_lastOfSize] at hrange
      obtain ⟨rfl, hinside, -, hstop⟩ := hrange
      exact ⟨hstart, hinside, Or.inl ⟨hblank, by omega⟩⟩
    · rw [if_neg (mt trim_eq_nil_iff.mp hblank), stoull_trim] at hrange
      obtain ⟨last', hlast', hchecked⟩ := Option.bind_eq_some_iff.mp hrange
      obtain ⟨rfl, hinside, hordered, hstop⟩ := checkedRange_eq_some_iff.mp hchecked
      exact ⟨hstart, hinside, Or.inr ⟨last', hlast', hordered, hstop⟩⟩
  · rintro ⟨first, last, hvalue, hdash, hstart, hinside, hlast⟩
    obtain ⟨hbegins, hcut⟩ := rangeText_iff.mp ⟨hvalue, hdash⟩
    simp only [not_not.mpr hbegins, if_false, hcut, hstart, Option.bind_eq_bind, Option.bind_some]
    rcases hlast with ⟨hblank, hstop⟩ | ⟨last', hlast', hordered, hstop⟩
    · rw [if_pos (trim_eq_nil_iff.mpr hblank), checkedRange_eq_some_iff, toNat_lastOfSize]
      exact ⟨rfl, hinside, by omega, by omega⟩
    · have hblank : ¬ Blank last := fun hblank => by
        rw [stoull_blank hblank] at hlast'
        cases hlast'
      rw [if_neg (mt trim_eq_nil_iff.mp hblank), stoull_trim, hlast', Option.bind_some,
        checkedRange_eq_some_iff]
      exact ⟨rfl, hinside, hordered, hstop⟩

/-! ## The grammar -/

/-- A text of digits begins with its own number. -/
theorem stoull_eq_some_of_isNumber {text : Bytes} (h : IsNumber text) :
    stoull text = some (Decimal.value text).toUInt64 := by
  refine stoull_eq_some_iff.mpr ⟨⟨[], [], text, [], by simp, rfl, Or.inl rfl, h,
    fun c cs heq => by cases heq⟩, ?_⟩
  rw [UInt64.toNat_ofNat', Nat.mod_eq_of_lt h.small]
  rfl

/-- A text of digits that begins with a number is one. -/
theorem isNumber_of_stoull {text : Bytes} {n : UInt64} (h : stoull text = some n)
    (hdigits : text.all Decimal.isDigit = true) :
    IsNumber text ∧ Decimal.value text = n.toNat := by
  obtain ⟨⟨blanks, sign, digits, rest, heq, hblank, hsigned, hnumber, hrun⟩, hvalue⟩ :=
    stoull_eq_some_iff.mp h
  have hall : ∀ c ∈ blanks ++ (sign ++ (digits ++ rest)), Decimal.isDigit c = true := by
    rw [← heq]
    exact List.all_eq_true.mp hdigits
  have hblanks : blanks = [] := List.eq_nil_iff_forall_not_mem.mpr fun c hc => by
    have hspace := isDigit_of_isSpace (blank_iff.mp hblank c hc)
    rw [hall c (by simp [hc])] at hspace
    cases hspace
  have hsign : sign = [] := by
    rcases hsigned with hnil | rfl | rfl
    · exact hnil
    · exact absurd (hall (byte '+') (by simp [bytes])) (by decide)
    · exact absurd (hall (byte '-') (by simp [bytes])) (by decide)
  have hrest : rest = [] := by
    cases rest with
    | nil => rfl
    | cons c cs =>
        have hdigit := hrun c cs rfl
        rw [hall c (by simp)] at hdigit
        cases hdigit
  have htext : text = digits := by rw [heq, hblanks, hsign, hrest]; simp
  have hminus : ([] : Bytes) ≠ bytes "-" := by decide
  subst hsign
  rw [LeadingNumber.value, if_neg hminus] at hvalue
  rw [htext]
  exact ⟨hnumber, hvalue⟩

/-- A number has no dash. -/
theorem not_mem_of_isNumber {text : Bytes} (h : IsNumber text) : byte '-' ∉ text :=
  Decimal.not_mem_of_all_isDigit h.digits (by decide)

/-- What the grammar says of a header. -/
theorem denotesRange_iff {value : Bytes} {size start stop : ℕ} :
    DenotesRange size value start stop ↔ ∃ first last, value = rangeText first last ∧
      IsNumber first ∧ Decimal.value first = start ∧ start < size ∧
        ((Blank last ∧ stop = size - 1) ∨ ∃ digits, Padded last digits ∧ IsNumber digits ∧
          start ≤ Decimal.value digits ∧ stop = min (Decimal.value digits) (size - 1)) := by
  constructor
  · rintro (⟨hfirst, hlast, hinside⟩ | ⟨hfirst, hlast, hdigits, hinside, hordered⟩)
    · exact ⟨_, _, rfl, hfirst, rfl, hinside, Or.inl ⟨hlast, rfl⟩⟩
    · exact ⟨_, _, rfl, hfirst, rfl, hinside, Or.inr ⟨_, hlast, hdigits, hordered, rfl⟩⟩
  · rintro ⟨first, last, rfl, hfirst, rfl, hinside,
      ⟨hlast, rfl⟩ | ⟨digits, hlast, hdigits, hordered, rfl⟩⟩
    · exact .toEnd hfirst hlast hinside
    · exact .toLast hfirst hlast hdigits hinside hordered

/-- The ranges of the grammar are read. -/
theorem parseRangeHeader_of_denotes {value : Bytes} {size start stop : UInt64}
    (h : DenotesRange size.toNat value start.toNat stop.toNat) :
    parseRangeHeader value size = some (start, stop) := by
  obtain ⟨first, last, hvalue, hfirst, hstart, hinside, hlast⟩ := denotesRange_iff.mp h
  refine parseRangeHeader_eq_some_iff.mpr
    ⟨first, last, hvalue, not_mem_of_isNumber hfirst, ?_, hinside, ?_⟩
  · rw [stoull_eq_some_of_isNumber hfirst, hstart, Nat.toUInt64_eq, UInt64.ofNat_toNat]
  · rcases hlast with hblank | ⟨digits, hpadded, hdigits, hordered, hstop⟩
    · exact Or.inl hblank
    · have hnumber : stoull last = some (Decimal.value digits).toUInt64 := by
        rw [← stoull_trim, trim_of_padded hpadded hdigits.digits,
          stoull_eq_some_of_isNumber hdigits]
      have hsmall : (Decimal.value digits).toUInt64.toNat = Decimal.value digits := by
        rw [UInt64.toNat_ofNat', Nat.mod_eq_of_lt hdigits.small]
      exact Or.inr ⟨_, hnumber, by rwa [hsmall], by rwa [hsmall]⟩

/-- A text that begins with a number is read as it. -/
theorem exists_stoull {text : Bytes} (number : LeadingNumber text) :
    ∃ n, stoull text = some n ∧ n.toNat = number.value := by
  have hlt : number.value < 2 ^ 64 := by
    unfold LeadingNumber.value
    split
    · exact Nat.mod_lt _ (by decide)
    · exact number.number.small
  have hvalue : number.value.toUInt64.toNat = number.value := by
    rw [UInt64.toNat_ofNat', Nat.mod_eq_of_lt hlt]
  exact ⟨_, stoull_eq_some_iff.mpr ⟨number, hvalue.symm⟩, hvalue⟩

/-- The two sides of a range are found again. -/
theorem rangeText_injective {first last first' last' : Bytes}
    (h : rangeText first last = rangeText first' last') (hdash : byte '-' ∉ first)
    (hdash' : byte '-' ∉ first') : first = first' ∧ last = last' := by
  have hcut := (rangeText_iff.mp ⟨rfl, hdash⟩).2.symm.trans (rangeText_iff.mp ⟨h, hdash'⟩).2
  exact Prod.mk.inj (Option.some.inj hcut)

/-- **The range parser** reads the ranges of the grammar and no others if and only if the header,
where its numbers as `std::stoull` takes them are a range in the file, is written in digits.
SRCLINE: WebDavServer.cpp:152-172, WebDavServer.cpp:60-68 -/
theorem readsRange_iff (value : Bytes) (size : UInt64) :
    ReadsRange value size ↔ WritesDigits value size := by
  constructor
  · intro h first last hvalue hdash number hinside hlast
    obtain ⟨start, hstart, hnumber⟩ := exists_stoull number
    obtain ⟨stop, hparse⟩ : ∃ stop, parseRangeHeader value size = some (start, stop) := by
      have hend : (size - 1).toNat = size.toNat - 1 := toNat_sub_one (by omega)
      rcases hlast with hblank | ⟨number', hordered⟩
      · exact ⟨size - 1, parseRangeHeader_eq_some_iff.mpr
          ⟨first, last, hvalue, hdash, hstart, by omega, Or.inl ⟨hblank, hend⟩⟩⟩
      · obtain ⟨last', hlast', hnumber'⟩ := exists_stoull number'
        refine ⟨min last' (size - 1), parseRangeHeader_eq_some_iff.mpr
          ⟨first, last, hvalue, hdash, hstart, by omega, Or.inr ⟨last', hlast', by omega, ?_⟩⟩⟩
        rw [toNat_min_uInt64, hend]
    obtain ⟨first', last', hvalue', hfirst', -, -, hlast'⟩ :=
      denotesRange_iff.mp ((h start stop).mp hparse)
    obtain ⟨rfl, rfl⟩ :=
      rangeText_injective (hvalue.symm.trans hvalue') hdash (not_mem_of_isNumber hfirst')
    refine ⟨hfirst'.digits, ?_⟩
    rcases hlast' with ⟨hblank, -⟩ | ⟨digits, hpadded, hdigits, -⟩
    · exact ⟨[], ⟨last, [], by simp, hblank, rfl⟩, rfl⟩
    · exact ⟨digits, hpadded, hdigits.digits⟩
  · intro h start stop
    refine ⟨fun hparse => denotesRange_iff.mpr ?_, parseRangeHeader_of_denotes⟩
    obtain ⟨first, last, hvalue, hdash, hstart, hinside, hlast⟩ :=
      parseRangeHeader_eq_some_iff.mp hparse
    obtain ⟨number, hnumber⟩ := stoull_eq_some_iff.mp hstart
    have hnumbers : Blank last ∨ ∃ number' : LeadingNumber last, number.value ≤ number'.value := by
      rcases hlast with ⟨hblank, -⟩ | ⟨last', hlast', hordered, -⟩
      · exact Or.inl hblank
      · obtain ⟨number', hnumber'⟩ := stoull_eq_some_iff.mp hlast'
        exact Or.inr ⟨number', by omega⟩
    obtain ⟨hfirst, digits, hpadded, hdigits⟩ :=
      h first last hvalue hdash number (by omega) hnumbers
    obtain ⟨hfirstNumber, hfirstValue⟩ := isNumber_of_stoull hstart hfirst
    refine ⟨first, last, hvalue, hfirstNumber, hfirstValue, hinside, ?_⟩
    rcases hlast with ⟨hblank, hstop⟩ | ⟨last', hlast', hordered, hstop⟩
    · exact Or.inl ⟨hblank, hstop⟩
    · rw [← stoull_trim, trim_of_padded hpadded hdigits] at hlast'
      obtain ⟨hlastNumber, hlastValue⟩ := isNumber_of_stoull hlast' hdigits
      exact Or.inr ⟨digits, hpadded, hlastNumber, by omega, by omega⟩

/-- Two ranges are read as the first one. -/
theorem readsRange_fails : ¬ ∀ value size, ReadsRange value size := by
  intro h
  have hparse : parseRangeHeader (bytes "bytes=0-1,5-6") 9 = some (0, 1) := by decide +kernel
  obtain ⟨first, last, hvalue, hfirst, -, -, hlast⟩ :=
    denotesRange_iff.mp ((h (bytes "bytes=0-1,5-6") 9 0 1).mp hparse)
  have hwhole : bytes "bytes=0-1,5-6" = rangeText (bytes "0") (bytes "1,5-6") := by decide
  obtain ⟨-, rfl⟩ := rangeText_injective (hwhole.symm.trans hvalue) (by decide)
    (not_mem_of_isNumber hfirst)
  rcases hlast with ⟨hblank, -⟩ | ⟨digits, hpadded, hdigits, -⟩
  · have hcomma : ¬ (bytes "1,5-6").all isSpace = true := by decide
    exact hcomma hblank
  · have htrim := trim_of_padded hpadded hdigits.digits
    have hself : trim (bytes "1,5-6") = bytes "1,5-6" := by decide
    rw [← hself.symm.trans htrim] at hdigits
    exact absurd hdigits.digits (by decide)

end Vtfs.Analysis
