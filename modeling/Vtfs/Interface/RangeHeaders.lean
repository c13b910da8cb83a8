import Vtfs.Model.WebDavServer

/-!
# Range headers

`DenotesRange` is the grammar of the ranges that a header should be able to ask for: digits, a
dash, and digits with white space around them, or nothing.  `LeadingNumber` is what
`std::stoull` takes as a number at the beginning of a text.
-/

set_option autoImplicit false

namespace Vtfs.Interface

open Vtfs.Library
open Vtfs.Model

/-! ## The grammar -/

/-- White space only. -/
def Blank (text : Bytes) : Prop := text.all isSpace = true

/-- A text with white space around it. -/
def Padded (text inner : Bytes) : Prop :=
  ∃ before after, text = before ++ inner ++ after ∧ Blank before ∧ Blank after

/-- Digits, at least one, of a number below `2 ^ 64`. -/
structure IsNumber (text : Bytes) : Prop where
  nonempty : text ≠ []
  digits : text.all Decimal.isDigit = true
  small : Decimal.value text < 2 ^ 64

/-- The text of a header with a range. -/
def rangeText (first last : Bytes) : Bytes := bytes "bytes=" ++ (first ++ bytes "-" ++ last)

/-- A header asks for the positions from `start` to `stop` of a file: from a position in the file
to its end, or to a position that is not before the first one, or to the end if that is nearer. -/
inductive DenotesRange (size : ℕ) : Bytes → ℕ → ℕ → Prop
  | toEnd {first last : Bytes} (hfirst : IsNumber first) (hlast : Blank last)
      (hinside : Decimal.value first < size) :
      DenotesRange size (rangeText first last) (Decimal.value first) (size - 1)
  | toLast {first last digits : Bytes} (hfirst : IsNumber first) (hlast : Padded last digits)
      (hdigits : IsNumber digits) (hinside : Decimal.value first < size)
      (hordered : Decimal.value first ≤ Decimal.value digits) :
      DenotesRange size (rangeText first last) (Decimal.value first)
        (min (Decimal.value digits) (size - 1))

/-- The positions that are read from a header are those that it asks for, and there are none when
it asks for none. -/
def ReadsRange (value : Bytes) (size : UInt64) : Prop :=
  ∀ start stop : UInt64, parseRangeHeader value size = some (start, stop) ↔
    DenotesRange size.toNat value start.toNat stop.toNat

/-! ## Numbers as `std::stoull` takes them -/

/-- The beginning of a text as a number: white space, a sign or none, and a run of digits of a
number below `2 ^ 64`, with anything but a digit after it. -/
structure LeadingNumber (text : Bytes) where
  blanks : Bytes
  sign : Bytes
  digits : Bytes
  rest : Bytes
  eq : text = blanks ++ (sign ++ (digits ++ rest))
  blank : Blank blanks
  signed : sign = [] ∨ sign = bytes "+" ∨ sign = bytes "-"
  number : IsNumber digits
  run : ∀ c cs, rest = c :: cs → Decimal.isDigit c = false

/-- The number, where a minus sign negates modulo `2 ^ 64`. -/
def LeadingNumber.value {text : Bytes} (n : LeadingNumber text) : ℕ :=
  if n.sign = bytes "-" then (2 ^ 64 - Decimal.value n.digits) % 2 ^ 64
  else Decimal.value n.digits

/-- A header with numbers as `std::stoull` takes them, if they are positions of a range in the
file, has digits before the dash, and digits or white space only after it. -/
def WritesDigits (value : Bytes) (size : UInt64) : Prop :=
  ∀ first last, value = rangeText first last → byte '-' ∉ first →
    ∀ start : LeadingNumber first, start.value < size.toNat →
      (Blank last ∨ ∃ stop : LeadingNumber last, start.value ≤ stop.value) →
        first.all Decimal.isDigit = true ∧
          ∃ digits, Padded last digits ∧ digits.all Decimal.isDigit = true

end Vtfs.Interface
