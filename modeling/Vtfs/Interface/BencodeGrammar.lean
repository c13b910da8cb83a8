import Vtfs.Interface.BencodeReading

/-!
# The lenient bencode grammar

`Derives spelling v` is the grammar the parser is meant to accept, on texts alone: integers and
lengths may have leading zeros, the keys of a dictionary come in any order and may repeat, and
a string has exactly as many bytes as its header says.

`Wraps s p q` is the one way in which the parser leaves the grammar: a reading from `p` to `q`
that comes to a string whose end, as a natural number, does not fit a `std::size_t`.
-/

set_option autoImplicit false

namespace Vtfs.Interface

open Vtfs.Library
open Vtfs.Library.Decimal (isDigit value)
open Vtfs.Model

/-- One or more decimal digits. -/
structure IsNumeral (token : Bytes) : Prop where
  nonempty : token ≠ []
  digits : token.all isDigit = true

/-- An optional minus sign and one or more digits, with the number they spell. -/
inductive SpellsInteger : Bytes → ℤ → Prop
  | plain {digits : Bytes} : IsNumeral digits → SpellsInteger digits (value digits)
  | negative {digits : Bytes} :
      IsNumeral digits → SpellsInteger (byte '-' :: digits) (-(value digits : ℤ))

/-- A length in digits, a colon and exactly that many bytes. -/
def SpellsString (spelling text : Bytes) : Prop :=
  ∃ token, IsNumeral token ∧ value token = text.length ∧ spelling = token ++ byte ':' :: text

mutual

/-- A spelling of a value.  A number outside the range of 64 bits is the number of no `Int64`. -/
inductive Derives : Bytes → BencodeValue → Prop
  | integer {token : Bytes} {i : Int64} :
      SpellsInteger token i.toInt → Derives (byte 'i' :: (token ++ [byte 'e'])) (.integer i)
  | string {spelling text : Bytes} : SpellsString spelling text → Derives spelling (.string text)
  | list {spelling : Bytes} {items : List BencodeValue} :
      DerivesItems spelling items → Derives (byte 'l' :: (spelling ++ [byte 'e'])) (.list items)
  -- of several entries with one key the map keeps the first
  | dictionary {spelling : Bytes} {entries : List (Bytes × BencodeValue)} :
      DerivesEntries spelling entries →
      Derives (byte 'd' :: (spelling ++ [byte 'e']))
        (.dictionary (SortedMap.emplaceAll [] entries))

/-- Spellings of the items of a list, one after the other. -/
inductive DerivesItems : Bytes → List BencodeValue → Prop
  | nil : DerivesItems [] []
  | cons {first rest : Bytes} {v : BencodeValue} {items : List BencodeValue} :
      Derives first v → DerivesItems rest items → DerivesItems (first ++ rest) (v :: items)

/-- Spellings of the entries of a dictionary, each a string and a value. -/
inductive DerivesEntries : Bytes → List (Bytes × BencodeValue) → Prop
  | nil : DerivesEntries [] []
  | cons {first second rest key : Bytes} {v : BencodeValue}
      {entries : List (Bytes × BencodeValue)} :
      SpellsString first key → Derives second v → DerivesEntries rest entries →
      DerivesEntries (first ++ (second ++ rest)) ((key, v) :: entries)

end

/-- A string header at `p` whose end is past the largest `std::size_t`: reading goes on at what
is left of the end modulo `sizeLimit`. -/
def WrapsString (s : Bytes) (p q : ℕ) : Prop :=
  ∃ token, HeaderAt s p token ∧ sizeLimit ≤ headerEnd p token + value token ∧
    q = (headerEnd p token + value token) % sizeLimit

mutual

/-- Reading a value from `p` to `q` comes to a string whose end wraps. -/
inductive Wraps (s : Bytes) : ℕ → ℕ → Prop
  | string {p q : ℕ} : WrapsString s p q → Wraps s p q
  | list {p q : ℕ} : s[p]? = some (byte 'l') → WrapsItems s (p + 1) q → Wraps s p q
  | dictionary {p q : ℕ} : s[p]? = some (byte 'd') → WrapsEntries s (p + 1) q → Wraps s p q

/-- Reading the items of a list from `p` to `q` comes to a string whose end wraps. -/
inductive WrapsItems (s : Bytes) : ℕ → ℕ → Prop
  | here {p q r : ℕ} {items : List BencodeValue} :
      Wraps s p q → ReadsItems s q items r → WrapsItems s p r
  | later {p q r : ℕ} {v : BencodeValue} :
      Reads s p v q → WrapsItems s q r → WrapsItems s p r

/-- Reading the entries of a dictionary from `p` to `q` comes to a string whose end wraps. -/
inductive WrapsEntries (s : Bytes) : ℕ → ℕ → Prop
  | key {p q r t : ℕ} {v : BencodeValue} {entries : List (Bytes × BencodeValue)} :
      WrapsString s p q → Reads s q v r → ReadsEntries s r entries t → WrapsEntries s p t
  | child {p q r t : ℕ} {key : Bytes} {entries : List (Bytes × BencodeValue)} :
      ReadsString s p key q → Wraps s q r → ReadsEntries s r entries t → WrapsEntries s p t
  | later {p q r t : ℕ} {key : Bytes} {v : BencodeValue} :
      ReadsString s p key q → Reads s q v r → WrapsEntries s r t → WrapsEntries s p t

end

/-! ## First bytes -/

/-- A string begins with a digit. -/
theorem WrapsString.first {s : Bytes} {p q : ℕ} (h : WrapsString s p q) :
    ∃ c, s[p]? = some c ∧ isDigit c = true :=
  h.elim fun _ hwraps => hwraps.1.first

/-- The first byte of a reading whose end wraps decides what is read. -/
theorem Wraps.cases_first {s : Bytes} {p q : ℕ} {c : UInt8} (h : Wraps s p q)
    (hc : s[p]? = some c) :
    (isDigit c = true ∧ WrapsString s p q) ∨
      (c = byte 'l' ∧ WrapsItems s (p + 1) q) ∨ (c = byte 'd' ∧ WrapsEntries s (p + 1) q) := by
  cases h with
  | string hstring =>
      obtain ⟨c', hc', hdigit⟩ := hstring.first
      obtain rfl : c' = c := Option.some.inj (hc'.symm.trans hc)
      exact Or.inl ⟨hdigit, hstring⟩
  | list hl hitems => exact Or.inr (Or.inl ⟨Option.some.inj (hc.symm.trans hl), hitems⟩)
  | dictionary hd hentries =>
      exact Or.inr (Or.inr ⟨Option.some.inj (hc.symm.trans hd), hentries⟩)

/-- No reading starts at a letter that closes a list or a dictionary. -/
theorem not_wraps_of_close {s : Bytes} {p q : ℕ} (hc : s[p]? = some (byte 'e')) :
    ¬ Wraps s p q := by
  intro h
  rcases h.cases_first hc with ⟨hdigit, -⟩ | ⟨hl, -⟩ | ⟨hd, -⟩
  · exact absurd hdigit (by decide)
  · exact absurd hl (by decide)
  · exact absurd hd (by decide)

/-! ## Tokens -/

/-- The stop is not part of the token of an integer. -/
theorem SpellsInteger.stop_not_mem {token : Bytes} {v : ℤ} (h : SpellsInteger token v) :
    byte 'e' ∉ token := by
  cases h with
  | plain hnumeral => exact Decimal.not_mem_of_all_isDigit hnumeral.digits (by decide)
  | negative hnumeral =>
      have hdigits := Decimal.not_mem_of_all_isDigit (c := byte 'e') hnumeral.digits (by decide)
      exact fun hmem => (List.mem_cons.mp hmem).elim (by decide) hdigits

end Vtfs.Interface
