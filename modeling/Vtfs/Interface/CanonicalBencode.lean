import Vtfs.Library.Decimal
import Mathlib.Data.List.Lex
import Mathlib.Data.List.Defs
import Mathlib.Order.Lex

/-!
# The canonical bencode grammar

Bencode allows one spelling of each value: integers and string lengths have no leading zero, zero
has no sign, and the keys of a dictionary are in strictly ascending byte order.  The grammar is
stated on texts alone; it names neither the parser nor the encoder.  Integers are 64-bit ones.
-/

set_option autoImplicit false

namespace Vtfs.Interface

open Vtfs.Library

/-- A canonical integer token in the range of 64 bits: no leading zero, no negative zero. -/
def CanonicalInteger (token : Bytes) : Prop :=
  (Decimal.Canonical token ∧ Decimal.value token < 2 ^ 63) ∨
    ∃ digits, token = byte '-' :: digits ∧ Decimal.Canonical digits ∧ 0 < Decimal.value digits ∧
      Decimal.value digits ≤ 2 ^ 63

/-- A canonical spelling of the string `text`. -/
def CanonicalString (text spelling : Bytes) : Prop :=
  ∃ token, Decimal.Canonical token ∧ Decimal.value token = text.length ∧
    spelling = token ++ byte ':' :: text

mutual

/-- A canonical spelling of a value. -/
inductive Canonical : Bytes → Prop
  | integer {token : Bytes} :
      CanonicalInteger token → Canonical (byte 'i' :: (token ++ [byte 'e']))
  | string {text spelling : Bytes} : CanonicalString text spelling → Canonical spelling
  | list {spelling : Bytes} :
      CanonicalItems spelling → Canonical (byte 'l' :: (spelling ++ [byte 'e']))
  | dictionary {keys : List Bytes} {spelling : Bytes} :
      CanonicalEntries keys spelling → Canonical (byte 'd' :: (spelling ++ [byte 'e']))

/-- Canonical spellings, one after the other. -/
inductive CanonicalItems : Bytes → Prop
  | nil : CanonicalItems []
  | cons {first rest : Bytes} :
      Canonical first → CanonicalItems rest → CanonicalItems (first ++ rest)

/-- Keys in strictly ascending order, each with a value. -/
inductive CanonicalEntries : List Bytes → Bytes → Prop
  | nil : CanonicalEntries [] []
  | cons {key : Bytes} {keys : List Bytes} {spelling value rest : Bytes} :
      CanonicalString key spelling → Canonical value → CanonicalEntries keys rest →
      (∀ k ∈ keys, key < k) → CanonicalEntries (key :: keys) (spelling ++ value ++ rest)

end

end Vtfs.Interface
