import Vtfs.Analysis.BencodeGrammar

/-!
# Decoding undoes encoding

An encoding is one of the spellings of its value in the lenient grammar
(`derives_encodeBencode`).  So, with any bytes before and after it, it is read back as the value
it encodes, and the reading ends where the encoding ends (`reads_encodeBencode`).
-/

set_option autoImplicit false

namespace Vtfs.Analysis

open Vtfs.Library
open Vtfs.Library.Fueled
open Vtfs.Library.Decimal (numeral signedNumeral value)
open Vtfs.Model
open Vtfs.Interface

/-! ## Encodings are read back -/

/-- A number is spelled with its sign. -/
theorem spellsInteger_signedNumeral (i : ℤ) : SpellsInteger (signedNumeral i) i := by
  have hnumeral : IsNumeral (numeral i.natAbs) :=
    ⟨Decimal.numeral_ne_nil _, Decimal.numeral_all_isDigit _⟩
  unfold signedNumeral
  split
  · rename_i hneg
    have h := SpellsInteger.negative hnumeral
    rwa [Decimal.value_numeral, ← Int.abs_eq_natAbs, abs_of_neg hneg, neg_neg] at h
  · rename_i hpos
    have h := SpellsInteger.plain hnumeral
    rwa [Decimal.value_numeral, ← Int.abs_eq_natAbs, abs_of_nonneg (not_lt.mp hpos)] at h

/-- What is written for a string spells it. -/
theorem spellsString_encodeString (text : Bytes) : SpellsString (encodeString text) text :=
  ⟨numeral text.length, ⟨Decimal.numeral_ne_nil _, Decimal.numeral_all_isDigit _⟩,
    Decimal.value_numeral _, rfl⟩

mutual

/-- An encoding is a spelling of the value it encodes. -/
theorem derives_encodeBencode : (v : BencodeValue) → v.Ordered → Derives (encodeBencode v) v
  | .integer i, _ => .integer (spellsInteger_signedNumeral i.toInt)
  | .string text, _ => .string (spellsString_encodeString text)
  | .list items, hordered => .list (derivesItems_encodeItems items hordered)
  | .dictionary entries, hordered => by
      have h := Derives.dictionary (derivesEntries_encodeEntries entries hordered.2)
      rwa [SortedMap.emplaceAll_of_ascending hordered.1] at h

/-- What is written for items spells them. -/
theorem derivesItems_encodeItems : (items : List BencodeValue) → OrderedItems items →
    DerivesItems (encodeItems items) items
  | [], _ => .nil
  | item :: items, hordered =>
      .cons (derives_encodeBencode item hordered.1) (derivesItems_encodeItems items hordered.2)

/-- What is written for entries in order spells them. -/
theorem derivesEntries_encodeEntries : (entries : List (Bytes × BencodeValue)) →
    OrderedEntries entries → DerivesEntries (encodeEntries entries) entries
  | [], _ => .nil
  | (key, child) :: entries, hordered => by
      have h := DerivesEntries.cons (spellsString_encodeString key)
        (derives_encodeBencode child hordered.1) (derivesEntries_encodeEntries entries hordered.2)
      rwa [← List.append_assoc] at h

end

/-- **An encoding is read back**, with any bytes after it and at any position. -/
theorem reads_encodeBencode {s : Bytes} (hsize : s.length < sizeLimit) {p : ℕ} (after : Bytes)
    (v : BencodeValue) (hordered : v.Ordered) (h : s.drop p = encodeBencode v ++ after) :
    Reads s p v (p + (encodeBencode v).length) :=
  reads_of_derives hsize (derives_encodeBencode v hordered) h

/-! ## The parser on an encoding -/

/-- `parseValue`, started at the first byte of an encoding, returns its value and stops at its
end. -/
theorem returns_encodeBencode (v : MappedValue) {before after : Bytes}
    (hsize : (before ++ encodeBencode v.value ++ after).length < sizeLimit) :
    Returns (parseValue ⟨before ++ encodeBencode v.value ++ after, hsize⟩) before.length v.value
      (before.length + (encodeBencode v.value).length) := by
  refine returns_of_reads (reads_encodeBencode hsize after v.value v.ordered ?_)
  rw [List.append_assoc, List.drop_left]

/-- An encoding that starts another one is the other one, and encodes the same value. -/
theorem encodeBencode_prefixFree {v w : MappedValue}
    (hsize : (encodeBencode w.value).length < sizeLimit)
    (h : encodeBencode v.value <+: encodeBencode w.value) : v.value = w.value := by
  obtain ⟨rest, hrest⟩ := h
  let input : StringView := ⟨encodeBencode w.value, hsize⟩
  have hv : Reads input.bytes 0 v.value _ :=
    reads_encodeBencode hsize rest v.value v.ordered hrest.symm
  have hw : Reads input.bytes 0 w.value _ :=
    reads_encodeBencode hsize [] w.value w.ordered (by simp)
  exact (reads_unique hv hw).1

/-- **Decoding undoes encoding.**  Parsing an encoding returns its value; `parseValue` started at
an encoding between any bytes returns its value and stops exactly at its end; and no encoding is
a proper prefix of another.
SRCLINE: Bencode.cpp:19-161 -/
theorem decode_encode (v : MappedValue) (hsize : (encodeBencode v.value).length < sizeLimit) :
    (∃ fuel, ∀ m, fuel ≤ m → ∃ t, parse ⟨encodeBencode v.value, hsize⟩ m = .value v.value t) ∧
    (∀ (before after : Bytes)
        (hwhole : (before ++ encodeBencode v.value ++ after).length < sizeLimit),
      ∃ fuel, ∀ m, fuel ≤ m → ∀ s : ParserState, s.pos = before.length → ∃ t,
        parseValue ⟨before ++ encodeBencode v.value ++ after, hwhole⟩ m s = .value v.value t ∧
          t.pos = before.length + (encodeBencode v.value).length) ∧
    (∀ w : MappedValue, encodeBencode w.value <+: encodeBencode v.value →
      encodeBencode w.value = encodeBencode v.value) := by
  refine ⟨?_, fun before after hwhole => returns_encodeBencode v hwhole, fun w hw => ?_⟩
  · let input : StringView := ⟨encodeBencode v.value, hsize⟩
    have hread : Reads input.bytes 0 v.value (0 + (encodeBencode v.value).length) :=
      reads_encodeBencode hsize [] v.value v.ordered (by simp)
    exact parse_of_reads (by simp) hread
  · rw [encodeBencode_prefixFree hsize hw]

/-- A dictionary with the least integer and a string that looks like a token. -/
def nestedValue : MappedValue where
  value := .dictionary [(bytes "k", .list [.integer Int64.minValue, .string (bytes "1:e")])]
  ordered := ⟨List.pairwise_singleton _ _, ⟨trivial, trivial, trivial⟩, trivial⟩

/-- A dictionary with a list in it. -/
theorem decode_encode_nestedValue :
    ∃ fuel, ∀ m, fuel ≤ m → ∃ t,
      parse ⟨encodeBencode nestedValue.value, by decide +kernel⟩ m = .value nestedValue.value t :=
  (decode_encode nestedValue (by decide +kernel)).1

end Vtfs.Analysis
