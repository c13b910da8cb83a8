import Vtfs.Interface.CanonicalBencode
import Vtfs.Analysis.BencodeRoundTrip

/-!
# Canonical texts are the encodings

The encoder produces canonical texts only, and produces all of them (`canonical_iff`).  Together
with the round trip: re-encoding what was read gives the bytes it was read from exactly when
these are canonical (`reencode_eq_iff`), and a whole text is canonical exactly when encoding
gives back what was parsed (`encode_decode_iff_canonical`).
-/

set_option autoImplicit false

namespace Vtfs.Analysis

open Vtfs.Library
open Vtfs.Library.Decimal (numeral signedNumeral value)
open Vtfs.Model
open Vtfs.Interface

/-! ## Encodings are canonical -/

/-- A number with its sign is canonical. -/
theorem canonicalInteger_signedNumeral (i : Int64) :
    CanonicalInteger (signedNumeral i.toInt) := by
  have hlow : -2 ^ 63 ≤ i.toInt := i.le_toInt
  have hhigh : i.toInt < 2 ^ 63 := i.toInt_lt
  unfold signedNumeral
  split
  · rename_i hneg
    refine Or.inr ⟨_, rfl, Decimal.numeral_canonical _, ?_, ?_⟩
    · rw [Decimal.value_numeral]; omega
    · rw [Decimal.value_numeral]; omega
  · refine Or.inl ⟨Decimal.numeral_canonical _, ?_⟩
    rw [Decimal.value_numeral]
    omega

/-- What is written for a string is canonical. -/
theorem canonicalString_encodeString (text : Bytes) :
    CanonicalString text (encodeString text) :=
  ⟨numeral text.length, Decimal.numeral_canonical _, Decimal.value_numeral _, rfl⟩

mutual

/-- The encoding of an ordered value is canonical. -/
theorem canonical_encodeBencode : (v : BencodeValue) → v.Ordered → Canonical (encodeBencode v)
  | .integer i, _ => .integer (canonicalInteger_signedNumeral i)
  | .string text, _ => .string (canonicalString_encodeString text)
  | .list items, h => .list (canonical_encodeItems items h)
  | .dictionary entries, h => .dictionary (canonical_encodeEntries entries h.1 h.2)

/-- So is what is written for items. -/
theorem canonical_encodeItems : (items : List BencodeValue) → OrderedItems items →
    CanonicalItems (encodeItems items)
  | [], _ => .nil
  | item :: items, h =>
      .cons (canonical_encodeBencode item h.1) (canonical_encodeItems items h.2)

/-- So is what is written for entries with ascending keys. -/
theorem canonical_encodeEntries : (entries : List (Bytes × BencodeValue)) →
    SortedMap.Ascending entries → OrderedEntries entries →
    CanonicalEntries (entries.map Prod.fst) (encodeEntries entries)
  | [], _, _ => .nil
  | (key, child) :: entries, hascending, hordered => by
      obtain ⟨hfirst, hrest⟩ := List.pairwise_cons.mp hascending
      refine .cons (canonicalString_encodeString key) (canonical_encodeBencode child hordered.1)
        (canonical_encodeEntries entries hrest hordered.2) fun k hk => ?_
      obtain ⟨entry, hentry, rfl⟩ := List.mem_map.mp hk
      exact hfirst entry hentry

end

/-! ## Canonical texts are encodings -/

/-- A canonical token is written for an integer of 64 bits. -/
theorem exists_signedNumeral {token : Bytes} (h : CanonicalInteger token) :
    ∃ i : Int64, token = signedNumeral i.toInt := by
  rcases h with ⟨hcanonical, hlt⟩ | ⟨digits, rfl, hcanonical, hpos, hle⟩
  · have htoInt : (Int64.ofInt (value token)).toInt = value token :=
      Int64.toInt_ofInt_of_le (by omega) (by omega)
    refine ⟨Int64.ofInt (value token), ?_⟩
    rw [htoInt, signedNumeral, if_neg (by omega), Int.natAbs_natCast,
      Decimal.numeral_value hcanonical]
  · have htoInt : (Int64.ofInt (-(value digits : ℤ))).toInt = -(value digits : ℤ) :=
      Int64.toInt_ofInt_of_le (by omega) (by omega)
    refine ⟨Int64.ofInt (-(value digits : ℤ)), ?_⟩
    rw [htoInt, signedNumeral, if_pos (by omega), Int.natAbs_neg, Int.natAbs_natCast,
      Decimal.numeral_value hcanonical]

/-- A canonical spelling of a string is the written one. -/
theorem eq_encodeString {text spelling : Bytes} (h : CanonicalString text spelling) :
    spelling = encodeString text := by
  obtain ⟨token, hcanonical, hvalue, rfl⟩ := h
  rw [encodeString, ← hvalue, Decimal.numeral_value hcanonical]

mutual

/-- A canonical text is the encoding of an ordered value. -/
theorem exists_encodeBencode {spelling : Bytes} :
    Canonical spelling → ∃ v : BencodeValue, v.Ordered ∧ spelling = encodeBencode v
  | .integer h => by
      obtain ⟨i, rfl⟩ := exists_signedNumeral h
      exact ⟨.integer i, trivial, rfl⟩
  | .string h => ⟨.string _, trivial, eq_encodeString h⟩
  | .list h => by
      obtain ⟨items, hordered, rfl⟩ := exists_encodeItems h
      exact ⟨.list items, hordered, rfl⟩
  | .dictionary h => by
      obtain ⟨entries, -, hascending, hordered, rfl⟩ := exists_encodeEntries h
      exact ⟨.dictionary entries, ⟨hascending, hordered⟩, rfl⟩

/-- Canonical items are written for items. -/
theorem exists_encodeItems {spelling : Bytes} :
    CanonicalItems spelling → ∃ items, OrderedItems items ∧ spelling = encodeItems items
  | .nil => ⟨[], trivial, rfl⟩
  | .cons hfirst hrest => by
      obtain ⟨item, hitem, rfl⟩ := exists_encodeBencode hfirst
      obtain ⟨items, hitems, rfl⟩ := exists_encodeItems hrest
      exact ⟨item :: items, ⟨hitem, hitems⟩, rfl⟩

/-- Canonical entries are written for entries, with their keys in order. -/
theorem exists_encodeEntries {keys : List Bytes} {spelling : Bytes} :
    CanonicalEntries keys spelling → ∃ entries : List (Bytes × BencodeValue),
      entries.map Prod.fst = keys ∧ SortedMap.Ascending entries ∧ OrderedEntries entries ∧
        spelling = encodeEntries entries
  | .nil => ⟨[], rfl, List.Pairwise.nil, trivial, rfl⟩
  | @CanonicalEntries.cons key _ _ _ _ hkey hvalue hrest hleast => by
      obtain rfl := eq_encodeString hkey
      obtain ⟨child, hchild, rfl⟩ := exists_encodeBencode hvalue
      obtain ⟨entries, rfl, hascending, hordered, rfl⟩ := exists_encodeEntries hrest
      refine ⟨(key, child) :: entries, rfl, List.pairwise_cons.mpr ⟨fun entry hentry => ?_,
        hascending⟩, ⟨hchild, hordered⟩, rfl⟩
      exact hleast entry.1 (List.mem_map_of_mem hentry)

end

/-- The canonical texts are the encodings of the values the program can hold. -/
theorem canonical_iff {spelling : Bytes} :
    Canonical spelling ↔ ∃ v : MappedValue, spelling = encodeBencode v.value := by
  constructor
  · intro h
    obtain ⟨v, hordered, rfl⟩ := exists_encodeBencode h
    exact ⟨⟨v, hordered⟩, rfl⟩
  · rintro ⟨v, rfl⟩
    exact canonical_encodeBencode v.value v.ordered

/-! ## What is read is ordered -/

/-- Entries are ordered when their values are. -/
theorem orderedEntries_iff {entries : List (Bytes × BencodeValue)} :
    OrderedEntries entries ↔ ∀ entry ∈ entries, entry.2.Ordered := by
  induction entries with
  | nil => simp [OrderedEntries]
  | cons entry entries ih =>
      obtain ⟨key, child⟩ := entry
      simp [OrderedEntries, ih]

mutual

/-- Every value that is read is one the program can hold. -/
theorem reads_ordered {s : Bytes} {p q : ℕ} {v : BencodeValue} : Reads s p v q → v.Ordered
  | .integer _ _ => trivial
  | .string _ => trivial
  | .list _ h => readsItems_ordered h
  | .dictionary _ h => by
      refine ⟨SortedMap.emplaceAll_ascending List.Pairwise.nil _,
        orderedEntries_iff.mpr fun entry hentry => ?_⟩
      have hmem := (SortedMap.mem_emplaceAll hentry).resolve_left List.not_mem_nil
      exact orderedEntries_iff.mp (readsEntries_ordered h) entry hmem

/-- Items that are read are ordered. -/
theorem readsItems_ordered {s : Bytes} {p q : ℕ} {items : List BencodeValue} :
    ReadsItems s p items q → OrderedItems items
  | .close _ => trivial
  | .item hv hrest => ⟨reads_ordered hv, readsItems_ordered hrest⟩

/-- The values of entries that are read are ordered. -/
theorem readsEntries_ordered {s : Bytes} {p q : ℕ} {entries : List (Bytes × BencodeValue)} :
    ReadsEntries s p entries q → OrderedEntries entries
  | .close _ => trivial
  | .entry _ hv hrest => ⟨reads_ordered hv, readsEntries_ordered hrest⟩

end

/-! ## Re-encoding -/

/-- **Re-encoding a value gives the bytes it was read from exactly when these are canonical.** -/
theorem reencode_eq_iff {input : StringView} {a b : ℕ} {v : BencodeValue}
    (h : Reads input.bytes a v b) :
    encodeBencode v = span input.bytes a b ↔ Canonical (span input.bytes a b) := by
  constructor
  · intro heq
    rw [← heq]
    exact canonical_encodeBencode v (reads_ordered h)
  · intro hcanonical
    obtain ⟨w, hordered, hw⟩ := exists_encodeBencode hcanonical
    have hsplit : input.bytes.drop a =
        encodeBencode w ++ (input.bytes.drop a).drop (b - a) := by
      rw [← hw, span, List.take_append_drop]
    have hread := reads_encodeBencode input.size_lt _ w hordered hsplit
    rw [(reads_unique h hread).1, hw]

/-- **Encoding undoes decoding exactly on canonical texts**, and these are the encodings.
SRCLINE: Bencode.cpp:19-161 -/
theorem encode_decode_iff_canonical :
    (∀ input : StringView,
      (∃ v, Parses input v ∧ encodeBencode v = input.bytes) ↔ Canonical input.bytes) ∧
    ∀ s : Bytes, Canonical s ↔ ∃ v : MappedValue, encodeBencode v.value = s := by
  refine ⟨fun input => ⟨?_, fun hcanonical => ?_⟩, fun s => ?_⟩
  · rintro ⟨v, hparses, heq⟩
    obtain ⟨q, -, hread⟩ := parses_iff.mp hparses
    rw [← heq]
    exact canonical_encodeBencode v (reads_ordered hread)
  · obtain ⟨v, hordered, heq⟩ := exists_encodeBencode hcanonical
    have hderives := derives_encodeBencode v hordered
    rw [← heq] at hderives
    exact ⟨v, parses_of_derives hderives, heq.symm⟩
  · rw [canonical_iff]
    exact exists_congr fun v => eq_comm

end Vtfs.Analysis
