import Vtfs.Interface.BencodeGrammar
import Vtfs.Analysis.BencodeAdequacy

/-!
# The parser and its grammar

A spelling of a value, with any bytes before and after it, is read as that value, and in no
other way (`reads_of_derives`, `not_wraps_of_derives`).  A reading that comes to no string whose
end wraps has read a spelling of its value (`derives_of_reads`).  So the parser accepts exactly
the grammar, except on the texts that are read to their end by a string whose end wraps.
-/

set_option autoImplicit false

namespace Vtfs.Analysis

open Vtfs.Library
open Vtfs.Library.Decimal (fromCharsSigned isDigit value)
open Vtfs.Model
open Vtfs.Interface

/-! ## Integers -/

/-- `std::from_chars` takes a token whole exactly when it spells a number of 64 bits. -/
theorem fromCharsSigned_iff_spells {token : Bytes} {v : ℤ} :
    fromCharsSigned (2 ^ 63) token = some (v, token.length) ↔
      SpellsInteger token v ∧ -2 ^ 63 ≤ v ∧ v < 2 ^ 63 := by
  rw [Decimal.fromCharsSigned_eq_iff]
  constructor
  · rintro (⟨digits, rfl, hne, hdigits, rfl, hle⟩ | ⟨hne, hdigits, rfl, hlt⟩)
    · exact ⟨.negative ⟨hne, hdigits⟩, by omega, by omega⟩
    · exact ⟨.plain ⟨hne, hdigits⟩, by omega, by omega⟩
  · rintro ⟨hspells, hlow, hhigh⟩
    cases hspells with
    | plain hnumeral => exact Or.inr ⟨hnumeral.nonempty, hnumeral.digits, rfl, by omega⟩
    | negative hnumeral =>
        exact Or.inl ⟨_, rfl, hnumeral.nonempty, hnumeral.digits, rfl, by omega⟩

section Readings

variable {s : Bytes} {p q : ℕ}

/-- An integer that is spelled is read, up to the end of its spelling. -/
theorem readsInteger_of_spells {token after : Bytes} {i : Int64}
    (hspells : SpellsInteger token i.toInt)
    (h : s.drop p = byte 'i' :: (token ++ byte 'e' :: after)) :
    ReadsInteger s p i (p + 1 + token.length + 1) :=
  ⟨token, after, i.toInt, drop_of_cons h, hspells.stop_not_mem,
    fromCharsSigned_iff_spells.mpr ⟨hspells, i.le_toInt, i.toInt_lt⟩,
    (Int64.ofInt_toInt i).symm, rfl⟩

/-- An integer that is read is spelled there. -/
theorem spells_of_readsInteger {i : Int64} (hp : s[p]? = some (byte 'i'))
    (h : ReadsInteger s p i q) : ∃ token, SpellsInteger token i.toInt ∧
      s.drop p = byte 'i' :: (token ++ [byte 'e']) ++ s.drop q := by
  obtain ⟨token, rest, v, hrest, -, hchars, rfl, rfl⟩ := h
  obtain ⟨hspells, hlow, hhigh⟩ := fromCharsSigned_iff_spells.mp hchars
  have hv : (Int64.ofInt v).toInt = v := Int64.toInt_ofInt_of_le (by omega) (by omega)
  have hafter : s.drop (p + 1 + token.length + 1) = rest :=
    drop_of_cons (drop_of_append token hrest)
  refine ⟨token, by rwa [hv], ?_⟩
  rw [drop_of_getElem? hp, hrest, hafter]
  simp

/-! ## Strings -/

/-- A length that is spelled before a text is its header, and the text is there. -/
theorem headerAt_of_spells {token text after : Bytes} (hsize : s.length < sizeLimit)
    (hnumeral : IsNumeral token) (hvalue : value token = text.length)
    (h : s.drop p = (token ++ byte ':' :: text) ++ after) :
    HeaderAt s p token ∧ headerEnd p token + value token ≤ s.length := by
  have hend := length_of_drop h (by simp)
  simp only [List.length_append, List.length_cons] at hend
  refine ⟨⟨⟨text ++ after, by simpa using h⟩, hnumeral.nonempty, hnumeral.digits, ?_⟩, ?_⟩
  · omega
  · unfold headerEnd
    omega

/-- A string that is spelled is read, up to the end of its spelling. -/
theorem readsString_of_spells {spelling text after : Bytes} (hsize : s.length < sizeLimit)
    (hspells : SpellsString spelling text) (h : s.drop p = spelling ++ after) :
    ReadsString s p text (p + spelling.length) := by
  obtain ⟨token, hnumeral, hvalue, rfl⟩ := hspells
  obtain ⟨hheader, hend⟩ := headerAt_of_spells hsize hnumeral hvalue h
  have htext : s.drop (headerEnd p token) = text ++ after := by
    have hsplit : s.drop p = (token ++ [byte ':']) ++ (text ++ after) := by simpa using h
    have hdrop := drop_of_append _ hsplit
    rwa [List.length_append, ← Nat.add_assoc] at hdrop
  have hwhole : p + (token ++ byte ':' :: text).length = headerEnd p token + value token := by
    rw [hvalue, List.length_append, List.length_cons, headerEnd]
    omega
  refine ⟨token, hheader, ?_, by omega, ?_⟩
  · rw [hwhole, Nat.mod_eq_of_lt (by omega)]
  · rw [htext, hvalue, List.take_left]

/-- The length of a spelled string does not wrap around. -/
theorem not_wrapsString_of_spells {spelling text after : Bytes} (hsize : s.length < sizeLimit)
    (hspells : SpellsString spelling text) (h : s.drop p = spelling ++ after) :
    ¬ WrapsString s p q := by
  rintro ⟨token', hheader', hwraps, -⟩
  obtain ⟨token, hnumeral, hvalue, rfl⟩ := hspells
  obtain ⟨hheader, hend⟩ := headerAt_of_spells hsize hnumeral hvalue h
  obtain rfl := hheader.unique hheader'
  omega

/-- A string whose end does not wrap has exactly the length its header says. -/
theorem spells_of_readsString {text : Bytes} (h : ReadsString s p text q)
    (hwraps : ¬ WrapsString s p q) :
    ∃ spelling, SpellsString spelling text ∧ s.drop p = spelling ++ s.drop q := by
  obtain ⟨token, hheader, hq, hle, rfl⟩ := h
  have hfits : headerEnd p token + value token < sizeLimit := by
    by_contra hge
    exact hwraps ⟨token, hheader, not_lt.mp hge, hq⟩
  rw [Nat.mod_eq_of_lt hfits] at hq
  obtain ⟨rest, hrest⟩ := hheader.split
  have hbody : s.drop (headerEnd p token) = rest :=
    drop_of_cons (drop_of_append token hrest)
  have hlength := congrArg List.length hbody
  rw [List.length_drop] at hlength
  refine ⟨_, ⟨token, ⟨hheader.nonempty, hheader.digits⟩, ?_, rfl⟩, ?_⟩
  · rw [hbody, List.length_take]
    omega
  · rw [hq, ← List.drop_drop, hbody, hrest, List.append_assoc, List.cons_append,
      List.take_append_drop]

end Readings

/-! ## A spelling is read -/

section Brackets

variable {s inner after : Bytes} {p : ℕ} {first last : UInt8}

/-- What is left of the text at a spelling between two letters. -/
theorem drop_of_brackets (h : s.drop p = first :: (inner ++ [last]) ++ after) :
    s.drop p = first :: (inner ++ last :: after) := by
  simpa using h

/-- A list or dictionary takes two characters more than what is in it. -/
theorem length_of_brackets :
    p + (first :: (inner ++ [last])).length = p + 1 + inner.length + 1 := by
  simp only [List.length_cons, List.length_append, List.length_nil]
  omega

end Brackets

mutual

/-- **A spelling is read as the value it spells**, with any bytes after it. -/
theorem reads_of_derives {s : Bytes} (hsize : s.length < sizeLimit) {p : ℕ}
    {spelling after : Bytes} {v : BencodeValue} :
    Derives spelling v → s.drop p = spelling ++ after → Reads s p v (p + spelling.length)
  | .integer hspells, h => by
      have htoken := drop_of_brackets h
      rw [length_of_brackets]
      exact .integer (getElem?_of_drop htoken) (readsInteger_of_spells hspells htoken)
  | .string hspells, h => .string (readsString_of_spells hsize hspells h)
  | .list hitems, h => by
      have hopen := drop_of_brackets h
      rw [length_of_brackets]
      exact .list (getElem?_of_drop hopen)
        (readsItems_of_derives hsize hitems (drop_of_cons hopen))
  | .dictionary hentries, h => by
      have hopen := drop_of_brackets h
      rw [length_of_brackets]
      exact .dictionary (getElem?_of_drop hopen)
        (readsEntries_of_derives hsize hentries (drop_of_cons hopen))

/-- Items that are spelled are read. -/
theorem readsItems_of_derives {s : Bytes} (hsize : s.length < sizeLimit) {p : ℕ}
    {spelling after : Bytes} {items : List BencodeValue} :
    DerivesItems spelling items → s.drop p = spelling ++ byte 'e' :: after →
      ReadsItems s p items (p + spelling.length + 1)
  | .nil, h => .close (getElem?_of_drop h)
  | .cons hfirst hrest, h => by
      rw [List.append_assoc] at h
      rw [List.length_append, ← Nat.add_assoc]
      exact .item (reads_of_derives hsize hfirst h)
        (readsItems_of_derives hsize hrest (drop_of_append _ h))

/-- Entries that are spelled are read. -/
theorem readsEntries_of_derives {s : Bytes} (hsize : s.length < sizeLimit) {p : ℕ}
    {spelling after : Bytes} {entries : List (Bytes × BencodeValue)} :
    DerivesEntries spelling entries → s.drop p = spelling ++ byte 'e' :: after →
      ReadsEntries s p entries (p + spelling.length + 1)
  | .nil, h => .close (getElem?_of_drop h)
  | .cons hkey hfirst hrest, h => by
      rw [List.append_assoc, List.append_assoc] at h
      have hafter := drop_of_append _ h
      rw [List.length_append, List.length_append, ← Nat.add_assoc, ← Nat.add_assoc]
      exact .entry (readsString_of_spells hsize hkey h) (reads_of_derives hsize hfirst hafter)
        (readsEntries_of_derives hsize hrest (drop_of_append _ hafter))

end

/-! ## A spelling is read in no other way -/

section Unwrapped

variable {input : StringView}

/-- The item that is read at a spelling of a value ends where the spelling ends. -/
theorem end_of_derives {p q : ℕ} {spelling after : Bytes} {v w : BencodeValue}
    (h : Derives spelling v) (hsplit : input.bytes.drop p = spelling ++ after)
    (hread : Reads input.bytes p w q) : q = p + spelling.length :=
  (reads_unique hread (reads_of_derives input.size_lt h hsplit)).2

/-- Where a string is spelled, reading one ends at its end. -/
theorem end_of_spells {p q : ℕ} {spelling after text text' : Bytes}
    (h : SpellsString spelling text) (hsplit : input.bytes.drop p = spelling ++ after)
    (hread : ReadsString input.bytes p text' q) : q = p + spelling.length :=
  (reads_unique (.string hread)
    (.string (readsString_of_spells input.size_lt h hsplit))).2

mutual

/-- **Reading a spelling comes to no string whose end wraps.** -/
theorem not_wraps_of_derives {p q : ℕ} {spelling after : Bytes} {v : BencodeValue} :
    Derives spelling v → input.bytes.drop p = spelling ++ after → ¬ Wraps input.bytes p q
  | .integer _, h, hwraps => by
      rcases hwraps.cases_first (getElem?_of_drop h) with ⟨hdigit, -⟩ | ⟨hl, -⟩ | ⟨hd, -⟩
      · exact absurd hdigit (by decide)
      · exact absurd hl (by decide)
      · exact absurd hd (by decide)
  | .string hspells, h, hwraps => by
      obtain ⟨token, hnumeral, hvalue, rfl⟩ := id hspells
      obtain ⟨c, hc, hdigit⟩ := (headerAt_of_spells input.size_lt hnumeral hvalue h).1.first
      rcases hwraps.cases_first hc with ⟨-, hstring⟩ | ⟨rfl, -⟩ | ⟨rfl, -⟩
      · exact not_wrapsString_of_spells input.size_lt hspells h hstring
      · exact absurd hdigit (by decide)
      · exact absurd hdigit (by decide)
  | .list hitems, h, hwraps => by
      have hopen := drop_of_brackets h
      rcases hwraps.cases_first (getElem?_of_drop hopen) with ⟨hdigit, -⟩ | ⟨-, hw⟩ | ⟨hd, -⟩
      · exact absurd hdigit (by decide)
      · exact not_wrapsItems_of_derives hitems (drop_of_cons hopen) hw
      · exact absurd hd (by decide)
  | .dictionary hentries, h, hwraps => by
      have hopen := drop_of_brackets h
      rcases hwraps.cases_first (getElem?_of_drop hopen) with ⟨hdigit, -⟩ | ⟨hl, -⟩ | ⟨-, hw⟩
      · exact absurd hdigit (by decide)
      · exact absurd hl (by decide)
      · exact not_wrapsEntries_of_derives hentries (drop_of_cons hopen) hw

/-- No length in the items that are spelled wraps around. -/
theorem not_wrapsItems_of_derives {p q : ℕ} {spelling after : Bytes}
    {items : List BencodeValue} :
    DerivesItems spelling items → input.bytes.drop p = spelling ++ byte 'e' :: after →
      ¬ WrapsItems input.bytes p q
  | .nil, h, hwraps => by
      have hclose := getElem?_of_drop h
      cases hwraps with
      | here hw _ => exact not_wraps_of_close hclose hw
      | later hread _ =>
          obtain ⟨c, hc, hne⟩ := hread.first
          exact hne (Option.some.inj (hc.symm.trans hclose))
  | .cons hfirst hrest, h, hwraps => by
      rw [List.append_assoc] at h
      cases hwraps with
      | here hw _ => exact not_wraps_of_derives hfirst h hw
      | later hread hw =>
          obtain rfl := end_of_derives hfirst h hread
          exact not_wrapsItems_of_derives hrest (drop_of_append _ h) hw

/-- No length in the entries that are spelled wraps around. -/
theorem not_wrapsEntries_of_derives {p q : ℕ} {spelling after : Bytes}
    {entries : List (Bytes × BencodeValue)} :
    DerivesEntries spelling entries → input.bytes.drop p = spelling ++ byte 'e' :: after →
      ¬ WrapsEntries input.bytes p q
  | .nil, h, hwraps => by
      have hclose := getElem?_of_drop h
      have hdigit : ∀ c, input.bytes[p]? = some c → isDigit c = true → False := by
        intro c hc hdigit
        obtain rfl : c = byte 'e' := Option.some.inj (hc.symm.trans hclose)
        exact absurd hdigit (by decide)
      cases hwraps with
      | key hw _ _ => exact hw.first.elim fun c hc => hdigit c hc.1 hc.2
      | child hkey _ _ =>
          obtain ⟨token, hheader, -⟩ := hkey
          exact hheader.first.elim fun c hc => hdigit c hc.1 hc.2
      | later hkey _ _ =>
          obtain ⟨token, hheader, -⟩ := hkey
          exact hheader.first.elim fun c hc => hdigit c hc.1 hc.2
  | .cons hkey hfirst hrest, h, hwraps => by
      rw [List.append_assoc, List.append_assoc] at h
      have hafter := drop_of_append _ h
      cases hwraps with
      | key hw _ _ => exact not_wrapsString_of_spells input.size_lt hkey h hw
      | child hread hw _ =>
          obtain rfl := end_of_spells hkey h hread
          exact not_wraps_of_derives hfirst hafter hw
      | later hread hvalue hw =>
          obtain rfl := end_of_spells hkey h hread
          obtain rfl := end_of_derives hfirst hafter hvalue
          exact not_wrapsEntries_of_derives hrest (drop_of_append _ hafter) hw

end

end Unwrapped

/-! ## What is read without wrapping is a spelling -/

section Spellings

variable {s : Bytes}

mutual

/-- **What is read without wrapping is a spelling of its value.** -/
theorem derives_of_reads {p q : ℕ} {v : BencodeValue} :
    Reads s p v q → ¬ Wraps s p q →
      ∃ spelling, Derives spelling v ∧ s.drop p = spelling ++ s.drop q
  | .integer hp hread, _ => by
      obtain ⟨token, hspells, hsplit⟩ := spells_of_readsInteger hp hread
      exact ⟨_, .integer hspells, hsplit⟩
  | .string hread, hwraps => by
      obtain ⟨spelling, hspells, hsplit⟩ :=
        spells_of_readsString hread fun h => hwraps (.string h)
      exact ⟨spelling, .string hspells, hsplit⟩
  | .list hp hread, hwraps => by
      obtain ⟨spelling, hitems, hsplit⟩ :=
        derivesItems_of_reads hread fun h => hwraps (.list hp h)
      refine ⟨_, .list hitems, ?_⟩
      rw [drop_of_getElem? hp, hsplit]
      simp
  | .dictionary hp hread, hwraps => by
      obtain ⟨spelling, hentries, hsplit⟩ :=
        derivesEntries_of_reads hread fun h => hwraps (.dictionary hp h)
      refine ⟨_, .dictionary hentries, ?_⟩
      rw [drop_of_getElem? hp, hsplit]
      simp

/-- Items that are read without a wrap are spelled there. -/
theorem derivesItems_of_reads {p q : ℕ} {items : List BencodeValue} :
    ReadsItems s p items q → ¬ WrapsItems s p q →
      ∃ spelling, DerivesItems spelling items ∧ s.drop p = spelling ++ byte 'e' :: s.drop q
  | .close hp, _ => ⟨[], .nil, drop_of_getElem? hp⟩
  | .item hfirst hrest, hwraps => by
      obtain ⟨first, hderives, hsplit⟩ :=
        derives_of_reads hfirst fun h => hwraps (.here h hrest)
      obtain ⟨rest, hitems, hafter⟩ :=
        derivesItems_of_reads hrest fun h => hwraps (.later hfirst h)
      refine ⟨_, .cons hderives hitems, ?_⟩
      rw [hsplit, hafter, List.append_assoc]

/-- Entries that are read without a wrap are spelled there. -/
theorem derivesEntries_of_reads {p q : ℕ} {entries : List (Bytes × BencodeValue)} :
    ReadsEntries s p entries q → ¬ WrapsEntries s p q →
      ∃ spelling, DerivesEntries spelling entries ∧
        s.drop p = spelling ++ byte 'e' :: s.drop q
  | .close hp, _ => ⟨[], .nil, drop_of_getElem? hp⟩
  | .entry hkey hfirst hrest, hwraps => by
      obtain ⟨key, hspells, hstart⟩ :=
        spells_of_readsString hkey fun h => hwraps (.key h hfirst hrest)
      obtain ⟨first, hderives, hsplit⟩ :=
        derives_of_reads hfirst fun h => hwraps (.child hkey h hrest)
      obtain ⟨rest, hentries, hafter⟩ :=
        derivesEntries_of_reads hrest fun h => hwraps (.later hkey hfirst h)
      refine ⟨_, .cons hspells hderives hentries, ?_⟩
      rw [hstart, hsplit, hafter, List.append_assoc, List.append_assoc]

end

end Spellings

/-! ## What is read by wrapping -/

section WrappedReadings

variable {s : Bytes}

/-- A string whose length wraps around is read. -/
theorem readsString_of_wraps (hsize : s.length < sizeLimit) {p q : ℕ} (h : WrapsString s p q) :
    ∃ text, ReadsString s p text q := by
  obtain ⟨token, hheader, hwraps, rfl⟩ := h
  have hend := hheader.headerEnd_le
  have hfits := hheader.fits
  refine ⟨_, token, hheader, rfl, ?_, rfl⟩
  rw [Nat.mod_eq_sub_mod hwraps, Nat.mod_eq_of_lt (by omega)]
  omega

mutual

/-- A value in which a length wraps around is read. -/
theorem reads_of_wraps (hsize : s.length < sizeLimit) {p q : ℕ} :
    Wraps s p q → ∃ v, Reads s p v q
  | .string h => by
      obtain ⟨text, hread⟩ := readsString_of_wraps hsize h
      exact ⟨_, .string hread⟩
  | .list hp h => by
      obtain ⟨items, hread⟩ := readsItems_of_wraps hsize h
      exact ⟨_, .list hp hread⟩
  | .dictionary hp h => by
      obtain ⟨entries, hread⟩ := readsEntries_of_wraps hsize h
      exact ⟨_, .dictionary hp hread⟩

/-- So are items. -/
theorem readsItems_of_wraps (hsize : s.length < sizeLimit) {p q : ℕ} :
    WrapsItems s p q → ∃ items, ReadsItems s p items q
  | .here h hrest => by
      obtain ⟨v, hread⟩ := reads_of_wraps hsize h
      exact ⟨_, .item hread hrest⟩
  | .later hread h => by
      obtain ⟨items, hrest⟩ := readsItems_of_wraps hsize h
      exact ⟨_, .item hread hrest⟩

/-- So are entries. -/
theorem readsEntries_of_wraps (hsize : s.length < sizeLimit) {p q : ℕ} :
    WrapsEntries s p q → ∃ entries, ReadsEntries s p entries q
  | .key h hread hrest => by
      obtain ⟨key, hkey⟩ := readsString_of_wraps hsize h
      exact ⟨_, .entry hkey hread hrest⟩
  | .child hkey h hrest => by
      obtain ⟨v, hread⟩ := reads_of_wraps hsize h
      exact ⟨_, .entry hkey hread hrest⟩
  | .later hkey hread h => by
      obtain ⟨entries, hrest⟩ := readsEntries_of_wraps hsize h
      exact ⟨_, .entry hkey hread hrest⟩

end

end WrappedReadings

/-! ## The accepted texts -/

/-- The parser accepts exactly the spellings of values, and returns the value that is spelled. -/
def AcceptsGrammar (input : StringView) : Prop :=
  ∀ v, Parses input v ↔ Derives input.bytes v

/-- A text of the grammar is parsed to its value. -/
theorem parses_of_derives {input : StringView} {v : BencodeValue}
    (h : Derives input.bytes v) : Parses input v := by
  have hread := reads_of_derives (p := 0) input.size_lt h (List.append_nil input.bytes).symm
  exact parses_iff.mpr ⟨_, by omega, hread⟩

/-- The parser accepts a text that it reads to the end by wrapping, and the text is no spelling. -/
theorem parses_not_derives_of_wraps {input : StringView} {q : ℕ}
    (hend : input.bytes.length ≤ q) (hwraps : Wraps input.bytes 0 q) :
    ∃ v, Parses input v ∧ ¬ Derives input.bytes v := by
  obtain ⟨v, hread⟩ := reads_of_wraps input.size_lt hwraps
  refine ⟨v, parses_iff.mpr ⟨q, hend, hread⟩, fun hderives => ?_⟩
  exact not_wraps_of_derives (p := 0) hderives (List.append_nil input.bytes).symm hwraps

/-- **The parser accepts exactly its grammar**, unless the text is read to its end by way of a
string whose end, the end of its header plus its number, is `2 ^ 64` or more.
SRCLINE: Bencode.cpp:19-124 -/
theorem acceptsGrammar_iff (input : StringView) :
    AcceptsGrammar input ↔ ¬ ∃ q, input.bytes.length ≤ q ∧ Wraps input.bytes 0 q := by
  constructor
  · rintro hagree ⟨q, hend, hwraps⟩
    obtain ⟨v, hparses, hnot⟩ := parses_not_derives_of_wraps hend hwraps
    exact hnot ((hagree v).mp hparses)
  · intro hwraps v
    refine ⟨fun hparses => ?_, parses_of_derives⟩
    obtain ⟨q, hend, hread⟩ := parses_iff.mp hparses
    obtain ⟨spelling, hderives, hsplit⟩ :=
      derives_of_reads hread fun h => hwraps ⟨q, hend, h⟩
    rw [List.drop_zero, List.drop_eq_nil_of_le hend, List.append_nil] at hsplit
    rwa [hsplit]

/-- A list whose first string announces `2 ^ 64 - 2` bytes after a header that ends at 22. -/
def wrappingInput : StringView := ⟨bytes "l18446744073709551614:abcde", by decide⟩

/-- The length in this text wraps around. -/
theorem wrappingInput_wraps : Wraps wrappingInput.bytes 0 27 := by
  have hfirst : WrapsString wrappingInput.bytes 1 20 :=
    ⟨bytes "18446744073709551614",
      ⟨⟨bytes "abcde", by decide⟩, by decide, by decide, by decide⟩, by decide, by decide⟩
  have hsecond : ReadsString wrappingInput.bytes 20 (bytes "abcd") 26 :=
    ⟨bytes "4", ⟨⟨bytes "abcde", by decide⟩, by decide, by decide, by decide⟩, by decide,
      by decide, by decide⟩
  exact .list (by decide) (.here (.string hfirst) (.item (.string hsecond) (.close (by decide))))

/-- The last digit of the header is read again, as the header of a second string. -/
theorem acceptsGrammar_fails : ¬ AcceptsGrammar wrappingInput := by
  obtain ⟨v, hparses, hnot⟩ := parses_not_derives_of_wraps (by decide) wrappingInput_wraps
  exact fun hagree => hnot ((hagree v).mp hparses)

end Vtfs.Analysis
