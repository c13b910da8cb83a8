import Vtfs.Model.Bencode

/-!
# What the parser reads, as a relation on the input

`Reads s p v q` says that a value `v` is read from position `p` of the text `s` and that the
reading ends at `q`.  It mentions no fuel, no trace and no exception, only the text.  The end of
a string is the one place where positions are taken modulo `sizeLimit`, so a reading need not
go forward.

`Rewinds s p` says that a reading from `p` comes to a string header whose number takes the
cursor back to the header's first byte or before it: with `h` bytes up to and with the colon,
and the header ending at `e`, the number `L` satisfies `2 ^ 64 - e ≤ L ≤ 2 ^ 64 - h`.
-/

set_option autoImplicit false

namespace Vtfs.Interface

open Vtfs.Library
open Vtfs.Library.Decimal (fromCharsSigned isDigit value)
open Vtfs.Model

/-- A string header at `p`: a run of digits with a `std::size_t` value, then a colon. -/
structure HeaderAt (s : Bytes) (p : ℕ) (token : Bytes) : Prop where
  split : ∃ rest, s.drop p = token ++ byte ':' :: rest
  nonempty : token ≠ []
  digits : token.all isDigit = true
  fits : value token < sizeLimit

/-- The position after the colon of a header at `p`. -/
def headerEnd (p : ℕ) (token : Bytes) : ℕ := p + token.length + 1

/-- A string is read at `p`: its end is computed in `std::size_t` and is inside the text. -/
def ReadsString (s : Bytes) (p : ℕ) (text : Bytes) (q : ℕ) : Prop :=
  ∃ token, HeaderAt s p token ∧ q = (headerEnd p token + value token) % sizeLimit ∧
    q ≤ s.length ∧ text = (s.drop (headerEnd p token)).take (value token)

/-- An integer is read at `p`, whose first byte is the letter before the token. -/
def ReadsInteger (s : Bytes) (p : ℕ) (i : Int64) (q : ℕ) : Prop :=
  ∃ token rest v, s.drop (p + 1) = token ++ byte 'e' :: rest ∧ byte 'e' ∉ token ∧
    fromCharsSigned (2 ^ 63) token = some (v, token.length) ∧ i = Int64.ofInt v ∧
    q = p + 1 + token.length + 1

mutual

/-- A value is read from `p` to `q`. -/
inductive Reads (s : Bytes) : ℕ → BencodeValue → ℕ → Prop
  | integer {p q : ℕ} {i : Int64} :
      s[p]? = some (byte 'i') → ReadsInteger s p i q → Reads s p (.integer i) q
  | string {p q : ℕ} {text : Bytes} : ReadsString s p text q → Reads s p (.string text) q
  | list {p q : ℕ} {items : List BencodeValue} :
      s[p]? = some (byte 'l') → ReadsItems s (p + 1) items q → Reads s p (.list items) q
  | dictionary {p q : ℕ} {entries : List (Bytes × BencodeValue)} :
      s[p]? = some (byte 'd') → ReadsEntries s (p + 1) entries q →
      Reads s p (.dictionary (SortedMap.emplaceAll [] entries)) q

/-- The items of a list and its closing letter are read from `p` to `q`. -/
inductive ReadsItems (s : Bytes) : ℕ → List BencodeValue → ℕ → Prop
  | close {p : ℕ} : s[p]? = some (byte 'e') → ReadsItems s p [] (p + 1)
  | item {p q r : ℕ} {v : BencodeValue} {items : List BencodeValue} :
      Reads s p v q → ReadsItems s q items r → ReadsItems s p (v :: items) r

/-- The entries of a dictionary, in the order of the text, and its closing letter are read from
`p` to `q`. -/
inductive ReadsEntries (s : Bytes) : ℕ → List (Bytes × BencodeValue) → ℕ → Prop
  | close {p : ℕ} : s[p]? = some (byte 'e') → ReadsEntries s p [] (p + 1)
  | entry {p q r t : ℕ} {key : Bytes} {v : BencodeValue} {entries : List (Bytes × BencodeValue)} :
      ReadsString s p key q → Reads s q v r → ReadsEntries s r entries t →
      ReadsEntries s p ((key, v) :: entries) t

end

/-- The bytes from one position up to another. -/
def span (s : Bytes) (a b : ℕ) : Bytes := (s.drop a).take (b - a)

/-- Reading the entries of a dictionary from `p` on, the first one with this key has the value
`v`, which is read from `a` to `b`. -/
inductive FirstEntry (s : Bytes) (key : Bytes) : ℕ → ℕ → BencodeValue → ℕ → Prop
  | here {p a b : ℕ} {v : BencodeValue} :
      ReadsString s p key a → Reads s a v b → FirstEntry s key p a v b
  | later {p q r a b : ℕ} {other : Bytes} {w v : BencodeValue} :
      ReadsString s p other q → other ≠ key → Reads s q w r → FirstEntry s key r a v b →
      FirstEntry s key p a v b

/-- The root of the text is a dictionary whose value for the key is `v`, from `a` to `b`. -/
def RootEntry (s : Bytes) (key : Bytes) (a : ℕ) (v : BencodeValue) (b : ℕ) : Prop :=
  s[0]? = some (byte 'd') ∧ FirstEntry s key 1 a v b

/-- A header at `p` whose number takes the cursor back to `p` or before it. -/
def RewindingHeader (s : Bytes) (p : ℕ) : Prop :=
  ∃ token, HeaderAt s p token ∧ sizeLimit ≤ headerEnd p token + value token ∧
    token.length + 1 + value token ≤ sizeLimit

mutual

/-- Reading a value from `p` comes to a rewinding header. -/
inductive Rewinds (s : Bytes) : ℕ → Prop
  | string {p : ℕ} : RewindingHeader s p → Rewinds s p
  | list {p : ℕ} : s[p]? = some (byte 'l') → RewindsItems s (p + 1) → Rewinds s p
  | dictionary {p : ℕ} : s[p]? = some (byte 'd') → RewindsEntries s (p + 1) → Rewinds s p

/-- Reading the items of a list from `p` on comes to a rewinding header. -/
inductive RewindsItems (s : Bytes) : ℕ → Prop
  | here {p : ℕ} : Rewinds s p → RewindsItems s p
  | later {p q : ℕ} {v : BencodeValue} : Reads s p v q → RewindsItems s q → RewindsItems s p

/-- Reading the entries of a dictionary from `p` on comes to a rewinding header. -/
inductive RewindsEntries (s : Bytes) : ℕ → Prop
  | key {p : ℕ} : RewindingHeader s p → RewindsEntries s p
  | child {p q : ℕ} {key : Bytes} : ReadsString s p key q → Rewinds s q → RewindsEntries s p
  | later {p q r : ℕ} {key : Bytes} {v : BencodeValue} :
      ReadsString s p key q → Reads s q v r → RewindsEntries s r → RewindsEntries s p

end

/-! ## First bytes -/

/-- The header of a string begins with a digit. -/
theorem HeaderAt.first {s : Bytes} {p : ℕ} {token : Bytes} (h : HeaderAt s p token) :
    ∃ c, s[p]? = some c ∧ isDigit c = true := by
  obtain ⟨rest, hrest⟩ := h.split
  cases htok : token with
  | nil => exact absurd htok h.nonempty
  | cons c cs =>
      refine ⟨c, ?_, ?_⟩
      · have h0 : (s.drop p)[0]? = some c := by rw [hrest, htok]; rfl
        simpa using h0
      · exact List.all_eq_true.mp h.digits c (by simp [htok])

/-- The colon is not part of the token of a header. -/
theorem HeaderAt.colon_not_mem {s : Bytes} {p : ℕ} {token : Bytes} (h : HeaderAt s p token) :
    byte ':' ∉ token :=
  Decimal.not_mem_of_all_isDigit h.digits (by decide)

/-- The header at a position is the run of digits before the first colon. -/
theorem HeaderAt.unique {s : Bytes} {p : ℕ} {token token' : Bytes} (h : HeaderAt s p token)
    (h' : HeaderAt s p token') : token = token' := by
  obtain ⟨rest, hrest⟩ := h.split
  obtain ⟨rest', hrest'⟩ := h'.split
  have hupTo := congrArg (upTo (byte ':')) (hrest.symm.trans hrest')
  rwa [upTo_append h.colon_not_mem, upTo_append h'.colon_not_mem] at hupTo

/-- A header and its colon are inside the text. -/
theorem HeaderAt.headerEnd_le {s : Bytes} {p : ℕ} {token : Bytes} (h : HeaderAt s p token) :
    headerEnd p token ≤ s.length := by
  obtain ⟨rest, hrest⟩ := h.split
  have hlen := congrArg List.length hrest
  simp only [List.length_drop, List.length_append, List.length_cons] at hlen
  unfold headerEnd
  omega

/-- A value starts with a byte that does not close a list. -/
theorem Reads.first {s : Bytes} {p q : ℕ} {v : BencodeValue} (h : Reads s p v q) :
    ∃ c, s[p]? = some c ∧ c ≠ byte 'e' := by
  cases h with
  | integer hp _ => exact ⟨_, hp, by decide⟩
  | string hstr =>
      obtain ⟨token, hheader, -⟩ := hstr
      obtain ⟨c, hc, hdigit⟩ := hheader.first
      refine ⟨c, hc, ?_⟩
      rintro rfl
      exact absurd hdigit (by decide)
  | list hp _ => exact ⟨_, hp, by decide⟩
  | dictionary hp _ => exact ⟨_, hp, by decide⟩

/-- A value that comes to a rewinding header has a first byte that closes nothing. -/
theorem Rewinds.first {s : Bytes} {p : ℕ} (h : Rewinds s p) :
    ∃ c, s[p]? = some c ∧ c ≠ byte 'e' := by
  cases h with
  | string hheader =>
      obtain ⟨token, hheader, -⟩ := hheader
      obtain ⟨c, hc, hdigit⟩ := hheader.first
      exact ⟨c, hc, fun heq => absurd (heq ▸ hdigit) (by decide)⟩
  | list hc _ => exact ⟨_, hc, by decide⟩
  | dictionary hc _ => exact ⟨_, hc, by decide⟩

end Vtfs.Interface
