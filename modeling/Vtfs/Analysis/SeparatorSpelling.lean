import Vtfs.Analysis.NormalizedPaths

/-!
# Paths that are spelled with backslashes

`normalizePath` looks at the first character before it puts slashes in place of backslashes
(TorrentSession.cpp:210-215), so a path that begins with a backslash gets a second slash in front.
Apart from that the spelling of the separators makes no difference: the two cases are
`normalizePath_slash` and `normalizePath_backslash`, and they differ by one slash before the rest.
-/

set_option autoImplicit false

namespace Vtfs.Analysis

open Vtfs.Library
open Vtfs.Library.PosixPath (slash)
open Vtfs.Model

/-- Another spelling of a path: some of its slashes are backslashes. -/
def Respelled (path other : Bytes) : Prop :=
  List.Forall₂ (fun c d => d = c ∨ (c = slash ∧ d = byte '\\')) path other

/-- The spelling with slashes only. -/
def slashed (path : Bytes) : Bytes := path.map fun ch => if ch = byte '\\' then slash else ch

/-- A slash or a backslash. -/
def IsSeparator (ch : UInt8) : Prop := ch = slash ∨ ch = byte '\\'

/-- Two spellings of a path come to the same path, and so to the same entries of any index. -/
structure SameAddress (path other : Bytes) : Prop where
  normalized : normalizePath other = normalizePath path
  lookup : ∀ s : Index, lookup s other = lookup s path
  listDirectory : ∀ s : Index, listDirectory s other = listDirectory s path

/-! ## The two cases of `normalizePath` -/

/-- The special case of `normalizePath` is what the general one gives. -/
theorem normalizePath_eq (path : Bytes) :
    normalizePath path = dropTrailingSlashes
      ((if path.head? ≠ some slash then [slash] else []) ++ slashed path) := by
  unfold normalizePath
  split
  · rename_i htrivial
    rcases htrivial with rfl | rfl
    · rfl
    · decide
  · rfl

/-- A path with a slash in front keeps it. -/
theorem normalizePath_slash (rest : Bytes) :
    normalizePath (slash :: rest) = slash :: (slashed rest).rdropWhile (· = slash) := by
  have hslash : (if slash = byte '\\' then slash else slash) = slash := by decide
  rw [normalizePath_eq, if_neg (by simp), List.nil_append, slashed, List.map_cons, hslash,
    dropTrailingSlashes]
  rfl

/-- A backslash in front becomes a slash, behind another one. -/
theorem normalizePath_backslash (rest : Bytes) :
    normalizePath (byte '\\' :: rest) =
      slash :: (slash :: slashed rest).rdropWhile (· = slash) := by
  have hne : byte '\\' ≠ slash := by decide
  rw [normalizePath_eq, if_pos (by simp [hne]), slashed, List.map_cons, if_pos rfl]
  rfl

/-- What is left of a text keeps what is in front. -/
theorem rdropWhile_cons {p : UInt8 → Bool} (c : UInt8) {text : Bytes}
    (h : text.rdropWhile p ≠ []) : (c :: text).rdropWhile p = c :: text.rdropWhile p := by
  have hkept : (text.reverse.dropWhile p).isEmpty = false := by
    simpa [List.rdropWhile, List.isEmpty_iff] using h
  rw [List.rdropWhile, List.reverse_cons, List.dropWhile_append, hkept]
  simp [List.rdropWhile]

/-- A slash in front is dropped with the slashes behind it only when there is nothing else. -/
theorem rdropWhile_slash_cons_iff (text : Bytes) :
    (slash :: text).rdropWhile (· = slash) = text.rdropWhile (· = slash) ↔
      ∀ ch ∈ text, ch = slash := by
  constructor
  · intro h
    by_contra hother
    have hkept : text.rdropWhile (· = slash) ≠ [] := by
      rw [Ne, List.rdropWhile_eq_nil_iff]
      simpa using hother
    rw [rdropWhile_cons slash hkept] at h
    exact List.cons_ne_self slash _ h
  · intro hall
    have hnil : ∀ xs : Bytes, (∀ ch ∈ xs, ch = slash) → xs.rdropWhile (· = slash) = [] := by
      intro xs hxs
      rw [List.rdropWhile_eq_nil_iff]
      simpa using hxs
    rw [hnil text hall, hnil (slash :: text) (by simpa using hall)]

/-- The two are the same only for separators and nothing else. -/
theorem normalizePath_backslash_eq_iff (rest : Bytes) :
    normalizePath (byte '\\' :: rest) = normalizePath (slash :: rest) ↔
      ∀ ch ∈ slashed rest, ch = slash := by
  rw [normalizePath_backslash, normalizePath_slash, List.cons_inj_right, rdropWhile_slash_cons_iff]

/-! ## Spellings of one path -/

/-- Only separators become slashes. -/
theorem slashed_all_slash_iff (path : Bytes) :
    (∀ ch ∈ slashed path, ch = slash) ↔ ∀ ch ∈ path, IsSeparator ch := by
  simp only [slashed, List.forall_mem_map]
  refine forall₂_congr fun ch _ => ?_
  by_cases h : ch = byte '\\'
  · simp [IsSeparator, h]
  · simp [IsSeparator, h]

/-- Respelling separators does not matter where all become slashes. -/
theorem slashed_of_respelled {path other : Bytes} (h : Respelled path other) :
    slashed other = slashed path := by
  induction h with
  | nil => rfl
  | @cons c d cs ds hchar hrest ih =>
      have hhead : (if d = byte '\\' then slash else d) = if c = byte '\\' then slash else c := by
        rcases hchar with rfl | ⟨rfl, rfl⟩
        · rfl
        · decide
      rw [slashed, List.map_cons, hhead]
      exact congrArg _ ih

/-- Nor does it matter to a path whose first character stays. -/
theorem normalizePath_of_head {path other : Bytes} (h : Respelled path other)
    (hhead : other.head? = path.head?) : normalizePath other = normalizePath path := by
  rw [normalizePath_eq, normalizePath_eq, hhead, slashed_of_respelled h]

/-- Two paths address the same when they are normalized alike. -/
theorem sameAddress_iff {path other : Bytes} :
    SameAddress path other ↔ normalizePath other = normalizePath path := by
  constructor
  · exact SameAddress.normalized
  · intro h
    exact ⟨h, fun s => congrArg s.entries h, fun s => congrArg s.children h⟩

/-- **Spellings of the separators.**  A path in which some slashes are spelled as backslashes
comes to the same place if and only if the slash in front is not one of them, or the path has
nothing but separators.
SRCLINE: TorrentSession.cpp:204-220 -/
theorem separatorSpelling_iff {path other : Bytes} (h : Respelled path other) :
    SameAddress path other ↔
      other.head? = path.head? ∨ ∀ ch ∈ path, IsSeparator ch := by
  rw [sameAddress_iff]
  cases h with
  | nil => simp
  | @cons c d cs ds hchar hrest =>
      have hspelled : Respelled (c :: cs) (d :: ds) := .cons hchar hrest
      rcases hchar with rfl | ⟨rfl, rfl⟩
      · exact iff_of_true (normalizePath_of_head hspelled rfl) (Or.inl rfl)
      · have hne : byte '\\' ≠ slash := by decide
        have hfirst : IsSeparator slash := Or.inl rfl
        rw [normalizePath_slash cs, ← slashed_of_respelled hrest, ← normalizePath_slash,
          normalizePath_backslash_eq_iff, slashed_of_respelled hrest, slashed_all_slash_iff]
        simp [hne, hfirst]

/-- The slash inside `"/a/b"` may be spelled as a backslash. -/
theorem separatorSpelling_inner : SameAddress (bytes "/a/b") (bytes "/a\\b") := by
  have hspelled : Respelled (bytes "/a/b") (bytes "/a\\b") :=
    .cons (by decide) (.cons (by decide) (.cons (by decide) (.cons (by decide) .nil)))
  exact (separatorSpelling_iff hspelled).mpr (Or.inl rfl)

/-- A torrent with one file `x`: the file is found under `"/x"` and not under `"\\x"`. -/
theorem separatorSpelling_fails :
    ¬ (∀ path other, Respelled path other → SameAddress path other) ∧
      (lookup (buildIndex [⟨bytes "x", 1, 0⟩]) (bytes "/x")).isSome ∧
      lookup (buildIndex [⟨bytes "x", 1, 0⟩]) (bytes "\\x") = none := by
  refine ⟨fun h => ?_, by decide, by decide⟩
  have hspelled : Respelled (bytes "/x") (bytes "\\x") :=
    .cons (by decide) (.cons (by decide) .nil)
  have hsame := (h _ _ hspelled).normalized
  exact absurd hsame (by decide)

end Vtfs.Analysis
