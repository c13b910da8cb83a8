import Vtfs.Interface.DirectoryTree

/-!
# Normalized paths and their directories

`normalizePath` leaves a path with a slash in front, no backslash and no slash at the end
(`normalizePath_normalized`), and leaves such a path alone (`normalizePath_of_normalized`).  The
directory part of a path and the directories spelled out above it are described by the segments
before its last slash.
-/

set_option autoImplicit false

namespace Vtfs.Analysis

open Vtfs.Library
open Vtfs.Library.PosixPath (slash)
open Vtfs.Model
open Vtfs.Interface

/-! ## The shape of a normalized path -/

/-- A slash in front, no backslash, and no slash at the end except that of the root. -/
structure Normalized (path : Bytes) : Prop where
  head : path.head? = some slash
  no_backslash : byte '\\' ∉ path
  last : path = [slash] ∨ path.getLast? ≠ some slash

/-- The root is normalized. -/
theorem normalized_root : Normalized [slash] := ⟨rfl, by decide, Or.inl rfl⟩

/-- The text that the trailing slashes are dropped from: a slash in front and no backslash. -/
theorem slashed_shape (path : Bytes) :
    ∃ rest, (if path.head? ≠ some slash then [slash] else []) ++
        path.map (fun ch => if ch = byte '\\' then slash else ch) = slash :: rest ∧
      byte '\\' ∉ rest := by
  have hmap : byte '\\' ∉ path.map fun ch => if ch = byte '\\' then slash else ch := by
    intro hmem
    obtain ⟨ch, -, hch⟩ := List.mem_map.mp hmem
    by_cases heq : ch = byte '\\'
    · rw [if_pos heq] at hch
      exact absurd hch (by decide)
    · rw [if_neg heq] at hch
      exact heq hch
  by_cases hhead : path.head? = some slash
  · cases path with
    | nil => simp at hhead
    | cons c cs =>
        obtain rfl : c = slash := by simpa using hhead
        have hne : slash ≠ byte '\\' := by decide
        refine ⟨cs.map fun ch => if ch = byte '\\' then slash else ch, by simp [hne], ?_⟩
        intro hmem
        exact hmap (List.mem_cons_of_mem _ hmem)
  · exact ⟨_, by simp [hhead], hmap⟩

/-- Every path becomes a normalized one. -/
theorem normalizePath_normalized (path : Bytes) : Normalized (normalizePath path) := by
  unfold normalizePath
  split
  · exact normalized_root
  · obtain ⟨rest, hrest, hback⟩ := slashed_shape path
    dsimp only
    rw [hrest, dropTrailingSlashes]
    refine ⟨rfl, ?_, ?_⟩
    · intro hmem
      rcases List.mem_cons.mp hmem with h | h
      · exact absurd h (by decide)
      · exact hback ((List.rdropWhile_prefix _ rest).subset h)
    · by_cases hnil : rest.rdropWhile (· = slash) = []
      · exact Or.inl (by rw [hnil])
      · right
        have hlast := List.rdropWhile_last_not (fun c => decide (c = slash)) rest hnil
        rw [List.getLast?_cons, List.getLast?_eq_some_getLast hnil]
        simpa using hlast

/-- A normalized path is left as it is. -/
theorem normalizePath_of_normalized {path : Bytes} (h : Normalized path) :
    normalizePath path = path := by
  unfold normalizePath
  split
  · rename_i htrivial
    rcases htrivial with rfl | rfl
    · exact absurd h.head (by simp)
    · rfl
  · rename_i hne
    have hmap : path.map (fun ch => if ch = byte '\\' then slash else ch) = path := by
      conv_rhs => rw [← List.map_id path]
      apply List.map_congr_left
      intro ch hch
      have hch' : ch ≠ byte '\\' := fun heq => h.no_backslash (heq ▸ hch)
      simp [hch']
    have hlast := h.last.resolve_left fun heq => hne (Or.inr heq)
    dsimp only
    rw [hmap, if_neg (by simpa using h.head), List.nil_append]
    cases path with
    | nil => rfl
    | cons c cs =>
        rw [dropTrailingSlashes]
        congr 1
        rw [List.rdropWhile_eq_self_iff]
        intro hnil
        rw [List.getLast?_cons, List.getLast?_eq_some_getLast hnil] at hlast
        simpa using hlast

/-- A path is normalized once. -/
theorem normalizePath_idem (path : Bytes) :
    normalizePath (normalizePath path) = normalizePath path :=
  normalizePath_of_normalized (normalizePath_normalized path)

/-- A normalized path begins with a slash. -/
theorem Normalized.eq_cons {path : Bytes} (h : Normalized path) : path = slash :: path.tail := by
  cases path with
  | nil => exact absurd h.head (by simp)
  | cons c cs =>
      have hc : c = slash := by simpa using h.head
      rw [hc]
      rfl

/-- A normalized path but the root does not end with a slash. -/
theorem Normalized.getLast?_tail {path : Bytes} (h : Normalized path) :
    path.tail.getLast? ≠ some slash := by
  intro hend
  have htail : path.tail ≠ [] := by
    intro hnil
    simp [hnil] at hend
  rcases h.last with hroot | hlast
  · exact htail (by rw [hroot]; rfl)
  · apply hlast
    rw [h.eq_cons, List.getLast?_cons_of_ne_nil htail, hend]

/-! ## Paths of directories -/

section DirPath

variable {segments : List Bytes}

/-- Without segments there is the root. -/
theorem dirPath_nil : dirPath [] = [slash] := rfl

/-- With segments there is a slash before each. -/
theorem dirPath_of_ne_nil (h : segments ≠ []) : dirPath segments = rooted slash segments := by
  rw [dirPath, if_neg h]

/-- The last segment comes behind a slash. -/
theorem dirPath_concat (segments : List Bytes) (segment : Bytes) :
    dirPath (segments ++ [segment]) = rooted slash segments ++ slash :: segment := by
  rw [dirPath_of_ne_nil (by simp), rooted_concat]

/-- The code adds a segment to a path with a slash between them, if the path is not the root. -/
theorem dirPath_extend (h : ∀ q ∈ segments, q ≠ []) (segment : Bytes) :
    (if 1 < (dirPath segments).length then dirPath segments ++ [slash] else dirPath segments) ++
      segment = dirPath (segments ++ [segment]) := by
  rw [dirPath_concat]
  by_cases hnil : segments = []
  · subst hnil
    simp [dirPath_nil, rooted]
  · obtain ⟨q, qs, rfl⟩ := List.exists_cons_of_ne_nil hnil
    have hq : 0 < q.length := List.length_pos_iff.mpr (h q (by simp))
    have hlong : 1 < (rooted slash (q :: qs)).length := by
      simp only [rooted, List.flatMap_cons, List.length_append, List.length_cons]
      omega
    rw [dirPath_of_ne_nil hnil, if_pos hlong, List.append_assoc, List.singleton_append]

/-- Only no parts are written as nothing. -/
theorem rooted_eq_nil_iff {parts : List Bytes} : rooted slash parts = [] ↔ parts = [] := by
  cases parts <;> simp [rooted]

/-- The parent of a path has all of its segments but the last. -/
theorem parentPathOf_dirPath (segments : List Bytes) {segment : Bytes} (h : IsSegment segment) :
    parentPathOf (dirPath (segments ++ [segment])) = dirPath segments := by
  rw [dirPath_concat, parentPathOf, beforeLast_append _ h.no_slash]
  by_cases hnil : segments = []
  · subst hnil
    rfl
  · obtain ⟨c, cs, hcons⟩ := List.exists_cons_of_ne_nil (mt rooted_eq_nil_iff.mp hnil)
    rw [dirPath_of_ne_nil hnil, hcons]

/-- Different segments make different paths. -/
theorem dirPath_injective {segments' : List Bytes} (h : ∀ q ∈ segments, IsSegment q)
    (h' : ∀ q ∈ segments', IsSegment q) (heq : dirPath segments = dirPath segments') :
    segments = segments' := by
  have hroot : ∀ {qs : List Bytes}, (∀ q ∈ qs, IsSegment q) → dirPath qs = [slash] → qs = [] := by
    intro qs hqs hpath
    cases qs with
    | nil => rfl
    | cons q qs =>
        have hq := (hqs q (by simp)).nonempty
        rw [dirPath_of_ne_nil (by simp)] at hpath
        simp [rooted, hq] at hpath
  by_cases hnil : segments = []
  · subst hnil
    exact (hroot h' heq.symm).symm
  by_cases hnil' : segments' = []
  · subst hnil'
    exact hroot h heq
  · rw [dirPath_of_ne_nil hnil, dirPath_of_ne_nil hnil'] at heq
    exact rooted_injective (fun q hq => (h q hq).no_slash) (fun q hq => (h' q hq).no_slash) heq

/-- A path of segments is normalized. -/
theorem normalized_dirPath (h : ∀ q ∈ segments, IsSegment q) : Normalized (dirPath segments) := by
  rcases List.eq_nil_or_concat segments with rfl | ⟨front, segment, rfl⟩
  · exact normalized_root
  · have hseg := h segment (by simp)
    rw [List.concat_eq_append] at h ⊢
    rw [dirPath_concat]
    refine ⟨?_, ?_, Or.inr ?_⟩
    · cases front with
      | nil => rfl
      | cons q qs => rfl
    · intro hmem
      rcases List.mem_append.mp hmem with hmem | hmem
      · obtain ⟨q, hq, hmem⟩ := List.mem_flatMap.mp hmem
        rcases List.mem_cons.mp hmem with hslash | hmem
        · exact absurd hslash (by decide)
        · exact (h q (by simp [hq])).no_backslash hmem
      · rcases List.mem_cons.mp hmem with hslash | hmem
        · exact absurd hslash (by decide)
        · exact hseg.no_backslash hmem
    · rw [List.getLast?_append, List.getLast?_cons, List.getLast?_eq_some_getLast hseg.nonempty]
      intro hlast
      exact hseg.no_slash (Option.some.inj hlast ▸ List.getLast_mem hseg.nonempty)

/-- The canonical paths of directories are the paths of lists of segments. -/
theorem canonicalDirectory_iff {path : Bytes} (hback : byte '\\' ∉ path) :
    CanonicalDirectory path ↔ ∃ qs : List Bytes, (∀ q ∈ qs, IsSegment q) ∧ path = dirPath qs := by
  constructor
  · rintro (rfl | ⟨hhead, hparts⟩)
    · exact ⟨[], by simp, rfl⟩
    · have hcons : path = slash :: path.tail := by
        cases path with
        | nil => simp at hhead
        | cons c cs =>
            obtain rfl : c = slash := by simpa using hhead
            rfl
      refine ⟨pieces slash path.tail,
        fun q hq => ⟨hparts q hq, sep_not_mem_of_mem_pieces hq, ?_⟩, ?_⟩
      · intro hmem
        have hjoin : byte '\\' ∈ rooted slash (pieces slash path.tail) :=
          List.mem_flatMap.mpr ⟨q, hq, List.mem_cons_of_mem _ hmem⟩
        rw [rooted_pieces, ← hcons] at hjoin
        exact hback hjoin
      · rw [dirPath_of_ne_nil (pieces_ne_nil _), rooted_pieces, ← hcons]
  · rintro ⟨qs, hqs, rfl⟩
    by_cases hnil : qs = []
    · exact Or.inl (by rw [hnil, dirPath_nil])
    · rw [dirPath_of_ne_nil hnil]
      refine Or.inr ⟨?_, fun part hpart => ?_⟩
      · obtain ⟨q, qs, rfl⟩ := List.exists_cons_of_ne_nil hnil
        rfl
      · rw [pieces_tail_rooted hnil fun q hq => (hqs q hq).no_slash] at hpart
        exact (hqs part hpart).nonempty

end DirPath

/-! ## The directories above a path -/

section Above

variable {path : Bytes}

/-- The directory part of a normalized path, by the last slash after the first one. -/
theorem parentPathOf_normalized (h : Normalized path) :
    parentPathOf path = slash :: (beforeLast slash path.tail).getD [] := by
  rw [h.eq_cons, List.tail_cons]
  rcases beforeLast_cases slash path.tail with ⟨hfree, hnone⟩ | ⟨front, leaf, hleaf, heq, hsome⟩
  · rw [hnone, parentPathOf]
    have hroot : beforeLast slash (slash :: path.tail) = some [] := beforeLast_append [] hfree
    rw [hroot]
    rfl
  · rw [hsome, parentPathOf, heq]
    have hfront : beforeLast slash (slash :: (front ++ slash :: leaf)) = some (slash :: front) :=
      beforeLast_append (slash :: front) hleaf
    rw [hfront]
    rfl

/-- What is before the last slash is in the path. -/
theorem mem_tail_of_front {front : Bytes} (h : beforeLast slash path.tail = some front) {c : UInt8}
    (hc : c ∈ front) : c ∈ path := by
  rcases beforeLast_cases slash path.tail with ⟨-, hnone⟩ | ⟨front', leaf, -, heq, hsome⟩
  · rw [hnone] at h
    exact absurd h (by simp)
  · obtain rfl := Option.some.inj (h.symm.trans hsome)
    exact List.mem_of_mem_tail (heq ▸ List.mem_append_left _ hc)

/-- The parts above a normalized path are segments. -/
theorem isSegment_of_mem_segmentsAbove (h : Normalized path) {segment : Bytes}
    (hmem : segment ∈ segmentsAbove path) : IsSegment segment := by
  unfold segmentsAbove at hmem
  cases hfront : beforeLast slash path.tail with
  | none => simp [hfront] at hmem
  | some front =>
      rw [hfront] at hmem
      obtain ⟨hpiece, hne⟩ := List.mem_filter.mp hmem
      refine ⟨by simpa using hne, sep_not_mem_of_mem_pieces hpiece, ?_⟩
      intro hback
      have hjoin : byte '\\' ∈ rooted slash (pieces slash front) :=
        List.mem_flatMap.mpr ⟨segment, hpiece, List.mem_cons_of_mem _ hback⟩
      rw [rooted_pieces] at hjoin
      rcases List.mem_cons.mp hjoin with hslash | hjoin
      · exact absurd hslash (by decide)
      · exact h.no_backslash (mem_tail_of_front hfront hjoin)

/-- The directories above a path are the non-empty beginnings of its segments. -/
theorem mem_directoriesAbove {directory : Bytes} :
    directory ∈ directoriesAbove path ↔
      ∃ qs, qs ≠ [] ∧ qs <+: segmentsAbove path ∧ directory = dirPath qs := by
  constructor
  · intro hmem
    obtain ⟨i, hi, rfl⟩ := List.mem_map.mp hmem
    have hi' : i < (segmentsAbove path).length := List.mem_range.mp hi
    refine ⟨_, ?_, List.take_prefix _ _, rfl⟩
    rw [Ne, List.take_eq_nil_iff, not_or]
    exact ⟨by omega, fun hnil => by simp [hnil] at hi'⟩
  · rintro ⟨qs, hne, hstarts, rfl⟩
    have hpos : 0 < qs.length := List.length_pos_iff.mpr hne
    have hle := hstarts.length_le
    refine List.mem_map.mpr ⟨qs.length - 1, List.mem_range.mpr (by omega), ?_⟩
    rw [Nat.sub_add_cancel hpos, ← List.prefix_iff_eq_take.mp hstarts]

/-- The directory part of a path is in its one spelling exactly when it is the root or one of the
directories above the path. -/
theorem canonicalDirectory_parentPathOf_iff (h : Normalized path) :
    CanonicalDirectory (parentPathOf path) ↔ parentPathOf path = dirPath (segmentsAbove path) := by
  rw [parentPathOf_normalized h]
  unfold segmentsAbove
  cases hfront : beforeLast slash path.tail with
  | none => simp [CanonicalDirectory, dirPath_nil]
  | some front =>
      simp only [Option.getD_some]
      by_cases hroot : front = []
      · subst hroot
        have hsegments : (pieces slash ([] : Bytes)).filter (· ≠ []) = [] := by decide
        exact iff_of_true (Or.inl rfl) (by rw [hsegments, dirPath_nil])
      constructor
      · rintro (heq | ⟨-, hparts⟩)
        · exact absurd (by simpa using heq) hroot
        · have hall : (pieces slash front).filter (· ≠ []) = pieces slash front :=
            List.filter_eq_self.mpr fun part hpart => by simpa using hparts part hpart
          rw [hall, dirPath_of_ne_nil (pieces_ne_nil _), rooted_pieces]
      · intro heq
        have hback : byte '\\' ∉ slash :: front := by
          intro hmem
          rcases List.mem_cons.mp hmem with hslash | hmem
          · exact absurd hslash (by decide)
          · exact h.no_backslash (mem_tail_of_front hfront hmem)
        have hsegments : ∀ q ∈ (pieces slash front).filter (· ≠ []), IsSegment q := by
          intro q hq
          have hmem : q ∈ segmentsAbove path := by
            unfold segmentsAbove
            rw [hfront]
            exact hq
          exact isSegment_of_mem_segmentsAbove h hmem
        exact (canonicalDirectory_iff hback).mpr ⟨_, hsegments, heq⟩

end Above

end Vtfs.Analysis
