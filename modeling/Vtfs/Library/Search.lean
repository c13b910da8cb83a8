import Vtfs.Library.Bytes
import Mathlib.Data.List.Infix

/-!
# Texts cut at a pattern

`cutAt` is `find` for a pattern: the text before the first occurrence and the text after it.  What
it finds in a text it finds in every longer text (`cutAt_append`), so a search that is repeated
while the text grows comes to the same place as one search in all of it.
-/

set_option autoImplicit false

namespace Vtfs.Library

variable {α : Type} [DecidableEq α]

/-- The text before the first occurrence of a pattern, and the text after it. -/
def cutAt (pattern : List α) : List α → Option (List α × List α)
  | [] => if pattern = [] then some ([], []) else none
  | c :: cs =>
      if pattern <+: c :: cs then some ([], (c :: cs).drop pattern.length)
      else (cutAt pattern cs).map fun cut => (c :: cut.1, cut.2)

/-- A text that begins with the pattern is cut at once. -/
theorem cutAt_pattern_append {pattern : List α} (hne : pattern ≠ []) (rest : List α) :
    cutAt pattern (pattern ++ rest) = some ([], rest) := by
  obtain ⟨c, cs, rfl⟩ := List.exists_cons_of_ne_nil hne
  have hstarts : c :: cs <+: c :: (cs ++ rest) := List.prefix_append (c :: cs) rest
  have hdrop : (c :: (cs ++ rest)).drop (c :: cs).length = rest := by simp
  rw [List.cons_append, cutAt, if_pos hstarts, hdrop]

/-- Where the pattern does not begin, the search goes on behind the first element. -/
theorem cutAt_cons_skip {pattern : List α} {c : α} {cs : List α}
    (h : ¬ pattern <+: c :: cs) :
    cutAt pattern (c :: cs) = (cutAt pattern cs).map fun cut => (c :: cut.1, cut.2) := by
  rw [cutAt, if_neg h]

/-- A text is cut at its beginning, or behind its first element. -/
theorem cutAt_eq_some_cons_iff {pattern : List α} {c : α} {cs before after : List α} :
    cutAt pattern (c :: cs) = some (before, after) ↔
      (pattern <+: c :: cs ∧ before = [] ∧ after = (c :: cs).drop pattern.length) ∨
        ¬ pattern <+: c :: cs ∧ ∃ front, cutAt pattern cs = some (front, after) ∧
          before = c :: front := by
  by_cases h : pattern <+: c :: cs
  · rw [cutAt, if_pos h]
    simp only [Option.some.injEq, Prod.mk.injEq, h, true_and, not_true, false_and, or_false]
    constructor
    · rintro ⟨rfl, rfl⟩
      exact ⟨rfl, rfl⟩
    · rintro ⟨rfl, rfl⟩
      exact ⟨rfl, rfl⟩
  · rw [cutAt_cons_skip h]
    simp only [h, false_and, not_false_eq_true, true_and, false_or, Option.map_eq_some_iff,
      Prod.mk.injEq, Prod.exists]
    constructor
    · rintro ⟨front, _, hcut, rfl, rfl⟩
      exact ⟨front, hcut, rfl⟩
    · rintro ⟨front, hcut, rfl⟩
      exact ⟨front, after, hcut, rfl, rfl⟩

/-- A text that was cut is what was before, the pattern, and what was after. -/
theorem eq_of_cutAt {pattern text before after : List α}
    (h : cutAt pattern text = some (before, after)) : text = before ++ pattern ++ after := by
  induction text generalizing before with
  | nil =>
      rw [cutAt] at h
      split at h
      · rename_i hnil
        cases h
        simp [hnil]
      · cases h
  | cons c cs ih =>
      rcases cutAt_eq_some_cons_iff.mp h with ⟨⟨rest, hrest⟩, rfl, rfl⟩ | ⟨-, front, hcut, rfl⟩
      · rw [← hrest, List.drop_left, List.nil_append]
      · rw [ih hcut]
        simp

/-- The occurrence found is the first one. -/
theorem length_le_of_cutAt {pattern text before after : List α}
    (h : cutAt pattern text = some (before, after)) {front rest : List α}
    (htext : text = front ++ pattern ++ rest) : before.length ≤ front.length := by
  induction text generalizing before front with
  | nil =>
      have hbefore := congrArg List.length (eq_of_cutAt h)
      simp only [List.length_append, List.length_nil] at hbefore
      omega
  | cons c cs ih =>
      rcases cutAt_eq_some_cons_iff.mp h with ⟨-, rfl, -⟩ | ⟨hnot, later, hcut, rfl⟩
      · exact Nat.zero_le _
      · cases front with
        | nil => exact absurd ⟨rest, htext.symm⟩ hnot
        | cons d ds =>
            obtain ⟨-, hcs⟩ := List.cons.inj htext
            exact Nat.succ_le_succ (ih hcut hcs)

/-- An occurrence found stays the first one when the text grows. -/
theorem cutAt_append {pattern text before after : List α} (hne : pattern ≠ [])
    (h : cutAt pattern text = some (before, after)) (more : List α) :
    cutAt pattern (text ++ more) = some (before, after ++ more) := by
  induction text generalizing before with
  | nil => simp [cutAt, hne] at h
  | cons c cs ih =>
      rcases cutAt_eq_some_cons_iff.mp h with ⟨⟨rest, hrest⟩, rfl, rfl⟩ | ⟨hnot, front, hcut, rfl⟩
      · rw [← hrest, List.append_assoc, List.drop_left, cutAt_pattern_append hne]
      · -- an occurrence that needs the new items would start later than one that is there
        refine cutAt_eq_some_cons_iff.mpr (Or.inr ⟨fun hstarts => hnot ?_, front, ih hcut, rfl⟩)
        have hlength : pattern.length ≤ (c :: cs).length := by
          have htext := congrArg List.length (eq_of_cutAt hcut)
          simp only [List.length_append, List.length_cons] at htext ⊢
          omega
        exact List.prefix_of_prefix_length_le hstarts (List.prefix_append _ _) hlength

/-- The first occurrence is not before the first item of the pattern. -/
theorem cutAt_of_not_mem {c : α} {cs text : List α} (h : c ∉ text) (rest : List α) :
    cutAt (c :: cs) (text ++ c :: cs ++ rest) = some (text, rest) := by
  induction text with
  | nil => exact cutAt_pattern_append (by simp) rest
  | cons d ds ih =>
      obtain ⟨hd, hds⟩ := not_or.mp (mt List.mem_cons.mpr h)
      have hnot : ¬ c :: cs <+: d :: (ds ++ c :: cs ++ rest) :=
        fun hstarts => hd (List.cons_prefix_cons.mp hstarts).1
      rw [List.cons_append, List.cons_append, cutAt_cons_skip hnot, ih hds, Option.map_some]

/-- A pattern of one item cuts before the first such item. -/
theorem cutAt_singleton_eq_some_iff {c : α} {text before after : List α} :
    cutAt [c] text = some (before, after) ↔ text = before ++ [c] ++ after ∧ c ∉ before := by
  constructor
  · intro h
    have htext := eq_of_cutAt h
    refine ⟨htext, fun hmem => ?_⟩
    obtain ⟨front, rest, rfl⟩ := List.append_of_mem hmem
    have hearlier : text = front ++ [c] ++ (rest ++ [c] ++ after) := by
      rw [htext]
      simp only [List.append_assoc, List.cons_append, List.nil_append]
    have hfirst := length_le_of_cutAt h hearlier
    rw [List.length_append, List.length_cons] at hfirst
    omega
  · rintro ⟨rfl, hnot⟩
    exact cutAt_of_not_mem hnot after

/-- A text cannot be cut exactly when the pattern is not in it. -/
theorem cutAt_eq_none_iff {pattern text : List α} :
    cutAt pattern text = none ↔ ¬ pattern <:+: text := by
  induction text with
  | nil => simp [cutAt]
  | cons c cs ih =>
      rw [List.infix_cons_iff]
      by_cases hstarts : pattern <+: c :: cs
      · simp [cutAt, hstarts]
      · rw [cutAt_cons_skip hstarts, Option.map_eq_none_iff, ih]
        simp [hstarts]

/-- In a beginning of a text, the first occurrence is the same one or there is none. -/
theorem cutAt_of_prefix {pattern before rest text : List α} (hne : pattern ≠ [])
    (h : cutAt pattern (before ++ pattern ++ rest) = some (before, rest))
    (hbegins : text <+: before ++ pattern ++ rest) :
    cutAt pattern text =
      if before ++ pattern <+: text then some (before, text.drop (before ++ pattern).length)
      else none := by
  obtain ⟨more, hmore⟩ := hbegins
  cases hcut : cutAt pattern text with
  | none =>
      have hinfix := cutAt_eq_none_iff.mp hcut
      rw [if_neg]
      rintro ⟨after, hafter⟩
      exact hinfix ⟨before, after, hafter⟩
  | some cut =>
      obtain ⟨front, after⟩ := cut
      have hwhole := cutAt_append hne hcut more
      rw [hmore, h] at hwhole
      obtain ⟨rfl, -⟩ := Prod.mk.inj (Option.some.inj hwhole)
      have htext := eq_of_cutAt hcut
      rw [if_pos ⟨after, htext.symm⟩]
      rw [htext, List.drop_left]

/-- An occurrence of a pair of different items does not begin before the pair and end in it. -/
theorem cutAt_pair_append {a b : α} (hne : a ≠ b) {text : List α}
    (h : cutAt [a, b] text = none) (rest : List α) :
    cutAt [a, b] (text ++ [a, b] ++ rest) = some (text, rest) := by
  induction text with
  | nil => exact cutAt_pattern_append (by simp) rest
  | cons c cs ih =>
      have hnot : ¬ [a, b] <+: c :: cs := fun hstarts => by
        rw [cutAt, if_pos hstarts] at h
        cases h
      rw [cutAt_cons_skip hnot, Option.map_eq_none_iff] at h
      have hnot' : ¬ [a, b] <+: c :: (cs ++ [a, b] ++ rest) := by
        rw [List.cons_prefix_cons] at hnot ⊢
        rintro ⟨hc, hnext⟩
        cases cs with
        | nil =>
            have hba : b = a := by simpa using hnext
            exact hne hba.symm
        | cons d ds => exact hnot ⟨hc, by simpa using hnext⟩
      rw [List.cons_append, List.cons_append, cutAt_cons_skip hnot', ih h]
      rfl

omit [DecidableEq α] in
/-- A text that has no item `c` ends before an occurrence of `c`. -/
theorem exists_append_of_not_mem {before front after rest : List α} {c : α}
    (heq : before ++ c :: after = front ++ rest) (h : c ∉ front) :
    ∃ more, before = front ++ more ∧ rest = more ++ c :: after := by
  rcases List.append_eq_append_iff.mp heq with ⟨more, rfl, hmore⟩ | ⟨more, rfl, hmore⟩
  · cases more with
    | nil => exact ⟨[], by simp, by simpa using hmore.symm⟩
    | cons d ds =>
        obtain ⟨rfl, -⟩ := List.cons.inj hmore
        exact absurd (by simp) h
  · exact ⟨more, rfl, hmore⟩

end Vtfs.Library
