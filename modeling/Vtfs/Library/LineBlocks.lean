import Vtfs.Library.Search

/-!
# Lines up to an empty one

A header is lines, each with an end of two different items after it, and one more end.  The first
place where two ends meet is right after the lines (`cutAt_blank`), so the lines and what follows
them are found again.
-/

set_option autoImplicit false

namespace Vtfs.Library.LineBlocks

variable {α : Type} {a b : α}

/-- Lines, each after an end. -/
def led (a b : α) (lines : List (List α)) : List α := lines.flatMap fun line => a :: b :: line

/-- Each line is led by its line end. -/
theorem led_cons (line : List α) (lines : List (List α)) :
    led a b (line :: lines) = a :: b :: (line ++ led a b lines) := by
  rw [led, led, List.flatMap_cons, List.cons_append, List.cons_append]

variable [DecidableEq α]

/-- A text without the first item of a pattern has nothing to find. -/
theorem cutAt_append_of_not_mem {cs text : List α} (h : a ∉ text) (rest : List α) :
    cutAt (a :: cs) (text ++ rest) =
      (cutAt (a :: cs) rest).map fun cut => (text ++ cut.1, cut.2) := by
  induction text with
  | nil => simp
  | cons c text ih =>
      obtain ⟨hc, htext⟩ := not_or.mp (mt List.mem_cons.mpr h)
      have hnot : ¬ a :: cs <+: c :: (text ++ rest) :=
        fun hstarts => hc (List.cons_prefix_cons.mp hstarts).1
      rw [List.cons_append, cutAt_cons_skip hnot, ih htext, Option.map_map]
      rfl

/-- **The first empty line** is the one after the lines, when no line is empty or has the first
item of an end. -/
theorem cutAt_blank (hne : a ≠ b) {first : List α} {rest : List (List α)} (hfirst : a ∉ first)
    (hrest : ∀ line ∈ rest, line ≠ [] ∧ a ∉ line) (body : List α) :
    cutAt [a, b, a, b] (first ++ led a b rest ++ [a, b, a, b] ++ body) =
      some (first ++ led a b rest, body) := by
  induction rest generalizing first with
  | nil =>
      rw [led, List.flatMap_nil, List.append_nil]
      exact cutAt_of_not_mem hfirst body
  | cons line rest ih =>
      obtain ⟨hline, hlines⟩ := List.forall_mem_cons.mp hrest
      have hnext := ih hline.2 hlines
      set others := line ++ led a b rest ++ [a, b, a, b] ++ body with hothers
      have htext : first ++ led a b (line :: rest) ++ [a, b, a, b] ++ body =
          first ++ a :: b :: others := by
        rw [hothers, led_cons]
        simp only [List.append_assoc, List.cons_append]
      -- after this end there is a line, so the next end does not meet it
      have hend : ¬ [a, b, a, b] <+: a :: b :: others := by
        obtain ⟨c, cs, rfl⟩ := List.exists_cons_of_ne_nil hline.1
        intro hstarts
        simp only [hothers, List.cons_append, List.cons_prefix_cons, true_and] at hstarts
        exact hline.2 (by simp [hstarts.1])
      have hinside : ¬ [a, b, a, b] <+: b :: others :=
        fun hstarts => hne (List.cons_prefix_cons.mp hstarts).1
      rw [htext, cutAt_append_of_not_mem hfirst, cutAt_cons_skip hend, cutAt_cons_skip hinside,
        hnext, led_cons]
      rfl

end Vtfs.Library.LineBlocks
