import Vtfs.Library.Bytes
import Mathlib.Data.List.Induction

/-!
# Texts cut at a separator

`pieces` cuts a text at every separator, `beforeLast` is the part before the last one, and
`rooted` writes a separator before each part.  Cutting and joining are inverse on parts that have
no separator (`pieces_tail_rooted`, `rooted_pieces`).
-/

set_option autoImplicit false

namespace Vtfs.Library

variable {α : Type} [DecidableEq α]

/-- The parts of a text between separators.  A text without a separator is one part. -/
def pieces (sep : α) : List α → List (List α)
  | [] => [[]]
  | c :: cs =>
      if c = sep then [] :: pieces sep cs
      else match pieces sep cs with
        | [] => [[c]]
        | p :: ps => (c :: p) :: ps

/-- The part of a text before its last separator. -/
def beforeLast (sep : α) : List α → Option (List α)
  | [] => none
  | c :: cs =>
      match beforeLast sep cs with
      | some front => some (c :: front)
      | none => if c = sep then some [] else none

/-- The parts, each after a separator. -/
def rooted (sep : α) (parts : List (List α)) : List α := parts.flatMap fun p => sep :: p

section Pieces

variable {sep : α}

/-- Without a separator a text is one piece. -/
theorem pieces_of_not_mem {p : List α} (h : sep ∉ p) : pieces sep p = [p] := by
  induction p with
  | nil => rfl
  | cons c cs ih =>
      obtain ⟨hc, hcs⟩ := not_or.mp (mt List.mem_cons.mpr h)
      rw [pieces, if_neg (Ne.symm hc), ih hcs]

/-- Up to a separator there is the first piece. -/
theorem pieces_append_sep {p : List α} (h : sep ∉ p) (rest : List α) :
    pieces sep (p ++ sep :: rest) = p :: pieces sep rest := by
  induction p with
  | nil => simp [pieces]
  | cons c cs ih =>
      obtain ⟨hc, hcs⟩ := not_or.mp (mt List.mem_cons.mpr h)
      rw [List.cons_append, pieces, if_neg (Ne.symm hc), ih hcs]

variable (sep) in
/-- Induction on the parts of a text. -/
theorem pieces_induction {P : List α → Prop} (last : ∀ p, sep ∉ p → P p)
    (more : ∀ p rest, sep ∉ p → P rest → P (p ++ sep :: rest)) (text : List α) : P text := by
  induction hn : text.length using Nat.strongRecOn generalizing text with
  | ind n ih =>
      by_cases hmem : sep ∈ text
      · obtain ⟨rest, hrest⟩ := exists_upTo_append hmem
        have hlen := congrArg List.length hrest
        simp only [List.length_append, List.length_cons] at hlen
        rw [hrest]
        exact more _ rest (stop_not_mem_upTo sep text) (ih rest.length (by omega) rest rfl)
      · exact last text hmem

/-- There is at least one piece. -/
theorem pieces_ne_nil (text : List α) : pieces sep text ≠ [] := by
  induction text using pieces_induction sep with
  | last p h => simp [pieces_of_not_mem h]
  | more p rest h _ => simp [pieces_append_sep h]

/-- No piece has a separator in it. -/
theorem sep_not_mem_of_mem_pieces {text p : List α} (h : p ∈ pieces sep text) : sep ∉ p := by
  induction text using pieces_induction sep with
  | last q hq =>
      rw [pieces_of_not_mem hq] at h
      rwa [List.mem_singleton.mp h]
  | more q rest hq ih =>
      rw [pieces_append_sep hq] at h
      rcases List.mem_cons.mp h with rfl | h
      · exact hq
      · exact ih h

/-- At a separator the pieces of two texts meet. -/
theorem pieces_append (front rest : List α) :
    pieces sep (front ++ sep :: rest) = pieces sep front ++ pieces sep rest := by
  induction front using pieces_induction sep with
  | last p hp => rw [pieces_append_sep hp, pieces_of_not_mem hp, List.singleton_append]
  | more p text hp ih =>
      rw [List.append_assoc, List.cons_append, pieces_append_sep hp, ih, pieces_append_sep hp,
        List.cons_append]

omit [DecidableEq α] in

/-- Parts are written one after the other. -/
theorem rooted_append (parts parts' : List (List α)) :
    rooted sep (parts ++ parts') = rooted sep parts ++ rooted sep parts' := by
  simp [rooted]

/-- A text is written again from its pieces, with a separator in front. -/
theorem rooted_pieces (text : List α) : rooted sep (pieces sep text) = sep :: text := by
  induction text using pieces_induction sep with
  | last p h => simp [rooted, pieces_of_not_mem h]
  | more p rest h ih =>
      rw [pieces_append_sep h]
      calc rooted sep (p :: pieces sep rest)
          = sep :: p ++ rooted sep (pieces sep rest) := rfl
        _ = sep :: (p ++ sep :: rest) := by rw [ih]; rfl

omit [DecidableEq α] in

/-- The last part comes behind a separator. -/
theorem rooted_concat (parts : List (List α)) (p : List α) :
    rooted sep (parts ++ [p]) = rooted sep parts ++ sep :: p := by
  simp [rooted]

omit [DecidableEq α] in
/-- Parts joined one after the other, with a separator before each unless nothing is there yet. -/
theorem foldl_join {parts : List (List α)} (h : ∀ p ∈ parts, p ≠ []) :
    parts.foldl (fun out p => (if out = [] then out else out ++ [sep]) ++ p) [] =
      (rooted sep parts).tail := by
  induction parts using List.reverseRecOn with
  | nil => rfl
  | append_singleton parts p ih =>
      rw [List.foldl_append, List.foldl_cons, List.foldl_nil, rooted_concat,
        ih fun q hq => h q (List.mem_append_left _ hq)]
      rcases parts with - | ⟨q, qs⟩
      · simp [rooted]
      · have hq : q ≠ [] := h q (by simp)
        have htail : (rooted sep (q :: qs)).tail = q ++ rooted sep qs := by simp [rooted]
        rw [htail, if_neg (by simp [hq]), List.append_assoc, List.singleton_append, ← htail,
          List.tail_append_of_ne_nil (by simp [rooted])]

/-- Parts without separators are the pieces of what is written of them. -/
theorem pieces_tail_rooted {parts : List (List α)} (hne : parts ≠ [])
    (h : ∀ p ∈ parts, sep ∉ p) : pieces sep (rooted sep parts).tail = parts := by
  induction parts with
  | nil => exact absurd rfl hne
  | cons p ps ih =>
      have hp : sep ∉ p := h p (by simp)
      have hps : ∀ q ∈ ps, sep ∉ q := fun q hq => h q (List.mem_cons_of_mem _ hq)
      have htail : (rooted sep (p :: ps)).tail = p ++ rooted sep ps := by simp [rooted]
      rw [htail]
      by_cases hnil : ps = []
      · subst hnil
        simpa [rooted] using pieces_of_not_mem hp
      · obtain ⟨q, qs, rfl⟩ := List.exists_cons_of_ne_nil hnil
        have hcons : rooted sep (q :: qs) = sep :: (rooted sep (q :: qs)).tail := by
          simp [rooted]
        rw [hcons, pieces_append_sep hp, ih hnil hps]

/-- Parts without separators are found again in what is written of them. -/
theorem rooted_injective {parts parts' : List (List α)} (h : ∀ p ∈ parts, sep ∉ p)
    (h' : ∀ p ∈ parts', sep ∉ p) (heq : rooted sep parts = rooted sep parts') :
    parts = parts' := by
  have hnil : ∀ {ps : List (List α)}, rooted sep ps = [] → ps = [] := by
    intro ps hps
    cases ps with
    | nil => rfl
    | cons p ps => simp [rooted] at hps
  by_cases hp : parts = []
  · subst hp
    exact (hnil heq.symm).symm
  · have hp' : parts' ≠ [] := by
      rintro rfl
      exact hp (hnil heq)
    rw [← pieces_tail_rooted hp h, heq, pieces_tail_rooted hp' h']

end Pieces

section BeforeLast

variable {sep : α}

/-- Without a separator there is nothing before the last one. -/
theorem beforeLast_of_not_mem {text : List α} (h : sep ∉ text) : beforeLast sep text = none := by
  induction text with
  | nil => rfl
  | cons c cs ih =>
      obtain ⟨hc, hcs⟩ := not_or.mp (mt List.mem_cons.mpr h)
      rw [beforeLast, ih hcs]
      simp [Ne.symm hc]

/-- Before the last separator there is the front. -/
theorem beforeLast_append (front : List α) {leaf : List α} (h : sep ∉ leaf) :
    beforeLast sep (front ++ sep :: leaf) = some front := by
  induction front with
  | nil => simp [beforeLast, beforeLast_of_not_mem h]
  | cons c cs ih => rw [List.cons_append, beforeLast, ih]

/-- A text has no separator, or it is cut at its last one. -/
theorem beforeLast_cases (sep : α) (text : List α) :
    (sep ∉ text ∧ beforeLast sep text = none) ∨
      ∃ front leaf, sep ∉ leaf ∧ text = front ++ sep :: leaf ∧
        beforeLast sep text = some front := by
  by_cases hmem : sep ∈ text
  · right
    have hrev : sep ∈ text.reverse := List.mem_reverse.mpr hmem
    obtain ⟨rest, hrest⟩ := exists_upTo_append hrev
    refine ⟨rest.reverse, (upTo sep text.reverse).reverse, ?_, ?_, ?_⟩
    · exact fun h => stop_not_mem_upTo sep text.reverse (List.mem_reverse.mp h)
    · have hback := congrArg List.reverse hrest
      simpa using hback
    · have hback : text = rest.reverse ++ sep :: (upTo sep text.reverse).reverse := by
        have := congrArg List.reverse hrest
        simpa using this
      have hleaf : sep ∉ (upTo sep text.reverse).reverse := fun h =>
        stop_not_mem_upTo sep text.reverse (List.mem_reverse.mp h)
      calc beforeLast sep text
          = beforeLast sep (rest.reverse ++ sep :: (upTo sep text.reverse).reverse) := by
            rw [← hback]
        _ = some rest.reverse := beforeLast_append _ hleaf
  · exact Or.inl ⟨hmem, beforeLast_of_not_mem hmem⟩

end BeforeLast

end Vtfs.Library
