import Mathlib.Data.List.Basic
import Mathlib.Data.List.Induction

/-!
# A list put together from its parts

A part is some items and the position of the first of them.  Parts of one list, put over each other
in any order and with any overlaps, give the item of the list at each position that one of them
covers, and nothing at the others (`assemble_of_covers`, `assemble_of_not_covers`).
-/

set_option autoImplicit false

namespace Vtfs.Library.Assembly

variable {α : Type}

/-- Items, and the position of the first of them. -/
structure Part (α : Type) where
  first : ℕ
  items : List α

namespace Part

/-- The items are those of a list at these positions. -/
def Of (part : Part α) (contents : List α) : Prop :=
  ∀ k item, part.items[k]? = some item → contents[part.first + k]? = some item

/-- There is an item for a position. -/
def Covers (part : Part α) (position : ℕ) : Prop :=
  part.first ≤ position ∧ position < part.first + part.items.length

end Part

/-- What is known of each position, after a part was put over what was known. -/
def put (known : ℕ → Option α) (part : Part α) (position : ℕ) : Option α :=
  if part.first ≤ position then (part.items[position - part.first]?).or (known position)
  else known position

/-- What is known after parts, one after the other. -/
def assemble (parts : List (Part α)) : ℕ → Option α := parts.foldl put fun _ => none

/-- A part of the contents brings what they have where it lies. -/
theorem put_of_covers {part : Part α} {contents : List α} (hof : part.Of contents)
    (known : ℕ → Option α) {position : ℕ} (h : part.Covers position) :
    put known part position = contents[position]? := by
  obtain ⟨hle, hlt⟩ := h
  have hindex : position - part.first < part.items.length := by omega
  have hitem : part.items[position - part.first]? = some part.items[position - part.first] :=
    List.getElem?_eq_getElem hindex
  have hthere := hof _ _ hitem
  rw [Nat.add_sub_cancel' hle] at hthere
  rw [put, if_pos hle, hitem, Option.some_or, hthere]

/-- Elsewhere a part changes nothing. -/
theorem put_of_not_covers {part : Part α} (known : ℕ → Option α) {position : ℕ}
    (h : ¬ part.Covers position) : put known part position = known position := by
  unfold put
  split
  next hle =>
    have hpast : part.items.length ≤ position - part.first := by
      by_contra hlt
      exact h ⟨hle, by omega⟩
    rw [List.getElem?_eq_none hpast, Option.none_or]
  next => rfl

/-- The last part is put over what the others came to. -/
theorem assemble_concat (parts : List (Part α)) (part : Part α) :
    assemble (parts ++ [part]) = put (assemble parts) part := List.foldl_concat ..

/-- At a position that a part covers there is the item of the list. -/
theorem assemble_of_covers {parts : List (Part α)} {contents : List α}
    (hof : ∀ part ∈ parts, part.Of contents) {position : ℕ}
    (h : ∃ part ∈ parts, part.Covers position) : assemble parts position = contents[position]? := by
  induction parts using List.reverseRecOn with
  | nil =>
      obtain ⟨part, hmem, -⟩ := h
      cases hmem
  | append_singleton parts last ih =>
      rw [assemble_concat]
      by_cases hlast : last.Covers position
      · exact put_of_covers (hof last (by simp)) _ hlast
      · obtain ⟨part, hmem, hcovers⟩ := h
        have hother : part ∈ parts := by
          rcases List.mem_append.mp hmem with hmem | hmem
          · exact hmem
          · exact absurd (List.mem_singleton.mp hmem ▸ hcovers) hlast
        rw [put_of_not_covers _ hlast]
        exact ih (fun part hpart => hof part (List.mem_append_left _ hpart))
          ⟨part, hother, hcovers⟩

/-- Nothing is known of a position that no part covers. -/
theorem assemble_of_not_covers {parts : List (Part α)} {position : ℕ}
    (h : ∀ part ∈ parts, ¬ part.Covers position) : assemble parts position = none := by
  induction parts using List.reverseRecOn with
  | nil => rfl
  | append_singleton parts last ih =>
      rw [assemble_concat, put_of_not_covers _ (h last (by simp))]
      exact ih fun part hpart => h part (List.mem_append_left _ hpart)

/-- What is known is as it is in the list. -/
theorem assemble_of {parts : List (Part α)} {contents : List α}
    (hof : ∀ part ∈ parts, part.Of contents) {position : ℕ} {item : α}
    (h : assemble parts position = some item) : contents[position]? = some item := by
  by_cases hcovers : ∃ part ∈ parts, part.Covers position
  · rwa [assemble_of_covers hof hcovers] at h
  · have hnone : ∀ part ∈ parts, ¬ part.Covers position :=
      fun part hpart hcover => hcovers ⟨part, hpart, hcover⟩
    rw [assemble_of_not_covers hnone] at h
    cases h

example : (List.range 4).map (assemble [⟨2, [7, 8]⟩, ⟨0, [5, 6, 7]⟩]) =
    [some 5, some 6, some 7, some 8] := by decide

end Vtfs.Library.Assembly
