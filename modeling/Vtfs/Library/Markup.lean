import Vtfs.Library.Pieces
import Mathlib.Data.List.Infix

/-!
# Escaped text, and tags

Text that may hold any items is written between tags with some of its items as entities.  A table
of entities of which none begins another is undone item by item (`unescape_escape`), and a text
without the item that opens a tag does not change what the tags are (`tagged_written`).
-/

set_option autoImplicit false

namespace Vtfs.Library.Markup

variable {α : Type} [DecidableEq α]

/-! ## Entities -/

/-- Entities and the items they stand for.  All begin with a mark, which has an entity itself, and
none begins another. -/
structure Entities (α : Type) where
  table : List (List α × α)
  mark : α
  marked : ∀ e ∈ table, e.1.head? = some mark
  covers : ∃ e ∈ table, e.2 = mark
  free : ∀ e ∈ table, ∀ e' ∈ table, e'.1 <+: e.1 → e' = e

namespace Entities

variable (entities : Entities α)

/-- An item as it is written. -/
def escapeItem (c : α) : List α :=
  match entities.table.find? fun e => e.2 = c with
  | some e => e.1
  | none => [c]

/-- A text as it is written. -/
def escape (text : List α) : List α := text.flatMap entities.escapeItem

/-- A written text read back, with the number of items of an entity that are still to be passed. -/
def undo : ℕ → List α → List α
  | _, [] => []
  | skip + 1, _ :: cs => undo skip cs
  | 0, c :: cs =>
      match entities.table.find? fun e => e.1 <+: c :: cs with
      | some e => e.2 :: undo (e.1.length - 1) cs
      | none => c :: undo 0 cs

/-- A written text read back. -/
def unescape (text : List α) : List α := entities.undo 0 text

/-- The characters of an entity that was read are skipped. -/
theorem undo_skip (front rest : List α) :
    entities.undo front.length (front ++ rest) = entities.undo 0 rest := by
  induction front with
  | nil => rfl
  | cons c cs ih => rw [List.length_cons, List.cons_append, undo, ih]

/-- An entity is found at the beginning of what it begins. -/
theorem find?_append {e : List α × α} (he : e ∈ entities.table) (rest : List α) :
    (entities.table.find? fun e' => e'.1 <+: e.1 ++ rest) = some e := by
  cases hfind : entities.table.find? fun e' => e'.1 <+: e.1 ++ rest with
  | none =>
      have hnone := List.find?_eq_none.mp hfind e he
      simp at hnone
  | some e' =>
      have hbegins : e'.1 <+: e.1 ++ rest := by simpa using List.find?_some hfind
      have hmem := List.mem_of_find?_eq_some hfind
      rcases List.prefix_or_prefix_of_prefix hbegins (List.prefix_append e.1 rest) with h | h
      · rw [entities.free e he e' hmem h]
      · rw [entities.free e' hmem e he h]

/-- An entity is read as the character that it stands for. -/
theorem undo_entity {e : List α × α} (he : e ∈ entities.table) (rest : List α) :
    entities.undo 0 (e.1 ++ rest) = e.2 :: entities.undo 0 rest := by
  have hfind := entities.find?_append he rest
  have hhead := entities.marked e he
  cases hcode : e.1 with
  | nil =>
      rw [hcode] at hhead
      cases hhead
  | cons c cs =>
      rw [hcode, List.cons_append] at hfind
      rw [List.cons_append, undo, hfind]
      simp only [hcode, List.length_cons, Nat.add_sub_cancel]
      rw [undo_skip]

/-- An item that is not the mark stands for itself. -/
theorem undo_item {c : α} (hc : c ≠ entities.mark) (rest : List α) :
    entities.undo 0 (c :: rest) = c :: entities.undo 0 rest := by
  have hfind : (entities.table.find? fun e => e.1 <+: c :: rest) = none := by
    refine List.find?_eq_none.mpr fun e he hbegins => hc ?_
    obtain ⟨more, hmore⟩ : e.1 <+: c :: rest := by simpa using hbegins
    have hhead := entities.marked e he
    cases hcode : e.1 with
    | nil =>
        rw [hcode] at hhead
        cases hhead
    | cons d ds =>
        rw [hcode] at hhead hmore
        rw [← (List.cons.inj hmore).1]
        exact Option.some.inj hhead
  rw [undo, hfind]

/-- What is written for a character is read as the character. -/
theorem undo_escapeItem (c : α) (rest : List α) :
    entities.undo 0 (entities.escapeItem c ++ rest) = c :: entities.undo 0 rest := by
  unfold escapeItem
  cases hfind : entities.table.find? fun e => e.2 = c with
  | none =>
      refine entities.undo_item (fun hmark => ?_) rest
      obtain ⟨e, he, hcovers⟩ := entities.covers
      have hnone := List.find?_eq_none.mp hfind e he
      simp [hcovers, hmark] at hnone
  | some e =>
      have hitem : e.2 = c := by simpa using List.find?_some hfind
      exact (entities.undo_entity (List.mem_of_find?_eq_some hfind) rest).trans (by rw [hitem])

/-- **Entities are undone**, also in a text that has entities itself. -/
theorem unescape_escape (text : List α) : entities.unescape (entities.escape text) = text := by
  unfold unescape escape
  induction text with
  | nil => rfl
  | cons c cs ih => rw [List.flatMap_cons, undo_escapeItem, ih]

/-- Different texts are written differently. -/
theorem escape_injective : Function.Injective entities.escape :=
  Function.LeftInverse.injective entities.unescape_escape

/-- A text is written without an item that has an entity and is in none. -/
theorem not_mem_escape {c : α} (hentity : ∃ e ∈ entities.table, e.2 = c)
    (hcodes : ∀ e ∈ entities.table, c ∉ e.1) (text : List α) : c ∉ entities.escape text := by
  intro hmem
  obtain ⟨d, -, hitem⟩ := List.mem_flatMap.mp hmem
  unfold escapeItem at hitem
  cases hfind : entities.table.find? fun e => e.2 = d with
  | none =>
      rw [hfind] at hitem
      obtain ⟨e, he, rfl⟩ := hentity
      have hnone := List.find?_eq_none.mp hfind e he
      simp [List.mem_singleton.mp hitem] at hnone
  | some e =>
      rw [hfind] at hitem
      exact hcodes e (List.mem_of_find?_eq_some hfind) hitem

end Entities

/-! ## Tags -/

/-- Tags, each with the text after it, between an item that opens a tag and one that closes it. -/
def written (opens closes : α) (parts : List (List α × List α)) : List α :=
  rooted opens (parts.map fun part => part.1 ++ closes :: part.2)

/-- The tags of a text, each with the text after it. -/
def tagged (opens closes : α) (text : List α) : List (List α × List α) :=
  (pieces opens text).tail.map fun piece =>
    (upTo closes piece, piece.drop ((upTo closes piece).length + 1))

section Tags

variable {opens closes : α}

omit [DecidableEq α] in

/-- Parts are written one after the other. -/
theorem written_append (parts parts' : List (List α × List α)) :
    written opens closes (parts ++ parts') =
      written opens closes parts ++ written opens closes parts' := by
  rw [written, List.map_append, rooted_append]
  rfl

/-- **Tags are read back** where the items that open and close a tag are not in them, nor the one
that opens a tag in the texts. -/
theorem tagged_written (hne : opens ≠ closes) {parts : List (List α × List α)}
    (h : ∀ part ∈ parts, opens ∉ part.1 ∧ closes ∉ part.1 ∧ opens ∉ part.2) :
    tagged opens closes (written opens closes parts) = parts := by
  have hpieces : (pieces opens (written opens closes parts)).tail =
      parts.map fun part => part.1 ++ closes :: part.2 := by
    unfold written
    by_cases hnil : parts = []
    · subst hnil
      rfl
    · have hfree : ∀ piece ∈ parts.map fun part => part.1 ++ closes :: part.2, opens ∉ piece := by
        intro piece hpiece
        obtain ⟨part, hpart, rfl⟩ := List.mem_map.mp hpiece
        obtain ⟨htag, -, htext⟩ := h part hpart
        simp [htag, hne, htext]
      have hread := pieces_tail_rooted (by simpa using hnil) hfree
      obtain ⟨part, rest, rfl⟩ := List.exists_cons_of_ne_nil hnil
      rw [List.map_cons, rooted, List.flatMap_cons, List.cons_append, List.tail_cons] at hread
      rw [List.map_cons, rooted, List.flatMap_cons, List.cons_append, pieces, if_pos rfl,
        List.tail_cons]
      exact hread
  rw [tagged, hpieces, List.map_map]
  refine (List.map_congr_left fun part hpart => ?_).trans (List.map_id parts)
  obtain ⟨-, htag, -⟩ := h part hpart
  simp only [Function.comp_apply, upTo_append htag, id]
  rw [← List.drop_drop, List.drop_left]
  rfl

end Tags

end Vtfs.Library.Markup
