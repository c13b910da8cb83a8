import Mathlib.Data.List.Basic
import Mathlib.Algebra.BigOperators.Group.List.Basic
import Mathlib.Algebra.GroupWithZero.Nat

/-!
# Intervals in a row

Half-open intervals of naturals, each given by its start and its length.  `Tiles a blocks b` says
that they follow each other from `a` to `b` without a gap.  What a row says of neighbours, and of
its ends, is all of it (`tiles_of_neighbours`); intervals of a row do not meet (`Tiles.before`).
-/

set_option autoImplicit false

namespace Vtfs.Library

/-- The intervals follow each other, from the first point to the last. -/
def Tiles : ℕ → List (ℕ × ℕ) → ℕ → Prop
  | start, [], stop => start = stop
  | start, block :: rest, stop => block.1 = start ∧ Tiles (start + block.2) rest stop

section Tiles

variable {start stop : ℕ} {blocks : List (ℕ × ℕ)}

/-- No block lies between a position and itself. -/
theorem tiles_nil : Tiles start [] stop ↔ start = stop := Iff.rfl

/-- The first block begins at the start, and the others at its end. -/
theorem tiles_cons {block : ℕ × ℕ} :
    Tiles start (block :: blocks) stop ↔
      block.1 = start ∧ Tiles (start + block.2) blocks stop := Iff.rfl

/-- A row ends at its start and the lengths together. -/
theorem Tiles.stop_eq (h : Tiles start blocks stop) :
    stop = start + (blocks.map (·.2)).sum := by
  induction blocks generalizing start with
  | nil => simpa using (tiles_nil.mp h).symm
  | cons block rest ih =>
      obtain ⟨-, hrest⟩ := tiles_cons.mp h
      rw [ih hrest, List.map_cons, List.sum_cons, Nat.add_assoc]

/-- An interval lies between the ends. -/
theorem Tiles.within (h : Tiles start blocks stop) {block : ℕ × ℕ} (hmem : block ∈ blocks) :
    start ≤ block.1 ∧ block.1 + block.2 ≤ stop := by
  induction blocks generalizing start with
  | nil => simp at hmem
  | cons first rest ih =>
      obtain ⟨hfirst, hrest⟩ := tiles_cons.mp h
      rcases List.mem_cons.mp hmem with rfl | hmem
      · have hstop := hrest.stop_eq
        omega
      · obtain ⟨hstart, hend⟩ := ih hrest hmem
        exact ⟨by omega, hend⟩

/-- The first block begins at the start. -/
theorem Tiles.first (h : Tiles start blocks stop) {block : ℕ × ℕ}
    (hfirst : blocks[0]? = some block) :
    block.1 = start := by
  cases blocks with
  | nil => simp at hfirst
  | cons first rest =>
      obtain rfl : first = block := by simpa using hfirst
      exact (tiles_cons.mp h).1

/-- Each interval ends where the next one starts. -/
theorem Tiles.next (h : Tiles start blocks stop) {i : ℕ} {block after : ℕ × ℕ}
    (hi : blocks[i]? = some block) (hnext : blocks[i + 1]? = some after) :
    block.1 + block.2 = after.1 := by
  induction blocks generalizing start i with
  | nil => simp at hi
  | cons first rest ih =>
      obtain ⟨hfirst, hrest⟩ := tiles_cons.mp h
      rw [List.getElem?_cons_succ] at hnext
      cases i with
      | zero =>
          obtain rfl : first = block := by simpa using hi
          rw [hrest.first hnext, hfirst]
      | succ i =>
          rw [List.getElem?_cons_succ] at hi
          exact ih hrest hi hnext

/-- The last block ends at the stop. -/
theorem Tiles.last (h : Tiles start blocks stop) {block : ℕ × ℕ}
    (hlast : blocks.getLast? = some block) : block.1 + block.2 = stop := by
  induction blocks generalizing start with
  | nil => simp at hlast
  | cons first rest ih =>
      obtain ⟨hfirst, hrest⟩ := tiles_cons.mp h
      cases rest with
      | nil =>
          obtain rfl : first = block := by simpa using hlast
          rw [hfirst]
          exact tiles_nil.mp hrest
      | cons second rest =>
          rw [List.getLast?_cons_cons] at hlast
          exact ih hrest hlast

/-- An interval ends before a later one starts. -/
theorem Tiles.before (h : Tiles start blocks stop) {i j : ℕ} {block later : ℕ × ℕ} (hij : i < j)
    (hi : blocks[i]? = some block) (hj : blocks[j]? = some later) :
    block.1 + block.2 ≤ later.1 := by
  induction blocks generalizing start i j with
  | nil => simp at hi
  | cons first rest ih =>
      obtain ⟨hfirst, hrest⟩ := tiles_cons.mp h
      obtain ⟨j, rfl⟩ := Nat.exists_eq_add_of_lt hij
      rw [List.getElem?_cons_succ] at hj
      cases i with
      | zero =>
          obtain rfl : first = block := by simpa using hi
          have hwithin := hrest.within (List.mem_of_getElem? hj)
          omega
      | succ i =>
          rw [List.getElem?_cons_succ] at hi
          exact ih hrest (by omega) hi hj

/-- Intervals whose neighbours meet, from the start to the stop, are a row. -/
theorem tiles_of_neighbours (hempty : blocks = [] → start = stop)
    (hfirst : ∀ block, blocks[0]? = some block → block.1 = start)
    (hnext : ∀ (i : ℕ) (block after : ℕ × ℕ), blocks[i]? = some block →
      blocks[i + 1]? = some after → block.1 + block.2 = after.1)
    (hlast : ∀ block, blocks.getLast? = some block → block.1 + block.2 = stop) :
    Tiles start blocks stop := by
  induction blocks generalizing start with
  | nil => exact hempty rfl
  | cons first rest ih =>
      have hstart : first.1 = start := hfirst first rfl
      refine tiles_cons.mpr ⟨hstart, ih ?_ ?_ ?_ ?_⟩
      · rintro rfl
        rw [← hstart]
        exact hlast first rfl
      · intro block hblock
        rw [← hstart]
        exact (hnext 0 first block rfl hblock).symm
      · intro i block after hi hafter
        exact hnext (i + 1) block after hi hafter
      · intro block hblock
        apply hlast
        cases rest with
        | nil => simp at hblock
        | cons second rest => rwa [List.getLast?_cons_cons]

end Tiles

end Vtfs.Library
