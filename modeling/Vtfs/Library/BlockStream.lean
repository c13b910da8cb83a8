import Mathlib.Data.List.Basic
import Mathlib.Data.List.Flatten

/-!
# Absorbing a stream block by block

A function on blocks is folded over a stream that arrives in pieces.  Between pieces the items
that do not fill a block are pending.  `Absorbs` relates what has arrived to the state and the
pending items; writing and flushing keep it, so the state depends on the stream alone and not on
how it was cut (`Absorbs.state_eq`).
-/

set_option autoImplicit false

namespace Vtfs.Library

variable {α σ : Type}

/-- The complete blocks of `size` items, in order. -/
def blocksOf (size : ℕ) (stream : List α) : List (List α) :=
  (List.range (stream.length / size)).map fun i => (stream.drop (size * i)).take size

/-- Blocks of one size take that size each. -/
theorem length_flatten_of_forall {size : ℕ} {blocks : List (List α)}
    (h : ∀ block ∈ blocks, block.length = size) :
    blocks.flatten.length = size * blocks.length := by
  induction blocks with
  | nil => simp
  | cons block blocks ih =>
      rw [List.flatten_cons, List.length_append, h block (by simp),
        ih fun b hb => h b (List.mem_cons_of_mem _ hb), List.length_cons, Nat.mul_succ,
        Nat.add_comm]

/-- The complete blocks are of the block size. -/
theorem length_of_mem_blocksOf (size : ℕ) (stream : List α) {block : List α}
    (h : block ∈ blocksOf size stream) : block.length = size := by
  obtain ⟨i, hi, rfl⟩ := List.mem_map.mp h
  have hle : size * (i + 1) ≤ stream.length :=
    Nat.le_trans (Nat.mul_le_mul_left size (List.mem_range.mp hi)) (Nat.mul_div_le _ _)
  rw [Nat.mul_succ] at hle
  rw [List.length_take, List.length_drop]
  omega

/-- Cutting a sequence of blocks gives the blocks. -/
theorem blocksOf_flatten {size : ℕ} (hsize : 0 < size) {blocks : List (List α)}
    (h : ∀ block ∈ blocks, block.length = size) : blocksOf size blocks.flatten = blocks := by
  induction blocks with
  | nil => simp [blocksOf]
  | cons block blocks ih =>
      have hblock : block.length = size := h block (by simp)
      have hrest := ih fun b hb => h b (List.mem_cons_of_mem _ hb)
      have hcount : (block ++ blocks.flatten).length / size = blocks.flatten.length / size + 1 := by
        rw [List.length_append, hblock, Nat.add_comm, Nat.add_div_right _ hsize]
      have hstep : ∀ i, ((block ++ blocks.flatten).drop (size * (i + 1))).take size =
          (blocks.flatten.drop (size * i)).take size := by
        intro i
        rw [Nat.mul_succ, Nat.add_comm, ← hblock, List.drop_length_add_append]
      calc blocksOf size (block :: blocks).flatten
          = block :: blocksOf size blocks.flatten := by
            simp only [blocksOf, List.flatten_cons, hcount, List.range_succ_eq_map, List.map_cons,
              List.map_map, Nat.mul_zero, List.drop_zero]
            rw [← hblock, List.take_left]
            rw [hblock]
            exact congrArg _ (List.map_congr_left fun i _ => hstep i)
        _ = block :: blocks := by rw [hrest]

/-- Items that do not fill a block are left over. -/
theorem blocksOf_append {size : ℕ} (hsize : 0 < size) {blocks : List (List α)}
    (h : ∀ block ∈ blocks, block.length = size) {rest : List α} (hrest : rest.length < size) :
    blocksOf size (blocks.flatten ++ rest) = blocks := by
  have hlength := length_flatten_of_forall h
  have hcount : (blocks.flatten ++ rest).length / size = blocks.length := by
    rw [List.length_append, hlength, Nat.mul_add_div hsize, Nat.div_eq_of_lt hrest, Nat.add_zero]
  have hsame : blocks.flatten.length / size = blocks.length := by
    rw [hlength, Nat.mul_div_cancel_left _ hsize]
  calc blocksOf size (blocks.flatten ++ rest)
      = blocksOf size blocks.flatten := by
        rw [blocksOf, blocksOf, hcount, hsame]
        refine List.map_congr_left fun i hi => ?_
        -- each block ends before the rest begins
        have hle : size * (i + 1) ≤ size * blocks.length :=
          Nat.mul_le_mul_left size (List.mem_range.mp hi)
        rw [Nat.mul_succ] at hle
        rw [List.drop_append_of_le_length (by omega),
          List.take_append_of_le_length (by rw [List.length_drop]; omega)]
    _ = blocks := blocksOf_flatten hsize h

/-- The stream has been absorbed into the state except for the pending items. -/
def Absorbs (compress : σ → List α → σ) (size : ℕ) (start : σ) (stream : List α) (state : σ)
    (pending : List α) : Prop :=
  ∃ blocks : List (List α), (∀ block ∈ blocks, block.length = size) ∧
    stream = blocks.flatten ++ pending ∧ state = blocks.foldl compress start

namespace Absorbs

variable {compress : σ → List α → σ} {size : ℕ} {start state : σ} {stream pending : List α}

/-- Before any input nothing is buffered and no block has been taken in. -/
theorem initial : Absorbs compress size start [] start [] :=
  ⟨[], by simp, rfl, rfl⟩

/-- Items are written behind the pending ones. -/
theorem write (h : Absorbs compress size start stream state pending) (piece : List α) :
    Absorbs compress size start (stream ++ piece) state (pending ++ piece) := by
  obtain ⟨blocks, hlength, hstream, hstate⟩ := h
  exact ⟨blocks, hlength, by rw [hstream, List.append_assoc], hstate⟩

/-- A full block of pending items is compressed. -/
theorem flush (h : Absorbs compress size start stream state pending)
    (hfull : pending.length = size) :
    Absorbs compress size start stream (compress state pending) [] := by
  obtain ⟨blocks, hlength, hstream, hstate⟩ := h
  refine ⟨blocks ++ [pending], fun block hblock => ?_, by simp [hstream], by simp [hstate]⟩
  rcases List.mem_append.mp hblock with hblock | hblock
  · exact hlength block hblock
  · rw [List.mem_singleton.mp hblock, hfull]

/-- As many items are pending as the complete blocks leave over. -/
theorem length_mod (h : Absorbs compress size start stream state pending) :
    stream.length % size = pending.length % size := by
  obtain ⟨blocks, hlength, rfl, -⟩ := h
  rw [List.length_append, length_flatten_of_forall hlength, Nat.mul_add_mod_self_left]

/-- With nothing pending, the state is the fold over the blocks of the stream. -/
theorem state_eq (hsize : 0 < size) (h : Absorbs compress size start stream state []) :
    state = (blocksOf size stream).foldl compress start := by
  obtain ⟨blocks, hlength, rfl, hstate⟩ := h
  rw [hstate, List.append_nil, blocksOf_flatten hsize hlength]

end Absorbs

end Vtfs.Library
