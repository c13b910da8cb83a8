import Mathlib.Algebra.BigOperators.Finprod
import Mathlib.Algebra.Order.BigOperators.Group.Finset
import Mathlib.Data.Set.Card

/-!
# Sums over places

A system has something at each of infinitely many places and a weight for it, and all but finitely
many places weigh nothing.  `tally` is the sum of the weights; a change at one place changes it by
the weight there (`tally_update`).
-/

set_option autoImplicit false

namespace Vtfs.Library

variable {ι α : Type} {weight : α → ℕ} {g : ι → α}

/-- The places that weigh something. -/
def weighing (weight : α → ℕ) (g : ι → α) : Set ι := Function.support fun i => weight (g i)

/-- The sum of the weights. -/
noncomputable def tally (weight : α → ℕ) (g : ι → α) : ℕ := ∑ᶠ i, weight (g i)

/-- The tally is the sum over any places that include those with a weight. -/
theorem tally_eq_sum {places : Finset ι} (h : weighing weight g ⊆ places) :
    tally weight g = ∑ i ∈ places, weight (g i) :=
  finsum_eq_sum_of_support_subset _ h

/-- With a bound for the weights, the sum is bounded by the number of places that weigh. -/
theorem tally_le {bound : ℕ} (h : (weighing weight g).Finite) (hbound : ∀ x, weight x ≤ bound) :
    tally weight g ≤ bound * (weighing weight g).ncard := by
  have hsubset : weighing weight g ⊆ (h.toFinset : Finset ι) := by simp
  rw [tally_eq_sum hsubset, Set.ncard_eq_toFinset_card _ h, Nat.mul_comm]
  exact Finset.sum_le_card_nsmul _ _ _ fun i _ => hbound (g i)

variable [DecidableEq ι]

/-- A change at one place gives weight to that place at most. -/
theorem weighing_update_subset (i : ι) (x : α) :
    weighing weight (Function.update g i x) ⊆ insert i (weighing weight g) := by
  intro j hj
  by_cases hji : j = i
  · exact Or.inl hji
  · right
    simpa [weighing, hji] using hj

/-- A change at one place leaves finitely many with a weight. -/
theorem finite_weighing_update (h : (weighing weight g).Finite) (i : ι) (x : α) :
    (weighing weight (Function.update g i x)).Finite :=
  (h.insert i).subset (weighing_update_subset i x)

/-- The weight at one place is taken for another. -/
theorem tally_update (h : (weighing weight g).Finite) (i : ι) (x : α) :
    tally weight (Function.update g i x) + weight (g i) = tally weight g + weight x := by
  set places : Finset ι := insert i h.toFinset with hplaces
  have hmem : i ∈ places := Finset.mem_insert_self _ _
  have hbefore : weighing weight g ⊆ places := by
    intro j hj
    rw [hplaces, Finset.coe_insert, Set.Finite.coe_toFinset]
    exact Set.mem_insert_of_mem _ hj
  have hafter : weighing weight (Function.update g i x) ⊆ places := by
    rw [hplaces, Finset.coe_insert, Set.Finite.coe_toFinset]
    exact weighing_update_subset i x
  have hothers : ∑ j ∈ places.erase i, weight (Function.update g i x j) =
      ∑ j ∈ places.erase i, weight (g j) :=
    Finset.sum_congr rfl fun j hj => by rw [Function.update_of_ne (Finset.ne_of_mem_erase hj)]
  rw [tally_eq_sum hbefore, tally_eq_sum hafter, ← Finset.add_sum_erase _ _ hmem,
    ← Finset.add_sum_erase _ _ hmem, hothers, Function.update_self]
  omega

end Vtfs.Library
