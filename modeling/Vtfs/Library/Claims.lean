import Mathlib.Data.List.Basic
import Mathlib.Logic.Function.Basic

/-!
# Claims

Owners claim keys, one key each: a key that is not taken is claimed, a claim is handed on to an
owner that has none, and a claim is released by the owner that has it.  Then the taken keys are
those that an owner has, and no two owners have the same one (`Exclusive.step`).
-/

set_option autoImplicit false

namespace Vtfs.Library

variable {κ τ : Type}

/-- The keys that are taken, and the key that each owner has. -/
structure Claims (κ τ : Type) where
  taken : List κ
  held : τ → Option κ

namespace Claims

/-- What can happen to claims. -/
inductive Step [DecidableEq κ] [DecidableEq τ] (c : Claims κ τ) : Claims κ τ → Prop where
  | claim (t : τ) (key : κ) : key ∉ c.taken → c.held t = none →
      Step c ⟨c.taken ++ [key], Function.update c.held t (some key)⟩
  | handOn (t u : τ) (key : κ) : c.held t = some key → c.held u = none →
      Step c ⟨c.taken, Function.update (Function.update c.held u (some key)) t none⟩
  | release (t : τ) (key : κ) : c.held t = some key →
      Step c ⟨c.taken.filter (· ≠ key), Function.update c.held t none⟩

/-- The taken keys are those that an owner has, and no two owners have the same one. -/
structure Exclusive (c : Claims κ τ) : Prop where
  one : ∀ t u key, c.held t = some key → c.held u = some key → t = u
  mem_taken_iff : ∀ key, key ∈ c.taken ↔ ∃ t, c.held t = some key

/-- With nothing taken there is nothing to share. -/
theorem exclusive_empty : Exclusive (⟨[], fun _ => none⟩ : Claims κ τ) where
  one := fun _ _ _ ht _ => by cases ht
  mem_taken_iff := fun _ => by simp

namespace Exclusive

variable {c d : Claims κ τ}

section Steps

variable [DecidableEq τ]

/-- A free key can be taken by whoever holds none. -/
theorem claim (h : c.Exclusive) {t : τ} {key : κ} (hfree : key ∉ c.taken)
    (hnone : c.held t = none) :
    Exclusive ⟨c.taken ++ [key], Function.update c.held t (some key)⟩ := by
  -- nobody has the key yet
  have hnobody : ∀ u, c.held u ≠ some key := fun u hu => hfree ((h.mem_taken_iff key).mpr ⟨u, hu⟩)
  constructor
  · intro u v other hu hv
    simp only [Function.update_apply] at hu hv
    split at hu <;> split at hv
    · simp_all
    · exact absurd (hu ▸ hv) (hnobody v)
    · exact absurd (hv ▸ hu) (hnobody u)
    · exact h.one u v other hu hv
  · intro other
    simp only [List.mem_append, List.mem_singleton, h.mem_taken_iff, Function.update_apply]
    constructor
    · rintro (⟨u, hu⟩ | rfl)
      · have hne : u ≠ t := fun heq => by simp [heq, hnone] at hu
        exact ⟨u, by rw [if_neg hne, hu]⟩
      · exact ⟨t, if_pos rfl⟩
    · rintro ⟨u, hu⟩
      split at hu
      · exact Or.inr (Option.some.inj hu).symm
      · exact Or.inl ⟨u, hu⟩

/-- A key that is held can be handed to whoever holds none. -/
theorem handOn (h : c.Exclusive) {t u : τ} {key : κ} (hkey : c.held t = some key)
    (hnone : c.held u = none) :
    Exclusive ⟨c.taken, Function.update (Function.update c.held u (some key)) t none⟩ := by
  have hne : u ≠ t := fun heq => by simp [heq, hkey] at hnone
  -- what an owner has afterwards
  have hheld : ∀ v other, Function.update (Function.update c.held u (some key)) t none v =
      some other ↔ v = u ∧ other = key ∨ v ≠ u ∧ v ≠ t ∧ c.held v = some other := by
    intro v other
    by_cases hvt : v = t
    · rw [hvt, Function.update_self]
      simp [hne.symm]
    · rw [Function.update_of_ne hvt]
      by_cases hvu : v = u
      · rw [hvu, Function.update_self]
        simp [eq_comm]
      · rw [Function.update_of_ne hvu]
        simp [hvu, hvt]
  constructor
  · intro v w other hv hw
    rw [hheld] at hv hw
    rcases hv with ⟨rfl, rfl⟩ | ⟨-, hvt, hv⟩ <;> rcases hw with ⟨rfl, hother⟩ | ⟨-, hwt, hw⟩
    · rfl
    · exact absurd (h.one w t _ hw hkey) hwt
    · exact absurd (h.one v t _ hv (hother ▸ hkey)) hvt
    · exact h.one v w other hv hw
  · intro other
    rw [h.mem_taken_iff]
    constructor
    · rintro ⟨v, hv⟩
      by_cases hvt : v = t
      · subst hvt
        exact ⟨u, (hheld u other).mpr (Or.inl ⟨rfl, Option.some.inj (hv.symm.trans hkey)⟩)⟩
      · have hvu : v ≠ u := fun heq => by simp [heq, hnone] at hv
        exact ⟨v, (hheld v other).mpr (Or.inr ⟨hvu, hvt, hv⟩)⟩
    · rintro ⟨v, hv⟩
      rcases (hheld v other).mp hv with ⟨-, rfl⟩ | ⟨-, -, hv⟩
      · exact ⟨t, hkey⟩
      · exact ⟨v, hv⟩

variable [DecidableEq κ]

/-- A key that is given up can be taken out. -/
theorem release (h : c.Exclusive) {t : τ} {key : κ} (hkey : c.held t = some key) :
    Exclusive ⟨c.taken.filter (· ≠ key), Function.update c.held t none⟩ := by
  have hheld : ∀ u other, Function.update c.held t none u = some other ↔
      u ≠ t ∧ c.held u = some other := by
    intro u other
    rw [Function.update_apply]
    split <;> simp_all
  constructor
  · intro u v other hu hv
    exact h.one u v other ((hheld u other).mp hu).2 ((hheld v other).mp hv).2
  · intro other
    simp only [List.mem_filter, decide_eq_true_eq, h.mem_taken_iff, hheld]
    constructor
    · rintro ⟨⟨u, hu⟩, hother⟩
      exact ⟨u, fun heq => hother (Option.some.inj (by rw [← hu, heq, hkey])), hu⟩
    · rintro ⟨u, hut, hu⟩
      exact ⟨⟨u, hu⟩, fun heq => hut (h.one u t key (heq ▸ hu) hkey)⟩

/-- A step keeps claims exclusive. -/
theorem step (h : c.Exclusive) (hstep : c.Step d) : d.Exclusive := by
  cases hstep with
  | claim t key hfree hnone => exact h.claim hfree hnone
  | handOn t u key hkey hnone => exact h.handOn hkey hnone
  | release t key hkey => exact h.release hkey

end Steps

end Exclusive

end Claims

end Vtfs.Library
