import Mathlib.Data.List.Basic

/-!
# Runs of a system

A system is a function from a state and an action to the state after it, with no value where the
action cannot be taken.  A run is guarded when every action in it meets a condition, which may look
at the state before it.  What holds at the start and is kept by guarded actions holds in every
state that guarded runs reach (`Reachable.invariant`).  A history is a part of the state that no
action depends on (`recorded`).
-/

set_option autoImplicit false

namespace Vtfs.Library

variable {σ η α : Type}

/-- The states that guarded runs reach from a state. -/
inductive Reachable (next : σ → α → Option σ) (guard : σ → α → Prop) (first : σ) : σ → Prop where
  | start : Reachable next guard first first
  | step {s t : σ} {a : α} : Reachable next guard first s → guard s a → next s a = some t →
      Reachable next guard first t

/-- Any action may be taken. -/
def anyAction (_ : σ) (_ : α) : Prop := True

/-- The state after actions, when all of them can be taken. -/
def endOf (next : σ → α → Option σ) (s : σ) (actions : List α) : Option σ := actions.foldlM next s

/-- A run goes on from where its first action led. -/
theorem endOf_cons {next : σ → α → Option σ} {s t : σ} {a : α} (h : next s a = some t)
    (actions : List α) : endOf next s (a :: actions) = endOf next t actions := by
  simp [endOf, h]

/-- A system that writes down what happens. -/
def recorded (next : σ → α → Option σ) (record : σ → α → η → η) (s : σ × η) (a : α) :
    Option (σ × η) :=
  (next s.1 a).map fun t => (t, record s.1 a s.2)

namespace Reachable

variable {next : σ → α → Option σ} {guard : σ → α → Prop} {first s t : σ}

/-- The rule for invariants. -/
theorem invariant {I : σ → Prop} (hfirst : I first)
    (hstep : ∀ s a t, I s → guard s a → next s a = some t → I t)
    (h : Reachable next guard first s) : I s := by
  induction h with
  | start => exact hfirst
  | step _ hguard hnext ih => exact hstep _ _ _ ih hguard hnext

/-- What is reached from a state that was reached is reached. -/
theorem trans (hfirst : Reachable next guard first s) (h : Reachable next guard s t) :
    Reachable next guard first t := by
  induction h with
  | start => exact hfirst
  | step _ hs hnext ih => exact .step ih hs hnext

/-- A condition that asks for less allows as many runs. -/
theorem imp {condition : σ → α → Prop} (hguard : ∀ s a, guard s a → condition s a)
    (h : Reachable next guard first s) : Reachable next condition first s := by
  induction h with
  | start => exact .start
  | step _ hs hnext ih => exact .step ih (hguard _ _ hs) hnext

/-- A run that goes on with actions that are always allowed. -/
theorem run {actions : List α} (hguard : ∀ a ∈ actions, ∀ u, guard u a)
    (h : Reachable next guard first s) (hrun : endOf next s actions = some t) :
    Reachable next guard first t := by
  induction actions generalizing s with
  | nil =>
      obtain rfl := Option.some.inj hrun
      exact h
  | cons a rest ih =>
      obtain ⟨u, hnext, hrest⟩ := Option.bind_eq_some_iff.mp hrun
      obtain ⟨ha, hothers⟩ := List.forall_mem_cons.mp hguard
      exact ih hothers (h.step (ha s) hnext) hrest

/-- A run that can be computed is one. -/
theorem of_endOf (actions : List α) (h : endOf next s actions = some t) :
    Reachable next anyAction s t := by
  induction actions generalizing s with
  | nil =>
      obtain rfl := Option.some.inj h
      exact .start
  | cons a rest ih =>
      obtain ⟨u, hnext, hrest⟩ := Option.bind_eq_some_iff.mp h
      exact (Reachable.start.step trivial hnext).trans (ih hrest)

end Reachable

/-- A recorded action goes where the action goes, and its record is kept. -/
theorem recorded_eq_some_iff {next : σ → α → Option σ} {record : σ → α → η → η} {s t : σ × η}
    {a : α} : recorded next record s a = some t ↔
      next s.1 a = some t.1 ∧ t.2 = record s.1 a s.2 := by
  obtain ⟨t, history⟩ := t
  simp only [recorded, Option.map_eq_some_iff, Prod.mk.injEq]
  constructor
  · rintro ⟨u, hnext, rfl, rfl⟩
    exact ⟨hnext, rfl⟩
  · rintro ⟨hnext, rfl⟩
    exact ⟨t, hnext, rfl, rfl⟩

end Vtfs.Library
