import Mathlib.Order.Defs.Unbundled
import Mathlib.Data.Nat.Notation

/-!
# Computations with a state, exceptions and fuel

`Fueled ε σ α` is a program that reads and writes a state, may throw, and may still be
running when its fuel is spent.  Every outcome carries the state reached, so that what a run
did so far can be read off a run that does not end.

`Advances` says that the state moves along a preorder; it is closed under sequencing.  `Triple` is
a precondition and a postcondition, with an invariant that also holds where the program throws or
stops.  `Eventually` says what a function of the fuel comes to when there is enough; a function that
spends one unit to run its body comes to what the body comes to (`Eventually.of_step`).
-/

set_option autoImplicit false

namespace Vtfs.Library

/-- The outcome of a run with bounded fuel. -/
inductive Outcome (ε σ α : Type) where
  | value (a : α) (state : σ)
  | thrown (error : ε) (state : σ)
  | running (state : σ)

namespace Outcome

variable {ε σ α : Type}

/-- The state a run has reached. -/
def state : Outcome ε σ α → σ
  | value _ s => s
  | thrown _ s => s
  | running s => s

/-- The run has ended, with a value or an exception. -/
def Ended : Outcome ε σ α → Prop
  | value _ _ => True
  | thrown _ _ => True
  | running _ => False

/-- The value, if the run returned one. -/
def value? : Outcome ε σ α → Option α
  | value a _ => some a
  | thrown _ _ => none
  | running _ => none

/-- There is a value exactly at the outcomes that end with one. -/
theorem value?_eq_some_iff {o : Outcome ε σ α} {a : α} :
    o.value? = some a ↔ ∃ s, o = value a s := by
  cases o <;> simp [value?]

/-- The state at a value. -/
@[simp] theorem state_value (a : α) (s : σ) : (value a s : Outcome ε σ α).state = s := rfl

/-- The state at an exception. -/
@[simp] theorem state_thrown (e : ε) (s : σ) : (thrown e s : Outcome ε σ α).state = s := rfl

/-- The state when the fuel is spent. -/
@[simp] theorem state_running (s : σ) : (running s : Outcome ε σ α).state = s := rfl

/-- A value ends a computation. -/
@[simp] theorem ended_value (a : α) (s : σ) : (value a s : Outcome ε σ α).Ended := trivial

/-- An exception ends a computation. -/
@[simp] theorem ended_thrown (e : ε) (s : σ) : (thrown e s : Outcome ε σ α).Ended := trivial

/-- Spent fuel does not. -/
@[simp] theorem not_ended_running (s : σ) : ¬ (running s : Outcome ε σ α).Ended := id

end Outcome

/-- A program over the state `σ` that may throw an `ε`. -/
def Fueled (ε σ α : Type) : Type := σ → Outcome ε σ α

namespace Fueled

variable {ε σ α β : Type}

/-- Sequencing: the second program runs from the state the first one left. -/
def bind (x : Fueled ε σ α) (f : α → Fueled ε σ β) : Fueled ε σ β := fun s =>
  match x s with
  | .value a t => f a t
  | .thrown e t => .thrown e t
  | .running t => .running t

instance : Monad (Fueled ε σ) where
  pure a := fun s => .value a s
  bind := bind

/-- Throwing an exception. -/
def throwing (e : ε) : Fueled ε σ α := fun s => .thrown e s

/-- Out of fuel. -/
def stalled : Fueled ε σ α := fun s => .running s

/-- A value alone leaves the state as it is. -/
@[simp] theorem pure_apply (a : α) (s : σ) :
    (pure a : Fueled ε σ α) s = .value a s := rfl

/-- So does an exception. -/
@[simp] theorem throwing_apply (e : ε) (s : σ) :
    (throwing e : Fueled ε σ α) s = .thrown e s := rfl

/-- A computation without fuel stays where it is. -/
@[simp] theorem stalled_apply (s : σ) : (stalled : Fueled ε σ α) s = .running s := rfl

/-- A sequence goes on with the value, and only with it. -/
theorem bind_apply (x : Fueled ε σ α) (f : α → Fueled ε σ β) (s : σ) :
    (x >>= f) s = match x s with
      | .value a t => f a t
      | .thrown e t => .thrown e t
      | .running t => .running t := rfl

/-- After a value a sequence is what follows it. -/
theorem bind_of_value {x : Fueled ε σ α} {s t : σ} {a : α} (h : x s = .value a t)
    (f : α → Fueled ε σ β) : (x >>= f) s = f a t := by
  rw [bind_apply, h]

/-- A sequence gives a value exactly when both of its parts do. -/
theorem bind_eq_value_iff {x : Fueled ε σ α} {f : α → Fueled ε σ β} {s t : σ} {b : β} :
    (x >>= f) s = .value b t ↔ ∃ a u, x s = .value a u ∧ f a u = .value b t := by
  rw [bind_apply]
  constructor
  · intro h
    cases hxs : x s with
    | value a u => exact ⟨a, u, rfl, by simpa only [hxs] using h⟩
    | thrown e u => simp [hxs] at h
    | running u => simp [hxs] at h
  · rintro ⟨a, u, hxs, hf⟩
    simpa only [hxs] using hf

/-- Sequences are associative. -/
theorem bind_bind {γ : Type} (x : Fueled ε σ α) (f : α → Fueled ε σ β) (g : β → Fueled ε σ γ) :
    (x >>= f) >>= g = x >>= fun a => f a >>= g := by
  funext s
  simp only [bind_apply]
  cases x s <;> rfl

/-- A choice is made before the state is looked at. -/
theorem apply_ite_apply (c : Prop) [Decidable c] (x y : Fueled ε σ α) (s : σ) :
    (if c then x else y) s = if c then x s else y s := by
  split <;> rfl

/-! ## Invariants -/

/-- The state moves along `R` in every run. -/
def Advances (R : σ → σ → Prop) (x : Fueled ε σ α) : Prop := ∀ s, R s (x s).state

section Advances

variable {R : σ → σ → Prop}

/-- A value alone keeps the state, which is an advance. -/
theorem Advances.pure [Std.Refl R] (a : α) :
    Advances R (Pure.pure a : Fueled ε σ α) := fun s => Std.Refl.refl s

/-- An exception keeps the state. -/
theorem Advances.throwing [Std.Refl R] (e : ε) :
    Advances R (throwing e : Fueled ε σ α) := fun s => Std.Refl.refl s

/-- A computation without fuel keeps the state. -/
theorem Advances.stalled [Std.Refl R] :
    Advances R (stalled : Fueled ε σ α) := fun s => Std.Refl.refl s

/-- A sequence of advances is an advance. -/
theorem Advances.bind [IsTrans σ R] {x : Fueled ε σ α} {f : α → Fueled ε σ β}
    (hx : Advances R x) (hf : ∀ a, Advances R (f a)) : Advances R (x >>= f) := by
  intro s
  have hfirst := hx s
  rw [bind_apply]
  cases hxs : x s with
  | value a t =>
      rw [hxs] at hfirst
      exact IsTrans.trans _ _ _ hfirst (hf a t)
  | thrown e t => rwa [hxs] at hfirst
  | running t => rwa [hxs] at hfirst

/-- A choice between advances is an advance. -/
theorem Advances.ite {c : Prop} [Decidable c] {x y : Fueled ε σ α} (hx : Advances R x)
    (hy : Advances R y) : Advances R (if c then x else y) := by
  split
  · exact hx
  · exact hy

end Advances

/-! ## Pre- and postconditions -/

/-- From a state of `I` and `P` the program comes to a state of `I`, and returns values of `Q`. -/
def Triple (I P : σ → Prop) (x : Fueled ε σ α) (Q : α → σ → Prop) : Prop :=
  ∀ s, I s → P s → I (x s).state ∧ ∀ a t, x s = .value a t → Q a t

section Triple

variable {I P : σ → Prop} {Q : α → σ → Prop} {R : β → σ → Prop}

/-- A value has the postcondition if the precondition gives it. -/
theorem Triple.pure {a : α} (h : ∀ s, I s → P s → Q a s) :
    Triple I P (Pure.pure a : Fueled ε σ α) Q := by
  refine fun s hI hP => ⟨hI, ?_⟩
  rintro b t ⟨⟩
  exact h s hI hP

/-- An exception has every postcondition, since it gives no value. -/
theorem Triple.throwing (e : ε) : Triple I P (throwing e : Fueled ε σ α) Q :=
  fun _ hI _ => ⟨hI, nofun⟩

/-- The rule of sequence: what holds between the parts carries over. -/
theorem Triple.bind {x : Fueled ε σ α} {f : α → Fueled ε σ β} (hx : Triple I P x Q)
    (hf : ∀ a, Triple I (Q a) (f a) R) : Triple I P (x >>= f) R := by
  intro s hI hP
  have hfirst := hx s hI hP
  rw [bind_apply]
  cases hxs : x s with
  | value a t =>
      rw [hxs] at hfirst
      exact hf a t hfirst.1 (hfirst.2 a t rfl)
  | thrown e t =>
      rw [hxs] at hfirst
      exact ⟨hfirst.1, nofun⟩
  | running t =>
      rw [hxs] at hfirst
      exact ⟨hfirst.1, nofun⟩

/-- The rule of choice: each branch knows how the test came out. -/
theorem Triple.ite {c : Prop} [Decidable c] {x y : Fueled ε σ α} (hx : c → Triple I P x Q)
    (hy : ¬ c → Triple I P y Q) : Triple I P (if c then x else y) Q := by
  split
  · exact hx ‹_›
  · exact hy ‹_›

end Triple

/-! ## Enough fuel -/

/-- With enough fuel, the outcome from every state of `I` is one of `P`. -/
def Eventually (I : σ → Prop) (x : ℕ → Fueled ε σ α) (P : Outcome ε σ α → Prop) : Prop :=
  ∃ n, ∀ m, n ≤ m → ∀ s, I s → P (x m s)

section Eventually

variable {I J : σ → Prop} {x : ℕ → Fueled ε σ α} {y : ℕ → Fueled ε σ β}
  {P : Outcome ε σ α → Prop} {Q : Outcome ε σ β → Prop}

/-- What comes of some fuel may be weakened. -/
theorem Eventually.imp (h : Eventually I x P) (himp : ∀ m s, P (x m s) → Q (y m s)) :
    Eventually I y Q := by
  obtain ⟨n, hn⟩ := h
  exact ⟨n, fun m hm s hs => himp m s (hn m hm s hs)⟩

/-- After a computation that returns `a`, what is left has its outcomes. -/
theorem Eventually.bind {f : ℕ → α → Fueled ε σ β} {a : α}
    (hx : Eventually I x fun outcome => ∃ t, outcome = .value a t ∧ J t)
    (hf : Eventually J (fun n => f n a) Q) : Eventually I (fun n => x n >>= f n) Q := by
  obtain ⟨n, hn⟩ := hx
  obtain ⟨k, hk⟩ := hf
  refine ⟨max n k, ?_⟩
  intro m hm s hs
  obtain ⟨t, hrun, ht⟩ := hn m (Nat.le_trans (Nat.le_max_left n k) hm) s hs
  simp only [bind_of_value hrun]
  exact hk m (Nat.le_trans (Nat.le_max_right n k) hm) t ht

/-- One more unit of fuel lets a function whose step is known run its body. -/
theorem Eventually.of_step {body : ℕ → Fueled ε σ α} (h : Eventually I body P)
    (hstep : ∀ n s, I s → ∃ s', I s' ∧ x (n + 1) s = body n s') : Eventually I x P := by
  obtain ⟨n, hn⟩ := h
  refine ⟨n + 1, ?_⟩
  intro m hm s hs
  obtain ⟨k, rfl⟩ : ∃ k, m = k + 1 := Nat.exists_eq_succ_of_ne_zero (by omega)
  obtain ⟨s', hs', hrun⟩ := hstep k s hs
  rw [hrun]
  exact hn k (by omega) s' hs'

end Eventually

end Fueled

/-- A sequence of fallible steps succeeds only when both steps do. -/
theorem except_bind_eq_ok_iff {ε α β : Type} {x : Except ε α} {f : α → Except ε β} {b : β} :
    (x >>= f) = .ok b ↔ ∃ a, x = .ok a ∧ f a = .ok b := by
  cases x <;> simp [bind, Except.bind]

/-- A value is no error. -/
theorem except_pure_ne_error {ε α : Type} (a : α) (e : ε) : (pure a : Except ε α) ≠ .error e :=
  nofun

/-- A sequence of steps ends with no error that neither step ends with. -/
theorem except_bind_ne_error {ε α β : Type} {x : Except ε α} {f : α → Except ε β} {e : ε}
    (hx : x ≠ .error e) (hf : ∀ a, f a ≠ .error e) : x >>= f ≠ .error e := by
  cases x with
  | error e' => exact fun h => hx (congrArg Except.error (Except.error.inj h))
  | ok a => exact hf a

end Vtfs.Library
