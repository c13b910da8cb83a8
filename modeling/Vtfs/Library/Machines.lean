import Mathlib.Logic.Function.Iterate
import Vtfs.Library.Fueled

/-!
# Machines that carry out computations

A computation with fuel calls itself; a machine takes one step after the other and keeps what is
still to be done.  `Simulates` says that a machine comes to what the computation comes to: to where
the value is handed on, to where the exception has ended everything, or, when the fuel was spent,
to the same state, still at work, after at least as many steps as there was fuel.

A step of the machine pays for one unit of fuel (`Simulates.of_next`), and the machine carries out
a sequence by carrying out its parts (`Simulates.bind`).
-/

set_option autoImplicit false

namespace Vtfs.Library.Machines

variable {ε σ M α β : Type}

/-- A machine: its step, where it is when an exception has ended it, and when it is still at work
in a state. -/
structure Driver (ε σ M : Type) where
  next : M → M
  threw : ε → σ → M
  Busy : σ → M → Prop

/-- From `m` the machine comes to the outcome, with a value handed on to `returned`. -/
def Simulates (d : Driver ε σ M) (fuel : ℕ) (m : M) (returned : α → σ → M) :
    Outcome ε σ α → Prop
  | .value a t => ∃ n, d.next^[n] m = returned a t
  | .thrown e t => ∃ n, d.next^[n] m = d.threw e t
  | .running t => ∃ n, fuel ≤ n ∧ d.Busy t (d.next^[n] m)

namespace Simulates

variable {d : Driver ε σ M} {fuel : ℕ} {m m' : M} {returned : α → σ → M}
  {o : Outcome ε σ α}

/-- At the place to which a value is handed on, the machine has come to it. -/
theorem value {a : α} {t : σ} (h : m = returned a t) : Simulates d fuel m returned (.value a t) :=
  ⟨0, h⟩

/-- Where an exception has ended everything, the machine has come to it. -/
theorem thrown {e : ε} {t : σ} (h : m = d.threw e t) :
    Simulates d fuel m returned (.thrown e t) :=
  ⟨0, h⟩

/-- When there was no fuel, a machine at work has come to the same. -/
theorem stalled {t : σ} (h : d.Busy t m) : Simulates d 0 m returned (.running t) :=
  ⟨0, Nat.le_refl 0, h⟩

/-- Steps before it are part of what the machine does. -/
theorem of_iterate {n : ℕ} (hn : d.next^[n] m = m') (h : Simulates d fuel m' returned o) :
    Simulates d fuel m returned o := by
  subst hn
  cases o with
  | value a t =>
      obtain ⟨k, hk⟩ := h
      exact ⟨k + n, by rw [Function.iterate_add_apply, hk]⟩
  | thrown e t =>
      obtain ⟨k, hk⟩ := h
      exact ⟨k + n, by rw [Function.iterate_add_apply, hk]⟩
  | running t =>
      obtain ⟨k, hfuel, hbusy⟩ := h
      exact ⟨k + n, by omega, by rwa [Function.iterate_add_apply]⟩

/-- A step of the machine may come before. -/
theorem of_step (hstep : d.next m = m') (h : Simulates d fuel m' returned o) :
    Simulates d fuel m returned o :=
  of_iterate (n := 1) hstep h

/-- A step pays for a unit of fuel. -/
theorem of_next (hnext : d.next m = m') (h : Simulates d fuel m' returned o) :
    Simulates d (fuel + 1) m returned o := by
  subst hnext
  cases o with
  | value a t =>
      obtain ⟨n, hn⟩ := h
      exact ⟨n + 1, hn⟩
  | thrown e t =>
      obtain ⟨n, hn⟩ := h
      exact ⟨n + 1, hn⟩
  | running t =>
      obtain ⟨n, hfuel, hbusy⟩ := h
      exact ⟨n + 1, Nat.succ_le_succ hfuel, hbusy⟩

/-- A sequence is carried out part by part. -/
theorem bind {x : Fueled ε σ α} {f : α → Fueled ε σ β} {s : σ} {returned' : β → σ → M}
    (hx : Simulates d fuel m returned (x s))
    (hf : ∀ a t, x s = .value a t → Simulates d fuel (returned a t) returned' (f a t)) :
    Simulates d fuel m returned' ((x >>= f) s) := by
  rw [Fueled.bind_apply]
  cases hxs : x s with
  | value a t =>
      rw [hxs] at hx
      obtain ⟨n, hn⟩ := hx
      exact of_iterate hn (hf a t hxs)
  | thrown e t => rwa [hxs] at hx
  | running t => rwa [hxs] at hx

/-- What can be seen of the machine comes to what is seen of the outcome. -/
theorem exists_view {τ : Type} {view : M → τ} {seen : σ → τ} (h : Simulates d fuel m returned o)
    (hvalue : ∀ a t, view (returned a t) = seen t) (hthrown : ∀ e t, view (d.threw e t) = seen t)
    (hbusy : ∀ t m, d.Busy t m → view m = seen t) :
    ∃ n, view (d.next^[n] m) = seen o.state := by
  cases o with
  | value a t =>
      obtain ⟨n, hn⟩ := h
      exact ⟨n, by rw [hn]; exact hvalue a t⟩
  | thrown e t =>
      obtain ⟨n, hn⟩ := h
      exact ⟨n, by rw [hn]; exact hthrown e t⟩
  | running t =>
      obtain ⟨n, -, hn⟩ := h
      exact ⟨n, hbusy t _ hn⟩

end Simulates

end Vtfs.Library.Machines
