import Mathlib.Data.Multiset.AddSub

/-!
# Ledgers

Things are taken and given back, one after the other.  `Settles` says that whatever is given back
is held at that time, and what is held in the end.  What is held besides plays no part
(`Settles.add_right`), and two ledgers are put together where one ends with what the other begins
with (`Settles.append`).
-/

set_option autoImplicit false

namespace Vtfs.Library

/-- Something is taken, or given back. -/
inductive Transfer (ρ : Type) where
  | taken (thing : ρ)
  | returned (thing : ρ)

/-- What is held before, the transfers, and what is held after them. -/
inductive Settles {ρ : Type} : Multiset ρ → List (Transfer ρ) → Multiset ρ → Prop
  | nil (held : Multiset ρ) : Settles held [] held
  | taken {thing : ρ} {held after : Multiset ρ} {transfers : List (Transfer ρ)} :
      Settles (thing ::ₘ held) transfers after → Settles held (.taken thing :: transfers) after
  | returned {thing : ρ} {held after : Multiset ρ} {transfers : List (Transfer ρ)} :
      Settles held transfers after → Settles (thing ::ₘ held) (.returned thing :: transfers) after

namespace Settles

variable {ρ : Type} {held middle after : Multiset ρ} {transfers more : List (Transfer ρ)}

/-- Transfers settle one after the other. -/
theorem append (h : Settles held transfers middle) (hmore : Settles middle more after) :
    Settles held (transfers ++ more) after := by
  induction h with
  | nil => exact hmore
  | taken _ ih => exact .taken (ih hmore)
  | returned _ ih => exact .returned (ih hmore)

/-- What is held besides stays held. -/
theorem add_right (h : Settles held transfers after) (others : Multiset ρ) :
    Settles (held + others) transfers (after + others) := by
  induction h with
  | nil => exact .nil _
  | taken _ ih =>
      rw [Multiset.cons_add] at ih
      exact .taken ih
  | returned _ ih =>
      rw [Multiset.cons_add]
      exact .returned ih

/-- Something is taken and held. -/
theorem take (thing : ρ) (held : Multiset ρ) : Settles held [.taken thing] (thing ::ₘ held) :=
  .taken (.nil _)

/-- Something that is held is given back. -/
theorem giveBack (thing : ρ) (held : Multiset ρ) :
    Settles (thing ::ₘ held) [.returned thing] held :=
  .returned (.nil _)

end Settles

end Vtfs.Library
