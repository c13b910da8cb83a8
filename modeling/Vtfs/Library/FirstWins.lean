import Mathlib.Data.List.Basic
import Mathlib.Logic.Function.Basic

/-!
# Maps in which the first value stays

`emplace` puts a value under a key that has none.  After any number of insertions a key has the
value it was first inserted with (`emplaceAll_apply`).
-/

set_option autoImplicit false

namespace Vtfs.Library.FirstWins

variable {κ ν : Type} [DecidableEq κ]

/-- A key that has a value keeps it. -/
def emplace (m : κ → Option ν) (key : κ) (value : ν) : κ → Option ν :=
  if (m key).isSome then m else Function.update m key (some value)

/-- The entries, one after the other. -/
def emplaceAll (m : κ → Option ν) (entries : List (κ × ν)) : κ → Option ν :=
  entries.foldl (fun m e => emplace m e.1 e.2) m

/-- After an entry a key has what it had, or else the value entered for it. -/
theorem emplace_apply (m : κ → Option ν) (key other : κ) (value : ν) :
    emplace m key value other = (m other).or (if key = other then some value else none) := by
  unfold emplace
  by_cases hkey : key = other
  · subst hkey
    cases hm : m key <;> simp [hm]
  · rw [if_neg hkey, Option.or_none]
    split
    · rfl
    · rw [Function.update_of_ne (Ne.symm hkey)]

/-- Entries are entered one list after the other. -/
theorem emplaceAll_append (m : κ → Option ν) (entries more : List (κ × ν)) :
    emplaceAll m (entries ++ more) = emplaceAll (emplaceAll m entries) more := by
  simp [emplaceAll]

/-- A key has the value that was there, or else the first one inserted. -/
theorem emplaceAll_apply (m : κ → Option ν) (entries : List (κ × ν)) (key : κ) :
    emplaceAll m entries key =
      (m key).or ((entries.find? fun e => e.1 = key).map fun e => e.2) := by
  induction entries generalizing m with
  | nil => simp [emplaceAll]
  | cons e rest ih =>
      have hstep : emplaceAll m (e :: rest) = emplaceAll (emplace m e.1 e.2) rest := rfl
      rw [hstep, ih, emplace_apply, Option.or_assoc]
      by_cases hkey : e.1 = key
      · simp [hkey]
      · simp [hkey]

end Vtfs.Library.FirstWins
