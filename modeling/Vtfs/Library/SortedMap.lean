import Mathlib.Data.List.Pairwise
import Mathlib.Order.Lattice

/-!
# Ordered maps as sorted association lists

A `std::map` is the list of its entries in ascending key order.  `emplace` inserts unless the
key is present (`std::map::emplace`), so the first of several values given for a key is the one
kept.  Reading the entries of an ascending list into an empty map gives the list back
(`emplaceAll_of_ascending`).
-/

set_option autoImplicit false

namespace Vtfs.Library.SortedMap

variable {κ ν : Type} [LinearOrder κ]

/-- The keys are strictly ascending. -/
def Ascending (m : List (κ × ν)) : Prop := m.Pairwise fun a b => a.1 < b.1

instance (m : List (κ × ν)) : Decidable (Ascending m) := by
  unfold Ascending; infer_instance

/-- `std::map::find`, with the value found. -/
def find (m : List (κ × ν)) (key : κ) : Option ν :=
  match m with
  | [] => none
  | (k, v) :: rest => if k = key then some v else find rest key

/-- `std::map::emplace`: no effect when the key is present. -/
def emplace (m : List (κ × ν)) (key : κ) (v : ν) : List (κ × ν) :=
  match m with
  | [] => [(key, v)]
  | (k, w) :: rest =>
      if key < k then (key, v) :: (k, w) :: rest
      else if key = k then (k, w) :: rest
      else (k, w) :: emplace rest key v

/-- Emplacing a list of entries in order. -/
def emplaceAll (m : List (κ × ν)) (entries : List (κ × ν)) : List (κ × ν) :=
  entries.foldl (fun acc entry => emplace acc entry.1 entry.2) m

/-- An entry of the new map is the new one or was there. -/
theorem mem_emplace {m : List (κ × ν)} {key : κ} {v : ν} {e : κ × ν}
    (h : e ∈ emplace m key v) : e = (key, v) ∨ e ∈ m := by
  induction m with
  | nil => exact Or.inl (by simpa [emplace] using h)
  | cons head rest ih =>
      obtain ⟨k, w⟩ := head
      unfold emplace at h
      split at h
      · simpa using h
      · split at h
        · exact Or.inr h
        · rcases List.mem_cons.mp h with rfl | hrest
          · exact Or.inr (by simp)
          · rcases ih hrest with heq | hmem
            · exact Or.inl heq
            · exact Or.inr (List.mem_cons_of_mem _ hmem)

/-- Emplacing keeps the order. -/
theorem emplace_ascending {m : List (κ × ν)} (h : Ascending m) (key : κ) (v : ν) :
    Ascending (emplace m key v) := by
  induction m with
  | nil => simp [Ascending, emplace]
  | cons head rest ih =>
      obtain ⟨k, w⟩ := head
      obtain ⟨hhead, hrest⟩ := List.pairwise_cons.mp h
      unfold emplace
      split
      · rename_i hlt
        refine List.pairwise_cons.mpr ⟨fun e he => ?_, h⟩
        rcases List.mem_cons.mp he with rfl | he
        · exact hlt
        · exact hlt.trans (hhead e he)
      · rename_i hnlt
        split
        · exact h
        · rename_i hne
          refine List.pairwise_cons.mpr ⟨fun e he => ?_, ih hrest⟩
          rcases mem_emplace he with rfl | hmem
          · exact lt_of_le_of_ne (not_lt.mp hnlt) (Ne.symm hne)
          · exact hhead e hmem

/-- Entering entries keeps the keys ascending. -/
theorem emplaceAll_ascending {m : List (κ × ν)} (h : Ascending m) (entries : List (κ × ν)) :
    Ascending (emplaceAll m entries) := by
  induction entries generalizing m with
  | nil => exact h
  | cons entry rest ih => exact ih (emplace_ascending h entry.1 entry.2)

/-- Every entry of the result was there before or was given. -/
theorem mem_emplaceAll {m entries : List (κ × ν)} {e : κ × ν} (h : e ∈ emplaceAll m entries) :
    e ∈ m ∨ e ∈ entries := by
  induction entries generalizing m with
  | nil => exact Or.inl h
  | cons entry rest ih =>
      rcases ih h with hm | hrest
      · rcases mem_emplace hm with rfl | hm
        · exact Or.inr (by simp)
        · exact Or.inl hm
      · exact Or.inr (List.mem_cons_of_mem _ hrest)

/-- A key above all others is inserted at the end. -/
theorem emplace_of_forall_lt {m : List (κ × ν)} {key : κ} (h : ∀ e ∈ m, e.1 < key) (v : ν) :
    emplace m key v = m ++ [(key, v)] := by
  induction m with
  | nil => rfl
  | cons head rest ih =>
      obtain ⟨k, w⟩ := head
      have hk : k < key := h (k, w) (by simp)
      have hrest := ih fun e he => h e (List.mem_cons_of_mem _ he)
      simp [emplace, not_lt.mpr hk.le, hk.ne', hrest]

/-- Entries that come in order are put at the end. -/
theorem emplaceAll_append_of_ascending {m entries : List (κ × ν)}
    (h : Ascending (m ++ entries)) : emplaceAll m entries = m ++ entries := by
  induction entries generalizing m with
  | nil => simp [emplaceAll]
  | cons entry rest ih =>
      have hlt : ∀ e ∈ m, e.1 < entry.1 := fun e he =>
        (List.pairwise_append.mp h).2.2 e he entry (by simp)
      have hstep : emplace m entry.1 entry.2 = m ++ [entry] := emplace_of_forall_lt hlt entry.2
      have hasc : Ascending (m ++ [entry] ++ rest) := by simpa using h
      calc emplaceAll m (entry :: rest)
          = emplaceAll (emplace m entry.1 entry.2) rest := rfl
        _ = m ++ [entry] ++ rest := by rw [hstep]; exact ih hasc
        _ = m ++ entry :: rest := by simp

/-- Reading ascending entries into an empty map keeps them as they are. -/
theorem emplaceAll_of_ascending {entries : List (κ × ν)} (h : Ascending entries) :
    emplaceAll [] entries = entries := by
  simpa using emplaceAll_append_of_ascending (m := []) (by simpa using h)

/-- A new key is found with its value. -/
theorem find_emplace_self {m : List (κ × ν)} {key : κ} (h : find m key = none) (v : ν) :
    find (emplace m key v) key = some v := by
  induction m with
  | nil => simp [emplace, find]
  | cons head rest ih =>
      obtain ⟨k, w⟩ := head
      have hk : ¬ k = key := fun heq => by simp [find, heq] at h
      have hrest : find rest key = none := by simpa [find, hk] using h
      unfold emplace
      split
      · simp [find]
      · rw [if_neg (Ne.symm hk)]
        simp [find, hk, ih hrest]

/-- Other keys are found as before. -/
theorem find_emplace_of_ne {m : List (κ × ν)} {key other : κ} (h : key ≠ other) (v : ν) :
    find (emplace m key v) other = find m other := by
  induction m with
  | nil => simp [emplace, find, h]
  | cons head rest ih =>
      obtain ⟨k, w⟩ := head
      unfold emplace
      split
      · simp [find, h]
      · split
        · rfl
        · simp [find, ih]

/-- A key that no entry has is not found. -/
theorem find_eq_none_of_forall_ne {m : List (κ × ν)} {key : κ} (h : ∀ e ∈ m, e.1 ≠ key) :
    find m key = none := by
  induction m with
  | nil => rfl
  | cons head rest ih =>
      have hk : ¬ head.1 = key := h head (by simp)
      simp only [find, hk, if_false]
      exact ih fun e he => h e (List.mem_cons_of_mem _ he)

/-- A key that is present keeps its value. -/
theorem find_emplace_of_some {m : List (κ × ν)} (hm : Ascending m) {key : κ} {w : ν}
    (h : find m key = some w) (v : ν) : find (emplace m key v) key = some w := by
  induction m with
  | nil => simp [find] at h
  | cons head rest ih =>
      obtain ⟨k, u⟩ := head
      obtain ⟨hhead, hrest⟩ := List.pairwise_cons.mp hm
      unfold emplace
      split
      · -- a key below the least one is absent
        rename_i hlt
        have habsent : find ((k, u) :: rest) key = none :=
          find_eq_none_of_forall_ne fun e he => by
            rcases List.mem_cons.mp he with rfl | he
            · exact hlt.ne'
            · exact (hlt.trans (hhead e he)).ne'
        simp [habsent] at h
      · split
        · exact h
        · rename_i hne
          have hk : ¬ k = key := fun heq => hne heq.symm
          have htail : find rest key = some w := by simpa [find, hk] using h
          simpa [find, hk] using ih hrest htail

/-- The first map is asked first. -/
theorem find_append (m n : List (κ × ν)) (key : κ) :
    find (m ++ n) key = (find m key).or (find n key) := by
  induction m with
  | nil => simp [find]
  | cons head rest ih =>
      by_cases hk : head.1 = key
      · simp [find, hk]
      · simp [find, hk, ih]

/-- After a run of emplacements a key has the first value it was given. -/
theorem find_emplaceAll {m : List (κ × ν)} (hm : Ascending m) (entries : List (κ × ν)) (key : κ) :
    find (emplaceAll m entries) key = find (m ++ entries) key := by
  induction entries generalizing m with
  | nil => simp [emplaceAll]
  | cons entry rest ih =>
      have hstep : find (emplace m entry.1 entry.2) key = find (m ++ [entry]) key := by
        rw [find_append]
        by_cases hk : entry.1 = key
        · subst hk
          cases hfind : find m entry.1 with
          | none => simp [find_emplace_self hfind, find]
          | some w => simp [find_emplace_of_some hm hfind]
        · rw [find_emplace_of_ne hk]
          simp [find, hk]
      calc find (emplaceAll m (entry :: rest)) key
          = find (emplaceAll (emplace m entry.1 entry.2) rest) key := rfl
        _ = find (emplace m entry.1 entry.2 ++ rest) key := ih (emplace_ascending hm _ _)
        _ = find (m ++ [entry] ++ rest) key := by rw [find_append, hstep, ← find_append]
        _ = find (m ++ entry :: rest) key := by simp

end Vtfs.Library.SortedMap
