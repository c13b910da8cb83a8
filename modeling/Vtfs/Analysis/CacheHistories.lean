import Vtfs.Interface.CacheHistories
import Vtfs.Analysis.Eviction

/-!
# Eviction over histories

One eviction erases the shortest front of the ordered entries that makes the total fit, whatever
the sizes are (`evictIfNeeded_spec`).  The total is one of 64 bits, so the budget holds except
where what is left wraps (`keepsBudget_iff`).  While the ticks do not wrap, the ticks of the
entries are the numbers of touches up to their last ones (`Follows`), so the order of the ticks
is the order of the last touches (`evictIfNeeded_lru`).
-/

set_option autoImplicit false

namespace Vtfs.Analysis

open Vtfs.Library
open Vtfs.Library.PosixPath
open Vtfs.Model
open Vtfs.Interface

/-! ## Sums -/

/-- The first entry adds its size. -/
theorem byteTotal_cons (e : Bytes × CacheEntry) (rest : List (Bytes × CacheEntry)) :
    byteTotal (e :: rest) = e.2.sizeBytes.toNat + byteTotal rest := List.sum_cons

/-- The sum in 64 bits is the number of bytes, wrapped around. -/
theorem sizesOf_toNat (entries : List (Bytes × CacheEntry)) :
    (sizesOf entries).toNat = byteTotal entries % 2 ^ 64 := by
  induction entries with
  | nil => rfl
  | cons e rest ih =>
      rw [sizesOf_cons, UInt64.toNat_add, ih, byteTotal_cons, Nat.add_mod_mod]

/-- The order does not matter to the number of bytes. -/
theorem byteTotal_perm {entries entries' : List (Bytes × CacheEntry)}
    (h : entries.Perm entries') : byteTotal entries = byteTotal entries' :=
  (h.map _).sum_eq

/-- Lists of entries add up. -/
theorem byteTotal_append (front rest : List (Bytes × CacheEntry)) :
    byteTotal (front ++ rest) = byteTotal front + byteTotal rest := by
  simp only [byteTotal, List.map_append, List.sum_append]

/-- The order does not matter to the sum in 64 bits. -/
theorem sizesOf_perm {entries entries' : List (Bytes × CacheEntry)}
    (h : entries.Perm entries') : sizesOf entries = sizesOf entries' := by
  apply UInt64.toNat_inj.mp
  rw [sizesOf_toNat, sizesOf_toNat, byteTotal_perm h]

/-- What was added can be taken away again, in 64 bits too. -/
theorem add_sub_cancel_size (a b : UInt64) : a + b - a = b := by
  rw [UInt64.add_comm, UInt64.add_sub_cancel]

/-- The limit is kept when the number of bytes, wrapped around, is within it. -/
theorem sizesOf_le_iff {entries : List (Bytes × CacheEntry)} {maxBytes : UInt64} :
    sizesOf entries ≤ maxBytes ↔ byteTotal entries % 2 ^ 64 ≤ maxBytes.toNat := by
  rw [UInt64.le_iff_toNat_le, sizesOf_toNat]

/-! ## One eviction -/

/-- The removal of an entry's file. -/
def removalOf (m : CacheManager) (e : Bytes × CacheEntry) : Removal :=
  ⟨e.1, append m.payloadRoot e.1⟩

/-- The manager without some keys. -/
def erase (m : CacheManager) (keys : List Bytes) : CacheManager :=
  { m with entries := m.entries.filter fun e => e.1 ∉ keys }

/-- Without keys nothing is erased. -/
theorem erase_nil (m : CacheManager) : erase m [] = m := by
  have hall : (m.entries.filter fun e => e.1 ∉ ([] : List Bytes)) = m.entries :=
    List.filter_eq_self.mpr (by simp)
  rw [erase, hall]

/-- Keys are erased one after the other. -/
theorem erase_erase (m : CacheManager) (key : Bytes) (keys : List Bytes) :
    erase { m with entries := m.entries.filter (·.1 ≠ key) } keys = erase m (key :: keys) := by
  unfold erase
  simp only [List.filter_filter, List.mem_cons, not_or, CacheManager.mk.injEq, true_and]
  apply List.filter_congr
  intro e _
  simp [Bool.and_comm]

/-- The loop erases the shortest front that makes the total fit. -/
theorem evictLoop_spec (m : CacheManager) (ordered : List (Bytes × CacheEntry))
    (h : ¬ sizesOf ordered ≤ m.maxBytes) :
    ∃ gone kept, ordered = gone ++ kept ∧ gone ≠ [] ∧ ShortestFront m.maxBytes gone kept ∧
      m.evictLoop ordered (sizesOf ordered) =
        (erase m (gone.map Prod.fst), gone.map (removalOf m)) := by
  induction ordered generalizing m with
  | nil => exact absurd (UInt64.zero_le) h
  | cons e rest ih =>
      obtain ⟨key, entry⟩ := e
      have htotal : sizesOf ((key, entry) :: rest) - entry.sizeBytes = sizesOf rest := by
        rw [sizesOf_cons, add_sub_cancel_size]
      rw [CacheManager.evictLoop, htotal]
      by_cases hfits : sizesOf rest ≤ m.maxBytes
      · refine ⟨[(key, entry)], rest, rfl, by simp, ⟨hfits, ?_⟩, ?_⟩
        · intro front left hsplit hleft
          cases front with
          | nil =>
              obtain rfl : left = (key, entry) :: rest := hsplit
              exact absurd hleft h
          | cons _ _ => simp
        · rw [if_pos hfits]
          have herase := erase_erase m key []
          rw [erase_nil] at herase
          rw [herase]
          rfl
      · obtain ⟨gone, kept, hsplit, -, hshortest, hloop⟩ :=
          ih { m with entries := m.entries.filter (·.1 ≠ key) } hfits
        refine ⟨(key, entry) :: gone, kept, by rw [hsplit]; rfl, by simp, ⟨hshortest.fits, ?_⟩, ?_⟩
        · intro front left heq hleft
          cases front with
          | nil =>
              obtain rfl : left = (key, entry) :: rest := by rw [hsplit]; exact heq
              exact absurd hleft h
          | cons first front =>
              obtain ⟨-, htail⟩ := List.cons.inj heq
              have hle := hshortest.shortest front left htail hleft
              simp only [List.length_cons]
              omega
        · rw [if_neg hfits, hloop, erase_erase]
          rfl

/-- The keys of the entries are pairwise different. -/
def KeysDiffer (m : CacheManager) : Prop := (m.entries.map Prod.fst).Nodup

/-- The order of eviction has all entries. -/
theorem ordered_perm (m : CacheManager) : m.ordered.Perm m.entries := List.perm_insertionSort _ _

/-- **One eviction.**  It erases the shortest front of the ordered entries, possibly none, that
makes the total fit. -/
theorem evictIfNeeded_spec {m : CacheManager} (hkeys : KeysDiffer m) :
    ∃ gone kept, m.ordered = gone ++ kept ∧ ShortestFront m.maxBytes gone kept ∧
      (gone = [] ↔ m.total ≤ m.maxBytes) ∧
      m.evictIfNeeded = (erase m (gone.map Prod.fst), gone.map (removalOf m)) ∧
      m.evictIfNeeded.1.entries.Perm kept := by
  have htotal : m.total = sizesOf m.ordered := (sizesOf_perm (ordered_perm m)).symm
  by_cases hfits : m.total ≤ m.maxBytes
  · have hkeep : m.evictIfNeeded = (m, []) := by rw [CacheManager.evictIfNeeded, if_pos hfits]
    refine ⟨[], m.ordered, rfl, ⟨htotal ▸ hfits, fun _ _ _ _ => Nat.zero_le _⟩,
      iff_of_true rfl hfits, ?_, ?_⟩
    · rw [hkeep, List.map_nil, List.map_nil, erase_nil]
    · rw [hkeep]
      exact (ordered_perm m).symm
  · obtain ⟨gone, kept, hsplit, hne, hshortest, hloop⟩ :=
      evictLoop_spec m m.ordered (htotal ▸ hfits)
    have hevict : m.evictIfNeeded = (erase m (gone.map Prod.fst), gone.map (removalOf m)) := by
      rw [CacheManager.evictIfNeeded, if_neg hfits, htotal, hloop]
    refine ⟨gone, kept, hsplit, hshortest, iff_of_false hne hfits, hevict, ?_⟩
    rw [hevict]
    -- the keys differ, so erasing the keys in front leaves all that is behind
    have hordered : ((gone ++ kept).map Prod.fst).Nodup := by
      rw [← hsplit]
      exact ((ordered_perm m).map Prod.fst).nodup_iff.mpr hkeys
    rw [List.map_append, List.nodup_append] at hordered
    have hgone : (gone.filter fun e => e.1 ∉ gone.map Prod.fst) = [] :=
      List.filter_eq_nil_iff.mpr fun e he => by simpa using ⟨e.2, he⟩
    have hkept : (kept.filter fun e => e.1 ∉ gone.map Prod.fst) = kept := by
      refine List.filter_eq_self.mpr fun e he => decide_eq_true fun hmem => ?_
      exact hordered.2.2 _ hmem _ (List.mem_map_of_mem he) rfl
    have hperm := (ordered_perm m).filter fun e => e.1 ∉ gone.map Prod.fst
    rw [hsplit, List.filter_append, hgone, hkept, List.nil_append] at hperm
    exact hperm.symm

/-! ## Histories -/

section Runs

/-- The last call comes after the others. -/
theorem runCalls_snoc (first : CacheManager) (calls : List CacheCall) (call : CacheCall) :
    runCalls first (calls ++ [call]) = afterCall (runCalls first calls) call := by
  simp only [runCalls, List.foldl_append, List.foldl_cons, List.foldl_nil]

/-- A touch enters no key twice. -/
theorem keysDiffer_touch {m : CacheManager} (h : KeysDiffer m) (key : Bytes)
    (sizeBytes : UInt64) : KeysDiffer (m.touch key sizeBytes) := by
  apply List.nodup_cons.mpr
  refine ⟨fun hmem => ?_, h.sublist (List.filter_sublist.map _)⟩
  obtain ⟨e, he, hkey⟩ := List.mem_map.mp hmem
  have hne := (List.mem_filter.mp he).2
  simp [hkey] at hne

/-- What every call keeps: the budget, and that keys differ. -/
theorem afterCall_keeps {m : CacheManager} (h : KeysDiffer m) (call : CacheCall) :
    KeysDiffer (afterCall m call) ∧ (afterCall m call).maxBytes = m.maxBytes := by
  cases call with
  | touch key sizeBytes => exact ⟨keysDiffer_touch h key sizeBytes, rfl⟩
  | evictIfNeeded =>
      obtain ⟨gone, kept, -, -, -, hevict, -⟩ := evictIfNeeded_spec h
      have hafter : afterCall m .evictIfNeeded = erase m (gone.map Prod.fst) := by
        rw [afterCall, hevict]
      rw [hafter]
      exact ⟨h.sublist (List.filter_sublist.map _), rfl⟩

/-- After any calls no key is there twice, and the limit is the first one. -/
theorem runCalls_keeps (root : Bytes) (maxBytes : UInt64) (calls : List CacheCall) :
    KeysDiffer (runCalls (CacheManager.create root maxBytes) calls) ∧
      (runCalls (CacheManager.create root maxBytes) calls).maxBytes = maxBytes := by
  induction calls using List.reverseRecOn with
  | nil => exact ⟨List.nodup_nil, rfl⟩
  | append_singleton calls call ih =>
      rw [runCalls_snoc]
      have hkeep := afterCall_keeps ih.1 call
      exact ⟨hkeep.1, hkeep.2.trans ih.2⟩

end Runs

/-! ## The budget -/

/-- One eviction keeps the budget if and only if nothing it could keep wraps to what fits. -/
theorem byteTotal_evictIfNeeded_le_iff {m : CacheManager} (hkeys : KeysDiffer m) :
    byteTotal m.evictIfNeeded.1.entries ≤ m.maxBytes.toNat ↔ WrapsToNoFit m := by
  obtain ⟨gone, kept, hsplit, hshortest, -, -, hperm⟩ := evictIfNeeded_spec hkeys
  have hfits := sizesOf_le_iff.mp hshortest.fits
  rw [byteTotal_perm hperm]
  constructor
  · intro hle older recent hordered hwraps
    by_contra hnot
    -- a recent part that fits modulo `2 ^ 64` is a part of what is kept
    have hlength := hshortest.shortest older recent (hordered.symm.trans hsplit)
      (sizesOf_le_iff.mpr (not_lt.mp hnot))
    have hbegins : gone <+: older ++ recent := by
      rw [← hordered, hsplit]
      exact List.prefix_append _ _
    obtain ⟨more, rfl⟩ := List.prefix_of_prefix_length_le hbegins (List.prefix_append _ _) hlength
    have hkept : kept = more ++ recent := by
      rw [hsplit, List.append_assoc] at hordered
      exact List.append_cancel_left hordered
    rw [hkept, byteTotal_append] at hle
    have hlt := m.maxBytes.toNat_lt
    omega
  · intro hno
    by_contra hmore
    have hsmall : byteTotal kept < 2 ^ 64 := by
      by_contra hwraps
      exact absurd hfits (not_le.mpr (hno gone kept hsplit (not_lt.mp hwraps)))
    rw [Nat.mod_eq_of_lt hsmall] at hfits
    exact hmore hfits

/-- **The budget of the cache.**  After every eviction of a history the sizes sum to at most the
budget, if and only if before each of them no number of most recently touched entries sums to
`2 ^ 64` or more and, modulo `2 ^ 64`, to what fits.
SRCLINE: CacheManager.cpp:16-45 -/
theorem keepsBudget_iff (root : Bytes) (maxBytes : UInt64) (calls : List CacheCall) :
    KeepsBudget root maxBytes calls ↔
      ∀ before, before ++ [.evictIfNeeded] <+: calls →
        WrapsToNoFit (runCalls (CacheManager.create root maxBytes) before) := by
  refine forall_congr' fun before => imp_congr_right fun _ => ?_
  obtain ⟨hkeys, hmax⟩ := runCalls_keeps root maxBytes before
  have hstep := byteTotal_evictIfNeeded_le_iff hkeys
  rw [hmax] at hstep
  rw [runCalls_snoc]
  exact hstep

/-- Two entries of `2 ^ 63` bytes: the total wraps to zero, and nothing is evicted. -/
theorem keepsBudget_fails : ¬ ∀ (root : Bytes) (maxBytes : UInt64) (calls : List CacheCall),
    KeepsBudget root maxBytes calls := by
  intro h
  have hle := h [] 10 [.touch (bytes "a") (2 ^ 63), .touch (bytes "b") (2 ^ 63), .evictIfNeeded]
    [.touch (bytes "a") (2 ^ 63), .touch (bytes "b") (2 ^ 63)] (List.prefix_refl _)
  exact absurd hle (by decide +kernel)

/-! ## Last touches -/

section LastTouches

variable {calls : List CacheCall} {key : Bytes} {sizeBytes : UInt64} {i j : ℕ}

/-- A touch is counted. -/
theorem touchCount_snoc_touch (calls : List CacheCall) (key : Bytes) (sizeBytes : UInt64) :
    touchCount (calls ++ [.touch key sizeBytes]) = touchCount calls + 1 := by
  rw [touchCount, List.countP_append]
  rfl

/-- An eviction is not. -/
theorem touchCount_snoc_evict (calls : List CacheCall) :
    touchCount (calls ++ [.evictIfNeeded]) = touchCount calls := by
  rw [touchCount, List.countP_append]
  rfl

/-- The number of touches up to a later touch is greater. -/
theorem touchCount_take_lt (hij : i < j) (h : TouchedLast calls key sizeBytes j) :
    touchCount (calls.take (i + 1)) < touchCount (calls.take (j + 1)) := by
  have hsplit : calls.take (j + 1) = calls.take j ++ [.touch key sizeBytes] := by
    rw [List.take_add_one, h.call]
    rfl
  have hbegins : calls.take (i + 1) <+: calls.take j := List.take_prefix_take_left (by omega)
  have hle : touchCount (calls.take (i + 1)) ≤ touchCount (calls.take j) :=
    hbegins.sublist.countP_le
  rw [hsplit, touchCount_snoc_touch]
  omega

end LastTouches

/-! ## Ticks -/

/-- The tick of the manager is the number of touches, and the tick of an entry the number of
touches up to the last one of its key. -/
structure Follows (calls : List CacheCall) (m : CacheManager) : Prop where
  tick : m.tick.toNat = touchCount calls
  touched : ∀ e ∈ m.entries, ∃ i, TouchedLast calls e.1 e.2.sizeBytes i ∧
    e.2.tick.toNat = touchCount (calls.take (i + 1))
  keys : KeysDiffer m

/-- The step for a touch: its entry has the largest count. -/
theorem follows_touch {calls : List CacheCall} {m : CacheManager} (h : Follows calls m)
    (key : Bytes) (sizeBytes : UInt64) (hsmall : touchCount calls + 1 < 2 ^ 64) :
    Follows (calls ++ [.touch key sizeBytes]) (m.touch key sizeBytes) := by
  have htick : (m.tick + 1).toNat = touchCount calls + 1 := by
    rw [UInt64.toNat_add, h.tick]
    exact Nat.mod_eq_of_lt hsmall
  have hall : touchCount ((calls ++ [CacheCall.touch key sizeBytes]).take (calls.length + 1)) =
      touchCount calls + 1 := by
    rw [List.take_of_length_le (by simp), touchCount_snoc_touch]
  refine ⟨?_, ?_, keysDiffer_touch h.keys key sizeBytes⟩
  · rw [touchCount_snoc_touch]
    exact htick
  · intro e he
    rcases List.mem_cons.mp he with rfl | hold
    · exact ⟨calls.length, touchedLast_snoc calls key sizeBytes, htick.trans hall.symm⟩
    · obtain ⟨hmem, hkey⟩ := List.mem_filter.mp hold
      obtain ⟨i, hlast, hcount⟩ := h.touched e hmem
      have hlt := hlast.lt_length
      refine ⟨i, hlast.snoc fun other heq => ?_, ?_⟩
      · simp [(CacheCall.touch.inj heq).1] at hkey
      · rw [List.take_append_of_le_length (by omega), hcount]

/-- The step for an eviction: what is left was touched last as before. -/
theorem follows_evict {calls : List CacheCall} {m : CacheManager} (h : Follows calls m) :
    Follows (calls ++ [.evictIfNeeded]) m.evictIfNeeded.1 := by
  obtain ⟨gone, kept, -, -, -, hevict, -⟩ := evictIfNeeded_spec h.keys
  rw [hevict]
  refine ⟨?_, ?_, h.keys.sublist (List.filter_sublist.map _)⟩
  · rw [touchCount_snoc_evict]
    exact h.tick
  · intro e he
    obtain ⟨i, hlast, hcount⟩ := h.touched e (List.mem_of_mem_filter he)
    have hlt := hlast.lt_length
    refine ⟨i, hlast.snoc (by simp), ?_⟩
    rw [List.take_append_of_le_length (by omega), hcount]

/-- While the ticks do not wrap, they follow the history. -/
theorem follows_runCalls (root : Bytes) (maxBytes : UInt64) {calls : List CacheCall}
    (h : touchCount calls < 2 ^ 64) :
    Follows calls (runCalls (CacheManager.create root maxBytes) calls) := by
  induction calls using List.reverseRecOn with
  | nil => exact ⟨rfl, by simp [runCalls, CacheManager.create], List.nodup_nil⟩
  | append_singleton calls call ih =>
      rw [runCalls_snoc]
      cases call with
      | touch key sizeBytes =>
          rw [touchCount_snoc_touch] at h
          exact follows_touch (ih (by omega)) key sizeBytes h
      | evictIfNeeded =>
          rw [touchCount_snoc_evict] at h
          exact follows_evict (ih h)

/-- The ordered entries are in the order of their last touches. -/
theorem ordered_touchedBefore {calls : List CacheCall} {m : CacheManager} (h : Follows calls m) :
    m.ordered.Pairwise fun e e' => TouchedBefore calls e.1 e'.1 := by
  have hsorted : m.ordered.Pairwise fun e e' => e.2.tick ≤ e'.2.tick :=
    List.pairwise_insertionSort _ _
  have hkeys : m.ordered.Pairwise fun e e' => e.1 ≠ e'.1 :=
    List.pairwise_map.mp (((ordered_perm m).map Prod.fst).nodup_iff.mpr h.keys)
  refine (hsorted.and hkeys).imp_of_mem ?_
  rintro e e' he he' ⟨hle, hne⟩
  obtain ⟨i, hlast, hcount⟩ := h.touched e ((ordered_perm m).mem_iff.mp he)
  obtain ⟨j, hlast', hcount'⟩ := h.touched e' ((ordered_perm m).mem_iff.mp he')
  have hcounts : touchCount (calls.take (i + 1)) ≤ touchCount (calls.take (j + 1)) := by
    rw [← hcount, ← hcount']
    exact UInt64.le_iff_toNat_le.mp hle
  refine ⟨i, j, _, _, ?_, hlast, hlast'⟩
  rcases Nat.lt_trichotomy i j with hlt | rfl | hgt
  · exact hlt
  · exact absurd (hlast.key_eq hlast') hne
  · exact absurd (touchCount_take_lt hgt hlast) (not_lt.mpr hcounts)

/-! ## Least recently touched first -/

section Recency

variable {first : CacheManager} {calls : List CacheCall} {m : CacheManager}

/-- Where the last touch is of a key, only evictions come after it. -/
theorem not_touchedBefore_of_evictions {before evictions : List CacheCall} {key other : Bytes}
    {sizeBytes : UInt64} (hcalls : calls = before ++ .touch key sizeBytes :: evictions)
    (hevictions : ∀ call ∈ evictions, call = .evictIfNeeded) :
    ¬ TouchedBefore calls key other := by
  rintro ⟨i, j, size, size', hij, hlast, hlast'⟩
  have hkey : calls[before.length]? = some (.touch key sizeBytes) := by rw [hcalls]; simp
  have hle : before.length ≤ i := not_lt.mp fun hlt => hlast.last _ _ hlt hkey
  have hmem : CacheCall.touch other size' ∈ evictions := by
    have hcall := hlast'.call
    rw [hcalls, List.getElem?_append_right (by omega)] at hcall
    obtain ⟨k, hk⟩ : ∃ k, j - before.length = k + 1 := ⟨j - before.length - 1, by omega⟩
    rw [hk, List.getElem?_cons_succ] at hcall
    exact List.mem_of_getElem? hcall
  exact absurd (hevictions _ hmem) (by simp)

/-- An eviction keeps the key touched last, if its size alone fits. -/
theorem latest_kept (h : Follows calls m) {before evictions : List CacheCall} {key : Bytes}
    {sizeBytes : UInt64} (hcalls : calls = before ++ .touch key sizeBytes :: evictions)
    (hevictions : ∀ call ∈ evictions, call = .evictIfNeeded) (hsize : sizeBytes ≤ m.maxBytes)
    {e : Bytes × CacheEntry} (he : e ∈ m.entries) (hkey : e.1 = key)
    (hbytes : e.2.sizeBytes = sizeBytes) : e ∈ m.evictIfNeeded.1.entries := by
  obtain ⟨gone, kept, hsplit, hshortest, -, -, hperm⟩ := evictIfNeeded_spec h.keys
  have hordered := ordered_touchedBefore h
  rw [hsplit] at hordered
  have hmem := (ordered_perm m).mem_iff.mpr he
  rw [hsplit, List.mem_append] at hmem
  rcases hmem with hgone | hkept
  · -- it would be the last of all entries, and the front without it is shorter
    exfalso
    obtain ⟨front, back, rfl⟩ := List.append_of_mem hgone
    rw [List.append_assoc, List.cons_append] at hordered
    have hafter := (List.pairwise_cons.mp (List.pairwise_append.mp hordered).2.1).1
    have hnone : back ++ kept = [] := by
      apply List.eq_nil_iff_forall_not_mem.mpr
      intro e' he'
      have hbefore := hafter e' he'
      rw [hkey] at hbefore
      exact not_touchedBefore_of_evictions hcalls hevictions hbefore
    obtain ⟨rfl, rfl⟩ := List.append_eq_nil_iff.mp hnone
    have hfits : sizesOf [e] ≤ m.maxBytes := by
      rw [sizesOf_cons, sizesOf_nil, UInt64.add_zero, hbytes]
      exact hsize
    have hlength := hshortest.shortest front [e] (by simp) hfits
    simp only [List.length_append, List.length_cons, List.length_nil] at hlength
    omega
  · exact hperm.mem_iff.mpr hkept

/-- The key touched last is there, if its size alone fits. -/
theorem latest_mem (root : Bytes) {maxBytes : UInt64} {before evictions : List CacheCall}
    {key : Bytes} {sizeBytes : UInt64}
    (hevictions : ∀ call ∈ evictions, call = .evictIfNeeded) (hsize : sizeBytes ≤ maxBytes)
    (h : touchCount (before ++ .touch key sizeBytes :: evictions) < 2 ^ 64) :
    ∃ e ∈ (runCalls (CacheManager.create root maxBytes)
        (before ++ .touch key sizeBytes :: evictions)).entries,
      e.1 = key ∧ e.2.sizeBytes = sizeBytes := by
  induction evictions using List.reverseRecOn with
  | nil =>
      rw [runCalls_snoc]
      exact ⟨_, List.mem_cons_self, rfl, rfl⟩
  | append_singleton evictions last ih =>
      obtain rfl := hevictions last (by simp)
      have hsplit : before ++ .touch key sizeBytes :: (evictions ++ [.evictIfNeeded]) =
          (before ++ .touch key sizeBytes :: evictions) ++ [.evictIfNeeded] := by simp
      have hrest : ∀ call ∈ evictions, call = .evictIfNeeded :=
        fun call hcall => hevictions call (by simp [hcall])
      rw [hsplit, touchCount_snoc_evict] at h
      obtain ⟨e, he, hkey, hbytes⟩ := ih hrest h
      rw [hsplit, runCalls_snoc]
      have hmax := (runCalls_keeps root maxBytes
        (before ++ .touch key sizeBytes :: evictions)).2
      exact ⟨e, latest_kept (follows_runCalls root maxBytes h) rfl hrest (hmax.symm ▸ hsize) he
        hkey hbytes, hkey, hbytes⟩

end Recency

/-- What is removed by a read is removed by the eviction after its touch. -/
theorem mem_evictIfNeeded_of_queueRead {m : CacheManager} {entry : FileEntry} {offset : UInt64}
    {length : UInt32} {removal : Removal}
    (h : .remove removal ∈ (queueRead m entry offset length).2) :
    removal ∈ (m.touch entry.virtualPath entry.size).evictIfNeeded.2 := by
  unfold queueRead at h
  split at h
  · simp at h
  · simpa using h

/-- **Eviction is by least recent touch, and minimal**, in every history with fewer than `2 ^ 64`
touches.
SRCLINE: CacheManager.cpp:16-45, TorrentSession.cpp:121-133 -/
theorem evictIfNeeded_leastRecent (root : Bytes) (maxBytes : UInt64) {calls : List CacheCall}
    (h : touchCount calls < 2 ^ 64) :
    EvictsLeastRecent (CacheManager.create root maxBytes) calls := by
  have hfollows := follows_runCalls root maxBytes h
  have hmax := (runCalls_keeps root maxBytes calls).2
  obtain ⟨gone, kept, hsplit, hshortest, hnone, hevict, hperm⟩ := evictIfNeeded_spec hfollows.keys
  have hordered := ordered_touchedBefore hfollows
  rw [hsplit] at hordered
  rw [hmax] at hshortest hnone
  -- the key touched last is none of those that are erased
  have hlatest : ∀ before key sizeBytes evictions,
      calls = before ++ .touch key sizeBytes :: evictions →
      (∀ call ∈ evictions, call = .evictIfNeeded) → sizeBytes ≤ maxBytes →
      ∃ e ∈ (runCalls (CacheManager.create root maxBytes) calls).evictIfNeeded.1.entries,
        e.1 = key ∧ e.2.sizeBytes = sizeBytes := by
    rintro before key sizeBytes evictions rfl hevictions hsize
    obtain ⟨e, he, hkey, hbytes⟩ := latest_mem root hevictions hsize h
    exact ⟨e, latest_kept hfollows rfl hevictions (hmax.symm ▸ hsize) he hkey hbytes, hkey, hbytes⟩
  refine ⟨fun hfits => ?_, fun hmore => ?_, fun e he => ?_, ?_, hlatest, ?_⟩
  · obtain rfl := hnone.mpr hfits
    rw [hevict, List.map_nil, List.map_nil, erase_nil]
  · refine ⟨gone, kept, fun hnil => ?_, hshortest, ?_, hordered, ?_, ?_, hperm⟩
    · exact absurd (hnone.mp hnil) (UInt64.not_le.mpr hmore)
    · rw [← hsplit]
      exact ordered_perm _
    · rw [hevict, List.map_map]
      rfl
    · rw [hevict]
      rfl
  · obtain ⟨i, hlast, -⟩ := hfollows.touched e he
    exact ⟨i, hlast⟩
  · intro removal hremoval e he
    rw [hevict] at hremoval
    obtain ⟨e', he', rfl⟩ := List.mem_map.mp hremoval
    exact (List.pairwise_append.mp hordered).2.2 e' he' e (hperm.mem_iff.mp he)
  · rintro before entry offset length hcalls hsize removal hremoval hkey
    obtain ⟨e, he, hpath, -⟩ := hlatest before _ _ [] hcalls (by simp) hsize
    have hrun : runCalls (CacheManager.create root maxBytes) calls =
        (runCalls (CacheManager.create root maxBytes) before).touch entry.virtualPath
          entry.size := by
      rw [hcalls, runCalls_snoc]
      rfl
    have hevicted := mem_evictIfNeeded_of_queueRead hremoval
    rw [← hrun, hevict] at hevicted
    obtain ⟨e', he', rfl⟩ := List.mem_map.mp hevicted
    rw [hevict] at he
    have hfree := (List.mem_filter.mp he).2
    have hgone : e.1 ∈ gone.map Prod.fst := by
      rw [hpath, ← hkey]
      exact List.mem_map_of_mem he'
    simp [hgone] at hfree

/-- Three touches with a budget of 10: `a` was touched first and is evicted alone. -/
theorem evictIfNeeded_leastRecent_three : EvictsLeastRecent (CacheManager.create [] 10)
    [.touch (bytes "a") 5, .touch (bytes "b") 5, .touch (bytes "c") 5] :=
  evictIfNeeded_leastRecent [] 10 (by decide)

end Vtfs.Analysis
