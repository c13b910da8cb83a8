import Vtfs.Interface.PayloadFiles
import Mathlib.Algebra.GroupWithZero.Nat

/-!
# Histories of the cache manager

A history is a list of calls of `touch` and `evictIfNeeded`.  `KeepsBudget` is what the budget is
for, with sizes summed as natural numbers.  `EvictsLeastRecent` is what the evictions are meant to
be, with the order of the keys taken from the history: the ticks of the manager are not mentioned.
-/

set_option autoImplicit false

namespace Vtfs.Interface

open Vtfs.Library
open Vtfs.Model

/-- A call of the cache manager. -/
inductive CacheCall where
  | touch (key : Bytes) (sizeBytes : UInt64)
  | evictIfNeeded
  deriving DecidableEq

/-- Whether the call is a touch. -/
def CacheCall.isTouch : CacheCall → Bool
  | .touch _ _ => true
  | .evictIfNeeded => false

/-- The manager after a call. -/
def afterCall (m : CacheManager) : CacheCall → CacheManager
  | .touch key sizeBytes => m.touch key sizeBytes
  | .evictIfNeeded => m.evictIfNeeded.1

/-- The manager after a history. -/
def runCalls (first : CacheManager) (calls : List CacheCall) : CacheManager :=
  calls.foldl afterCall first

/-! ## The budget -/

/-- The sum of the sizes of entries, as a natural number. -/
def byteTotal (entries : List (Bytes × CacheEntry)) : ℕ :=
  (entries.map fun e => e.2.sizeBytes.toNat).sum

/-- After each eviction of the history, the sizes of the entries sum to at most the budget. -/
def KeepsBudget (root : Bytes) (maxBytes : UInt64) (calls : List CacheCall) : Prop :=
  ∀ before, before ++ [.evictIfNeeded] <+: calls →
    byteTotal (runCalls (CacheManager.create root maxBytes) (before ++ [.evictIfNeeded])).entries ≤
      maxBytes.toNat

/-- No number of most recently touched entries has sizes that sum to `2 ^ 64` or more, and to
what fits the budget modulo `2 ^ 64`. -/
def WrapsToNoFit (m : CacheManager) : Prop :=
  ∀ older recent, m.ordered = older ++ recent → 2 ^ 64 ≤ byteTotal recent →
    m.maxBytes.toNat < byteTotal recent % 2 ^ 64

/-! ## The order of eviction -/

/-- The number of touches in a history. -/
def touchCount (calls : List CacheCall) : ℕ := calls.countP CacheCall.isTouch

/-- The call at `i` is the last touch of the key, with this size. -/
structure TouchedLast (calls : List CacheCall) (key : Bytes) (sizeBytes : UInt64) (i : ℕ) :
    Prop where
  call : calls[i]? = some (.touch key sizeBytes)
  last : ∀ j other, i < j → calls[j]? ≠ some (.touch key other)

/-- The last touch of the one key is before that of the other. -/
def TouchedBefore (calls : List CacheCall) (key key' : Bytes) : Prop :=
  ∃ i j sizeBytes sizeBytes', i < j ∧ TouchedLast calls key sizeBytes i ∧
    TouchedLast calls key' sizeBytes' j

/-- The first entries, up to the first place where those left have sizes that sum, modulo
`2 ^ 64`, to at most `maxBytes`. -/
structure ShortestFront (maxBytes : UInt64) (gone kept : List (Bytes × CacheEntry)) : Prop where
  fits : sizesOf kept ≤ maxBytes
  shortest : ∀ front rest, front ++ rest = gone ++ kept → sizesOf rest ≤ maxBytes →
    gone.length ≤ front.length

/-- An eviction at the end of a history leaves the manager as it is when the total fits.
Otherwise, with the entries in the order of their last touches, it erases the shortest front
that makes the total fit.  What it erases was last touched before what it keeps, and the key
touched last is kept unless its size alone exceeds the budget; in particular a read does not
evict the file it is for. -/
structure EvictsLeastRecent (first : CacheManager) (calls : List CacheCall) : Prop where
  unneeded : (runCalls first calls).total ≤ first.maxBytes →
    (runCalls first calls).evictIfNeeded = (runCalls first calls, [])
  needed : first.maxBytes < (runCalls first calls).total →
    ∃ gone kept, gone ≠ [] ∧ ShortestFront first.maxBytes gone kept ∧
      (gone ++ kept).Perm (runCalls first calls).entries ∧
      (gone ++ kept).Pairwise (fun e e' => TouchedBefore calls e.1 e'.1) ∧
      (runCalls first calls).evictIfNeeded.2.map Removal.key = gone.map Prod.fst ∧
      (runCalls first calls).evictIfNeeded.1 =
        { runCalls first calls with
          entries := (runCalls first calls).entries.filter fun e => e.1 ∉ gone.map Prod.fst } ∧
      (runCalls first calls).evictIfNeeded.1.entries.Perm kept
  sizes : ∀ e ∈ (runCalls first calls).entries, ∃ i, TouchedLast calls e.1 e.2.sizeBytes i
  older : ∀ removal ∈ (runCalls first calls).evictIfNeeded.2,
    ∀ e ∈ (runCalls first calls).evictIfNeeded.1.entries, TouchedBefore calls removal.key e.1
  latest : ∀ before key sizeBytes evictions,
    calls = before ++ .touch key sizeBytes :: evictions →
    (∀ call ∈ evictions, call = .evictIfNeeded) → sizeBytes ≤ first.maxBytes →
    ∃ e ∈ (runCalls first calls).evictIfNeeded.1.entries,
      e.1 = key ∧ e.2.sizeBytes = sizeBytes
  reads : ∀ before (entry : FileEntry) offset length,
    calls = before ++ [.touch entry.virtualPath entry.size] → entry.size ≤ first.maxBytes →
    ∀ removal, .remove removal ∈ (queueRead (runCalls first before) entry offset length).2 →
      removal.key ≠ entry.virtualPath

/-! ## Last touches -/

section LastTouches

variable {calls : List CacheCall} {key key' : Bytes} {sizeBytes sizeBytes' : UInt64} {i : ℕ}

/-- A touch that is the last one of two keys is one of one key. -/
theorem TouchedLast.key_eq (h : TouchedLast calls key sizeBytes i)
    (h' : TouchedLast calls key' sizeBytes' i) : key = key' := by
  have hcall := Option.some.inj (h.call.symm.trans h'.call)
  exact (CacheCall.touch.inj hcall).1

/-- The last touch is one of the calls. -/
theorem TouchedLast.lt_length (h : TouchedLast calls key sizeBytes i) : i < calls.length :=
  (List.getElem?_eq_some_iff.mp h.call).1

/-- A last touch stays one until the key is touched again. -/
theorem TouchedLast.snoc (h : TouchedLast calls key sizeBytes i) {call : CacheCall}
    (hcall : ∀ other, call ≠ .touch key other) :
    TouchedLast (calls ++ [call]) key sizeBytes i := by
  refine ⟨?_, fun j other hij hj => ?_⟩
  · rw [List.getElem?_append_left h.lt_length]
    exact h.call
  · by_cases hlt : j < calls.length
    · rw [List.getElem?_append_left hlt] at hj
      exact h.last j other hij hj
    · rw [List.getElem?_append_right (not_lt.mp hlt)] at hj
      obtain rfl := List.mem_singleton.mp (List.mem_of_getElem? hj)
      exact hcall other rfl

/-- A touch at the end is the last one of its key. -/
theorem touchedLast_snoc (calls : List CacheCall) (key : Bytes) (sizeBytes : UInt64) :
    TouchedLast (calls ++ [.touch key sizeBytes]) key sizeBytes calls.length := by
  refine ⟨by simp, fun j other hj hcall => ?_⟩
  have hlt := (List.getElem?_eq_some_iff.mp hcall).1
  simp only [List.length_append, List.length_cons, List.length_nil] at hlt
  omega

end LastTouches

end Vtfs.Interface
