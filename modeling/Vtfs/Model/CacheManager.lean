import Vtfs.Library.PosixPath
import Mathlib.Data.List.Sort

/-!
# The cache manager

The manager knows the files of the payload directory by key, with a size and the tick of the last
touch.  `entries_` is an unordered map: an association list here, of which only the lookup by key
and the sort by tick are used.  Sizes are summed modulo `2 ^ 64`.
-/

set_option autoImplicit false

namespace Vtfs.Model

open Vtfs.Library

/-- `CacheManager::Entry`. -/
structure CacheEntry where
  sizeBytes : UInt64
  tick : UInt64
  deriving DecidableEq

/-- The manager. -/
structure CacheManager where
  root : Bytes
  maxBytes : UInt64
  tick : UInt64
  entries : List (Bytes × CacheEntry)

/-- A call of `filesystem::remove`, with the key of the entry it is for. -/
structure Removal where
  key : Bytes
  path : Bytes
  deriving DecidableEq

namespace CacheManager

/-- The constructor.
SRCLINE: CacheManager.cpp:8-9 -/
def create (root : Bytes) (maxBytes : UInt64) : CacheManager :=
  { root, maxBytes, tick := 0, entries := [] }

/-- The directory of the payload files.
SRCLINE: CacheManager.cpp:47-49 -/
def payloadRoot (m : CacheManager) : Bytes := PosixPath.append m.root (bytes "payload")

/-- An entry is set, with the next tick.
SRCLINE: CacheManager.cpp:16-19 -/
def touch (m : CacheManager) (key : Bytes) (sizeBytes : UInt64) : CacheManager :=
  { m with
    tick := m.tick + 1
    entries := (key, ⟨sizeBytes, m.tick + 1⟩) :: m.entries.filter (·.1 ≠ key) }

/-- The sum of the sizes, modulo `2 ^ 64`. -/
def total (m : CacheManager) : UInt64 := (m.entries.map fun e => e.2.sizeBytes).foldl (· + ·) 0

/-- The entries, least recently touched first. -/
def ordered (m : CacheManager) : List (Bytes × CacheEntry) :=
  m.entries.insertionSort fun lhs rhs => lhs.2.tick ≤ rhs.2.tick

/-- The loop of `evictIfNeeded` over the ordered entries, with the total so far. -/
def evictLoop : CacheManager → List (Bytes × CacheEntry) → UInt64 → CacheManager × List Removal
  | m, [], _ => (m, [])
  | m, (key, entry) :: rest, total =>
      let removal : Removal := ⟨key, PosixPath.append m.payloadRoot key⟩
      let erased := { m with entries := m.entries.filter (·.1 ≠ key) }
      if total - entry.sizeBytes ≤ m.maxBytes then (erased, [removal])
      else
        let (last, removals) := evictLoop erased rest (total - entry.sizeBytes)
        (last, removal :: removals)

/-- The least recently touched entries are removed until the rest fits.  The removals are the
calls of `filesystem::remove`, whose result is not used.
SRCLINE: CacheManager.cpp:21-45 -/
def evictIfNeeded (m : CacheManager) : CacheManager × List Removal :=
  if m.total ≤ m.maxBytes then (m, [])
  else evictLoop m m.ordered m.total

end CacheManager

end Vtfs.Model
