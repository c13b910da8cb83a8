import Vtfs.Model.TorrentSession

/-!
# The files of the payload directory

What the paths made from the entries of the index are meant for: the file of an entry lies below
the payload directory (`Confined`), and reads make the cache manager remove such files only
(`RemovesPayloadFiles`).  `Confining` and `RemovesSafely` are conditions on the text of a virtual
path, and on what a read is about to remove.
-/

set_option autoImplicit false

namespace Vtfs.Interface

open Vtfs.Library
open Vtfs.Library.PosixPath
open Vtfs.Model

/-- The directory of the payload files. -/
def payloadDirectory (cacheDirectory : Bytes) : Bytes := append cacheDirectory (bytes "payload")

/-- A file of the index, as `lookup` or `listDirectory` gives it. -/
structure IsFileEntry (s : Index) (entry : FileEntry) : Prop where
  file : entry.isDirectory = false
  found : (∃ path, lookup s path = some entry) ∨ ∃ path, entry ∈ listDirectory s path

/-! ## Where the files lie -/

/-- The file of an entry, and the `.part` file of its download, lie below the payload directory. -/
structure Confined (cacheDirectory : Bytes) (entry : FileEntry) : Prop where
  file : StrictlyBelow (normal (payloadDirectory cacheDirectory))
    (normal (payloadPathFor cacheDirectory entry))
  part : StrictlyBelow (normal (payloadDirectory cacheDirectory))
    (normal (partPathFor (payloadPathFor cacheDirectory entry)))

/-- A path, seen from the payload directory, stays below it: it is relative, never climbs, and has
a name left; or it climbs out and returns by the names it left; or it is absolute and is the path
of a place below the payload directory. -/
inductive Confining (payload : Normal) (path : Bytes) : Prop where
  | descends : isAbsolute path = false → (normal path).ups = 0 → (normal path).names ≠ [] →
      Confining payload path
  | returns : isAbsolute path = false → 0 < (normal path).ups →
      payload.Returns (normal path).ups (normal path).names → Confining payload path
  | rooted : isAbsolute path = true → StrictlyBelow payload (normal path) →
      Confining payload path

/-! ## What reads remove -/

/-- The arguments of `queueRead`. -/
structure ReadCall where
  entry : FileEntry
  offset : UInt64
  length : UInt32

/-- Reads, one after the other: the cache manager after them, and what they did. -/
def runReads : CacheManager → List ReadCall → CacheManager × List ReadEffect
  | m, [] => (m, [])
  | m, call :: rest =>
      let (after, effects) := queueRead m call.entry call.offset call.length
      let (last, more) := runReads after rest
      (last, effects ++ more)

/-- Two paths are equal, as `operator==` has it. -/
def SamePath (p q : Bytes) : Prop := elements p = elements q

instance (p q : Bytes) : Decidable (SamePath p q) := by
  unfold SamePath; infer_instance

/-- What the reads remove are the payload files of entries that were read, below the payload
directory. -/
def RemovesPayloadFiles (cacheDirectory : Bytes) (maxBytes : UInt64) (calls : List ReadCall) :
    Prop :=
  ∀ removal, .remove removal ∈ (runReads (CacheManager.create cacheDirectory maxBytes) calls).2 →
    ∃ call ∈ calls, call.entry.virtualPath = removal.key ∧
      SamePath removal.path (payloadPathFor cacheDirectory call.entry) ∧
      StrictlyBelow (normal (payloadDirectory cacheDirectory)) (normal removal.path)

/-- The sum of the sizes of entries, modulo `2 ^ 64`. -/
def sizesOf (entries : List (Bytes × CacheEntry)) : UInt64 :=
  (entries.map fun e => e.2.sizeBytes).foldl (· + ·) 0

/-- The read is about to make the cache manager evict this key: it reads something, and when the
entries touched longer ago than the key are gone, first to last, each time the rest is still too
much. -/
def Evicts (m : CacheManager) (call : ReadCall) (key : Bytes) : Prop :=
  ¬ (call.entry.isDirectory = true ∨ call.length = 0 ∨ call.entry.size ≤ call.offset) ∧
    ∃ before entry after,
      (m.touch call.entry.virtualPath call.entry.size).ordered = before ++ (key, entry) :: after ∧
        ∀ front, front <+: before →
          m.maxBytes < (m.touch call.entry.virtualPath call.entry.size).total - sizesOf front

/-- Nothing is about to be evicted by the read, unless its virtual path starts with two slashes
and is, as an absolute path, that of a place below the payload directory. -/
def RemovesSafely (cacheDirectory : Bytes) (m : CacheManager) (call : ReadCall) : Prop :=
  ∀ key, Evicts m call key → isAbsolute key.tail = true ∧
    StrictlyBelow (normal (payloadDirectory cacheDirectory)) (normal key)

/-- Each read of a run starts from a state with a property. -/
def EveryStep (P : CacheManager → ReadCall → Prop) (m : CacheManager) (calls : List ReadCall) :
    Prop :=
  ∀ before call after, calls = before ++ call :: after → P (runReads m before).1 call

end Vtfs.Interface
