import Vtfs.Model.VirtualDrive
import Mathlib.Order.Defs.Unbundled

/-!
# Directory enumerations

An enumeration is started, asked for entries again and again, and ended, by callbacks that name it;
callbacks of other enumerations come in between.  From its start, or from a call that restarts it,
the entries that it adds to buffers are those of the directory, in order (`EnumeratesExactly`).
-/

set_option autoImplicit false

namespace Vtfs.Interface

open Vtfs.Library
open Vtfs.Model

/-- A call of one of the three callbacks. -/
inductive Callback where
  | startDirEnum (enumerationId : GUID)
  | endDirEnum (enumerationId : GUID)
  | getDirEnum (call : GetDirEnum)

/-- The enumeration that a callback is for. -/
def Callback.enumerationId : Callback → GUID
  | .startDirEnum enumerationId => enumerationId
  | .endDirEnum enumerationId => enumerationId
  | .getDirEnum call => call.enumerationId

section Runs

variable (provider : ProjFsProvider)

/-- The enumerations after a callback, and the entries that it adds to the buffer. -/
def callback (enumerations : Enumerations) : Callback → Enumerations × List FileEntry
  | .startDirEnum enumerationId => (ProjFsProvider.startDirEnum enumerations enumerationId, [])
  | .endDirEnum enumerationId => (ProjFsProvider.endDirEnum enumerations enumerationId, [])
  | .getDirEnum call =>
      let (after, added, _) := provider.getDirEnum enumerations call
      (after, added)

/-- The enumerations after callbacks. -/
def runCallbacks (enumerations : Enumerations) (callbacks : List Callback) : Enumerations :=
  callbacks.foldl (fun state c => (callback provider state c).1) enumerations

/-- The entries that callbacks add to the buffers of one enumeration. -/
def emitted (enumerationId : GUID) : Enumerations → List Callback → List FileEntry
  | _, [] => []
  | enumerations, c :: rest =>
      let (after, added) := callback provider enumerations c
      (if c.enumerationId = enumerationId then added else []) ++ emitted enumerationId after rest

/-- An enumeration of a directory from its start or a restart on: it is not ended, started again
or restarted, and the directory and the search expression stay. -/
structure Session (enumerationId : GUID) (directory : PCWSTR) (searchExpression : Option PCWSTR)
    (opening : Callback) (later : List Callback) : Prop where
  opens : opening = .startDirEnum enumerationId ∨ ∃ call, opening = .getDirEnum call ∧
    call.enumerationId = enumerationId ∧ call.restartScan = true ∧
      call.filePathName = directory ∧ call.searchExpression = searchExpression
  continues : ∀ c ∈ later, c.enumerationId = enumerationId → ∃ call, c = .getDirEnum call ∧
    call.restartScan = false ∧ call.filePathName = directory ∧
      call.searchExpression = searchExpression

/-- An order of the entries of a directory that match, sorted by name. -/
structure Arranges (directory : PCWSTR) (searchExpression : Option PCWSTR)
    (arrangement : List FileEntry) : Prop where
  perm : arrangement.Perm
    ((provider.listProjectedDirectory directory).filter (provider.isMatch searchExpression))
  sorted : arrangement.Pairwise fun a b => provider.isBefore b a = false

/-- The buffer has room in this call for every entry that is left, when `done` of `total` entries
were added before. -/
def NeverFull (call : GetDirEnum) (done total : ℕ) : Prop :=
  ∀ n, done + n < total → failed (call.fill n) = false

/-- What is emitted is the start of one sorted order of the entries, after each callback; all of it
after a call in which nothing fails, and from then on no more. -/
def EnumeratesExactly (enumerationId : GUID) (directory : PCWSTR)
    (searchExpression : Option PCWSTR) (enumerations : Enumerations)
    (callbacks : List Callback) : Prop :=
  ∃ arrangement, Arranges provider directory searchExpression arrangement ∧
    (∀ front, front <+: callbacks → emitted provider enumerationId enumerations front <+:
      arrangement) ∧
    (∀ front call, front ++ [.getDirEnum call] <+: callbacks →
      call.enumerationId = enumerationId →
        NeverFull call (emitted provider enumerationId enumerations front).length
          arrangement.length →
          emitted provider enumerationId enumerations (front ++ [.getDirEnum call]) =
            arrangement) ∧
    (∀ front more, front ++ more <+: callbacks →
      emitted provider enumerationId enumerations front = arrangement →
        emitted provider enumerationId (runCallbacks provider enumerations front) more = [])

end Runs

/-- What `std::sort` is documented to do with a strict weak order: its result has the same elements,
and none of them is less than one before it. -/
structure Sorts (sort : (FileEntry → FileEntry → Bool) → List FileEntry → List FileEntry) :
    Prop where
  perm : ∀ less entries, IsStrictWeakOrder FileEntry (fun a b => less a b = true) →
    (sort less entries).Perm entries
  sorted : ∀ less entries, IsStrictWeakOrder FileEntry (fun a b => less a b = true) →
    (sort less entries).Pairwise fun a b => less b a = false

end Vtfs.Interface
