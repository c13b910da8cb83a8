import Vtfs.Model.VirtualDrive

/-!
# Reads of projected files

A read callback of the projected file system asks for bytes of a file.  `SuppliesAll` is what its
success should mean: every position that it asks for, inside the file, is in a successful write.
-/

set_option autoImplicit false

namespace Vtfs.Interface

open Vtfs.Library
open Vtfs.Model

/-- The position past the last one that a callback asks for, inside the file. -/
def readStop (call : GetFileData) (entry : FileEntry) : ℕ :=
  min (call.byteOffset.toNat + call.length.toNat) entry.size.toNat

/-- A callback that returns success is for a file, and it has passed every position that it asks
for to a successful `PrjWriteFileData`. -/
def SuppliesAll (provider : ProjFsProvider) (cacheDirectory : Bytes) (call : GetFileData) : Prop :=
  ¬ failed (provider.getFileData cacheDirectory call).1 →
    ∃ entry, provider.lookupProjectedEntry call.filePathName = some entry ∧
      entry.isDirectory = false ∧
      ∀ position, call.byteOffset.toNat ≤ position → position < readStop call entry →
        ∃ write ∈ (provider.getFileData cacheDirectory call).2, ¬ failed write.result ∧
          write.byteOffset.toNat ≤ position ∧
          position < write.byteOffset.toNat + write.data.length

section Attempts

variable (cacheDirectory : Bytes) (call : GetFileData) (entry : FileEntry)

/-- An attempt reads something: the offset is in the file and one that a stream can be moved to,
and the payload is there, opens, and is longer than the offset. -/
structure ReadsSome (attempt : ℕ) (payload : Bytes) : Prop where
  inside : call.byteOffset.toNat < entry.size.toNat
  movable : call.byteOffset.toNat < 2 ^ 63
  wanted : 0 < call.length.toNat
  present : call.disk attempt (payloadPathFor cacheDirectory entry) = some payload
  opens : call.opens attempt = true
  longer : call.byteOffset.toNat < payload.length

/-- An attempt is followed by another one: a payload that is there and opens is not longer than
the offset, and the file is hydrating. -/
def Waits (attempt : ℕ) : Prop :=
  ∀ payload, call.disk attempt (payloadPathFor cacheDirectory entry) = some payload →
    call.opens attempt = true →
      payload.length ≤ call.byteOffset.toNat ∧ call.hydrating attempt = true

/-- The first attempt that reads something, after others that were followed by another one, and
the payload it meets. -/
structure FirstRead (attempt : ℕ) (payload : Bytes) : Prop where
  made : attempt < readAttemptLimit
  reads : ReadsSome cacheDirectory call entry attempt payload
  waits : ∀ earlier < attempt, Waits cacheDirectory call entry earlier

/-- The payload that the first successful attempt meets, if its bytes are taken, has all the bytes
that are asked for. -/
def PayloadReaches : Prop :=
  ∀ attempt payload, FirstRead cacheDirectory call entry attempt payload →
    ¬ failed call.writeFileData → readStop call entry ≤ payload.length

end Attempts

end Vtfs.Interface
