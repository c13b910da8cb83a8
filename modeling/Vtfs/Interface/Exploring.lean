import Vtfs.Interface.DirectoryEnumeration
import Vtfs.Interface.DirectoryTree
import Vtfs.Interface.ProjectedNames
import Vtfs.Interface.ProjectedReads

/-!
# Exploring the projected drive

Windows asks the provider for the entries of a directory until its buffers have taken them all,
and then for the placeholder of each by its path; where the placeholder is one of a directory it
goes on.  `explore` is this walk, over any enumerations that came to their end.

The names of a torrent are plain when Windows takes them as they are, and none of them ends as the
ASCII names do that the provider makes itself.
-/

set_option autoImplicit false

namespace Vtfs.Interface

open Vtfs.Library
open Vtfs.Library.PosixPath (slash)
open Vtfs.Model

/-! ## Plain names -/

/-- An ASCII text in wide characters. -/
def widen (name : Bytes) : Wide := name.map UInt8.toUInt16

/-- ASCII characters that Windows takes, of which the last one is no dot and no space, without the
hash of some name at the end. -/
structure IsPlainName (name : Bytes) : Prop where
  nonempty : name ≠ []
  printable : ∀ ch ∈ name, 32 ≤ ch ∧ ch < 128
  valid : ∀ ch ∈ widen name, ch ∉ invalidChars
  no_dot_last : name.getLast? ≠ some (byte '.')
  no_space_last : name.getLast? ≠ some (byte ' ')
  unhashed : ∀ hash, ¬ hashSuffix hash <:+ widen name

/-- The path of a file is plain names with slashes between them. -/
def IsPlainPath (path : Bytes) : Prop :=
  ∃ names, names ≠ [] ∧ (∀ name ∈ names, IsPlainName name) ∧ path = (rooted slash names).tail

/-- A path of the torrent as one of the drive. -/
def drivePath (path : Bytes) : Wide :=
  path.map fun ch => if ch = slash then wideChar '\\' else ch.toUInt16

/-! ## Enumerations to the end -/

/-- An enumeration of a directory, without a search expression, between callbacks of others: it
begins with its start or a restart, and the buffer of its last call takes all that is left. -/
structure FullEnumeration (provider : ProjFsProvider) (directory : PCWSTR) where
  enumerationId : GUID
  enumerations : Enumerations
  opening : Callback
  later : List Callback
  last : GetDirEnum
  session : Session enumerationId directory none opening (later ++ [.getDirEnum last])
  own : last.enumerationId = enumerationId
  fits : ∀ n, failed (last.fill n) = false

/-- The entries that it adds to its buffers. -/
def FullEnumeration.entries {provider : ProjFsProvider} {directory : PCWSTR}
    (e : FullEnumeration provider directory) : List FileEntry :=
  emitted provider e.enumerationId e.enumerations (e.opening :: (e.later ++ [.getDirEnum e.last]))

/-! ## The walk -/

/-- The walk from a directory, with one full enumeration of each directory: the paths and the
sizes of the files, in order, or `none` when a placeholder is missing or the fuel is used up. -/
def explore (provider : ProjFsProvider)
    (enumeration : (directory : PCWSTR) → FullEnumeration provider directory) :
    ℕ → PCWSTR → Option (List (Wide × Int64))
  | 0, _ => none
  | depth + 1, directory => do
      let found ← (enumeration directory).entries.mapM fun entry => do
        let path := childPath directory (provider.emittedName entry)
        let info ← (provider.getPlaceholderInfo path 0).2
        if info.isDirectory then explore provider enumeration depth path
        else some [(path.chars, info.fileSize)]
      pure found.flatten

/-- The read callbacks for a path write what is asked for of the file, as the payload has it that
the first attempt to read something meets. -/
def ReadsFile (provider : ProjFsProvider) (cacheDirectory : Bytes) (path : Wide)
    (entry : FileEntry) : Prop :=
  ∀ (call : GetFileData) (attempt : ℕ) (payload : Bytes), call.filePathName.chars = path →
    call.allocates = true → FirstRead cacheDirectory call entry attempt payload →
      provider.getFileData cacheDirectory call = (call.writeFileData,
        [⟨call.byteOffset, (payload.drop call.byteOffset.toNat).take
          (readStop call entry - call.byteOffset.toNat), call.writeFileData⟩])

end Vtfs.Interface
