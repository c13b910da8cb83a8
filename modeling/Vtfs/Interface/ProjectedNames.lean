import Vtfs.Model.VirtualDrive

/-!
# Names that lead back

The names of the projected file system are keys for paths.  `ProjectsToItself` says that the key of
a file leads to the path of the file, and `LooksUpAgain` that an entry which is enumerated in a
directory is found under the name it was given there.  Both come down to which of the paths that
are registered is the first one with a key (`FirstUnder`).
-/

set_option autoImplicit false

namespace Vtfs.Interface

open Vtfs.Library
open Vtfs.Library.PosixPath (slash)
open Vtfs.Model

/-- The conversion leaves ASCII text as it is. -/
def AsciiIdentity (decoder : MultiByteToWideChar) : Prop :=
  ∀ codePage text, (∀ ch ∈ text, ch < 128) → decoder codePage text = text.map (·.toUInt16)

/-! ## Registered paths -/

/-- Tokens with slashes between them, without the empty ones in front. -/
def joined (tokens : List Bytes) : Bytes := (rooted slash (tokens.dropWhile (· = []))).tail

/-- The leading parts of a path, shortest first. -/
def leadingPaths (path : Bytes) : List Bytes :=
  (List.range (pathTokens path).length).map fun i => joined ((pathTokens path).take (i + 1))

/-- The paths that are registered for the files of a torrent, in order, from the root on. -/
def registeredPaths (files : List TorrentFileRecord) : List Bytes :=
  [] :: files.flatMap fun file => leadingPaths file.relativePath

/-- A path has a key: the one from sanitised names, or the one from ASCII names. -/
def HasKey (decoder : MultiByteToWideChar) (key : Wide) (path : Bytes) : Prop :=
  projectedLookupKey decoder path false = key ∨ projectedLookupKey decoder path true = key

instance hasKeyDecidable (decoder : MultiByteToWideChar) (key : Wide) (path : Bytes) :
    Decidable (HasKey decoder key path) :=
  inferInstanceAs (Decidable (_ ∨ _))

/-- Of the registered paths, the first one with the key is this virtual path, when normalized. -/
def FirstUnder (decoder : MultiByteToWideChar) (files : List TorrentFileRecord) (key : Wide)
    (virtualPath : Bytes) : Prop :=
  ∃ before path after, registeredPaths files = before ++ path :: after ∧
    (∀ other ∈ before, ¬ HasKey decoder key other) ∧ HasKey decoder key path ∧
      normalizePath (slash :: path) = virtualPath

/-! ## Files and entries -/

/-- The key of a file leads to the path of the file. -/
def ProjectsToItself (decoder : MultiByteToWideChar) (files : List TorrentFileRecord)
    (record : TorrentFileRecord) : Prop :=
  ∃ path, buildProjectedNameIndex decoder files
      (projectedLookupKey decoder record.relativePath false) = some path ∧
    normalizePath path = normalizePath record.relativePath

/-- The path of a name in a directory.  The root is the empty path. -/
def childPath (directory name : PCWSTR) : PCWSTR :=
  if directory.chars = [] then name
  else
    { chars := directory.chars ++ wideChar '\\' :: name.chars
      no_zero := by
        have hback : (0 : UInt16) ≠ wideChar '\\' := by decide
        simp [directory.no_zero, name.no_zero, hback] }

/-- An entry of a directory is found under the name it is enumerated with. -/
def LooksUpAgain (system : ProjFs) (files : List TorrentFileRecord) (directory : PCWSTR)
    (entry : FileEntry) : Prop :=
  let provider := ProjFsProvider.mount system files
  provider.lookupProjectedEntry (childPath directory (provider.emittedName entry)) = some entry

/-- The projected path of an entry, as its directory and its name have it. -/
def enumeratedKey (system : ProjFs) (files : List TorrentFileRecord) (directory : PCWSTR)
    (entry : FileEntry) : Wide :=
  normalizeProjectedPath
    (childPath directory ((ProjFsProvider.mount system files).emittedName entry))

end Vtfs.Interface
