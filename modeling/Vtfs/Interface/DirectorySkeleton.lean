import Vtfs.Interface.DirectoryTree

/-!
# The skeleton of directories

`browseDirectories` goes from a directory into the directories listed there and leaves the files
out.  The directories it should come to are those that `buildIndex` enters, each once.
-/

set_option autoImplicit false

namespace Vtfs.Interface

open Vtfs.Library
open Vtfs.Library.PosixPath (slash)
open Vtfs.Model

/-- The walk over the directories from a directory on, outermost first, or `none` when it goes
deeper than the fuel. -/
def browseDirectories (s : Index) : ℕ → Bytes → Option (List Bytes)
  | 0, _ => none
  | depth + 1, path => do
      let below ← ((listDirectory s path).filter (·.isDirectory)).mapM fun entry =>
        browseDirectories s depth entry.virtualPath
      pure (path :: below.flatten)

/-- The segments of a path that are not empty. -/
def segmentsOf (path : Bytes) : List Bytes := (pieces slash path.tail).filter (· ≠ [])

/-- The directories come to are those that `buildIndex` has entered, each once.  One that is listed
in another has its path with a slash and a segment after it; and those that the first segments of
a path of a file spell out are among them. -/
structure IsSkeleton (files : List TorrentFileRecord) (visited : List Bytes) : Prop where
  once : visited.Nodup
  entered : ∀ path, path ∈ visited ↔ path ∈ (buildIndex files).seenDirectories
  child : ∀ path ∈ visited, ∀ entry ∈ listDirectory (buildIndex files) path,
    entry.isDirectory = true → ∃ segment, segment ≠ [] ∧ slash ∉ segment ∧
      entry.virtualPath = (if path = [slash] then [] else path) ++ slash :: segment
  above : ∀ record ∈ files, ∀ segments,
    segments <+: segmentsOf (normalizePath record.relativePath) →
      segments ≠ segmentsOf (normalizePath record.relativePath) → dirPath segments ∈ visited

end Vtfs.Interface
