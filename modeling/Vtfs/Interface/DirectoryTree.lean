import Vtfs.Model.TorrentSession

/-!
# The directory tree of a torrent

What the index is for, in terms of segments: a directory is a list of segments, none of them empty
and none with a slash or a backslash; a path has the directories its segments before the last
slash spell out.
`browse` is the walk a user makes: list a directory, go into the directories listed, and collect
the files.
-/

set_option autoImplicit false

namespace Vtfs.Interface

open Vtfs.Library
open Vtfs.Library.PosixPath (slash)
open Vtfs.Model

/-- A part of a normalized path between slashes that is not empty. -/
structure IsSegment (segment : Bytes) : Prop where
  nonempty : segment ≠ []
  no_slash : slash ∉ segment
  no_backslash : byte '\\' ∉ segment

/-- The path of a directory. -/
def dirPath (segments : List Bytes) : Bytes :=
  if segments = [] then [slash] else rooted slash segments

/-- The segments of a path before its last slash. -/
def segmentsAbove (path : Bytes) : List Bytes :=
  match beforeLast slash path.tail with
  | none => []
  | some front => (pieces slash front).filter (· ≠ [])

/-- The directories above a path, outermost first. -/
def directoriesAbove (path : Bytes) : List Bytes :=
  (List.range (segmentsAbove path).length).map fun i => dirPath ((segmentsAbove path).take (i + 1))

/-- A path of a directory in its one spelling: the root, or segments after single slashes. -/
def CanonicalDirectory (path : Bytes) : Prop :=
  path = [slash] ∨ (path.head? = some slash ∧ ∀ part ∈ pieces slash path.tail, part ≠ [])

instance (path : Bytes) : Decidable (CanonicalDirectory path) := by
  unfold CanonicalDirectory; infer_instance

/-- Every number of a file fits a 32-bit index. -/
def IndicesFit (files : List TorrentFileRecord) : Prop := files.length ≤ 2 ^ 31

instance (files : List TorrentFileRecord) : Decidable (IndicesFit files) := by
  unfold IndicesFit; infer_instance

/-- The index agrees with the files: looking up the path of a file gives its entry, every
directory that is listed is a directory to `lookup`, and so is the root. -/
structure IndexAgrees (files : List TorrentFileRecord) : Prop where
  records : ∀ (i : ℕ) (record : TorrentFileRecord), files[i]? = some record → ∃ entry,
    lookup (buildIndex files) record.relativePath = some entry ∧ entry.isDirectory = false ∧
      entry.index.toInt = i ∧ entry.size = record.size ∧ entry.offset = record.offset
  directories : ∀ path entry, entry ∈ listDirectory (buildIndex files) path →
    entry.isDirectory = true → ∃ directory,
      lookup (buildIndex files) entry.virtualPath = some directory ∧ directory.isDirectory = true
  root : ∃ directory,
    lookup (buildIndex files) [slash] = some directory ∧ directory.isDirectory = true

/-- The normalized paths of the files are different from each other, from the root, and from the
directories above each of them; and the files can be numbered in 32 bits. -/
structure PathsApart (files : List TorrentFileRecord) : Prop where
  fit : IndicesFit files
  distinct : (files.map fun record => normalizePath record.relativePath).Nodup
  not_root : ∀ record ∈ files, normalizePath record.relativePath ≠ [slash]
  not_directory : ∀ record ∈ files, ∀ other ∈ files,
    normalizePath record.relativePath ∉ directoriesAbove (normalizePath other.relativePath)

/-- The walk from a directory: the files visited, in order, or `none` when it goes deeper than
the fuel. -/
def browse (s : Index) : ℕ → Bytes → Option (List FileEntry)
  | 0, _ => none
  | depth + 1, path => do
      let visited ← (listDirectory s path).mapM fun entry =>
        if entry.isDirectory then browse s depth entry.virtualPath else some [entry]
      pure visited.flatten

/-- The walk from the root ends, and comes to a file with each number exactly once and to no
others. -/
def BrowsesExactly (files : List TorrentFileRecord) : Prop :=
  ∃ depth visited, browse (buildIndex files) depth [slash] = some visited ∧
    (∀ entry ∈ visited, entry.isDirectory = false) ∧
    (visited.map fun entry => entry.index.toInt).Perm ((List.range files.length).map Int.ofNat)

end Vtfs.Interface
