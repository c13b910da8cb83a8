import Vtfs.Interface.PayloadFiles
import Vtfs.Library.LexicalPath

/-!
# Files that share storage

Two files share storage when the paths of their payload files are one path after normalisation.
Whether they do is read off the relative paths of the torrent: the parts between slashes and
backslashes lead from the payload directory, or from the root, to a place (`placeFor`).
-/

set_option autoImplicit false

namespace Vtfs.Interface

open Vtfs.Library
open Vtfs.Library.PosixPath
open Vtfs.Model

/-- The parts of a path of a torrent between slashes and backslashes, without the empty ones. -/
def partsOf (path : Bytes) : List Bytes :=
  names (path.map fun ch => if ch = byte '\\' then slash else ch)

/-- The path is taken for an absolute one: it has a part, and starts with a backslash, or with a
slash and one more separator. -/
def TakenAbsolute (path : Bytes) : Prop :=
  partsOf path ≠ [] ∧ (path.head? = some (byte '\\') ∨
    path.head? = some slash ∧ (path.tail.head? = some slash ∨ path.tail.head? = some (byte '\\')))

instance (path : Bytes) : Decidable (TakenAbsolute path) := by
  unfold TakenAbsolute; infer_instance

/-- Where the parts of a path lead from. -/
def startOf (payload : Normal) (path : Bytes) : Normal :=
  if TakenAbsolute path then ⟨true, 0, []⟩ else payload

/-- A place that parts lead to, as a directory when its text ends in a separator. -/
@[ext]
structure Place where
  normal : Normal
  directory : Bool
  deriving DecidableEq

/-- The place that the parts of a path lead to: `.` stays and `..` goes back. -/
def placeFor (payload : Normal) (path : Bytes) : Place :=
  let reached := (startOf payload path).walk (partsOf path)
  let last := (partsOf path).getLast?
  ⟨reached, reached.names ≠ [] ∧ (last = none ∨ last = some dot ∨ last = some dotDot)⟩

/-- The parts of the `.part` file of a path. -/
def partFileParts (path : Bytes) : List Bytes :=
  (partsOf path).dropLast ++ [(partsOf path).getLast?.getD [] ++ bytes ".part"]

/-- The place of the `.part` file of a path. -/
def partPlaceFor (payload : Normal) (path : Bytes) : Place :=
  ⟨(startOf payload path).walk (partFileParts path), false⟩

/-- Two different records. -/
structure TwoRecords (files : List TorrentFileRecord) (i j : ℕ)
    (record other : TorrentFileRecord) : Prop where
  first : files[i]? = some record
  second : files[j]? = some other
  apart : i ≠ j

/-- No two files have one payload file. -/
def SeparatePayloads (cacheDirectory : Bytes) (files : List TorrentFileRecord) : Prop :=
  ∀ i j record other, TwoRecords files i j record other →
    lexicallyNormal (payloadPathFor cacheDirectory (fileEntry record i)) ≠
      lexicallyNormal (payloadPathFor cacheDirectory (fileEntry other j))

/-- No file has the payload file of another as the `.part` file of its download. -/
def SeparateDownloads (cacheDirectory : Bytes) (files : List TorrentFileRecord) : Prop :=
  ∀ i j record other, TwoRecords files i j record other →
    lexicallyNormal (partPathFor (payloadPathFor cacheDirectory (fileEntry record i))) ≠
      lexicallyNormal (payloadPathFor cacheDirectory (fileEntry other j))

/-- The paths of two different records lead from the payload directory to different places. -/
def PlacesApart (payload : Normal) (files : List TorrentFileRecord) : Prop :=
  ∀ i j record other, TwoRecords files i j record other →
    placeFor payload record.relativePath ≠ placeFor payload other.relativePath

/-- The `.part` file of no record is where the path of another leads. -/
def PartPlacesApart (payload : Normal) (files : List TorrentFileRecord) : Prop :=
  ∀ i j record other, TwoRecords files i j record other →
    partPlaceFor payload record.relativePath ≠ placeFor payload other.relativePath

/-- A path leads down from the payload directory: it is not taken for an absolute one, and its parts
are names. -/
structure LeadsDown (path : Bytes) : Prop where
  relative : ¬ TakenAbsolute path
  nonempty : partsOf path ≠ []
  names : ∀ part ∈ partsOf path, part ≠ dot ∧ part ≠ dotDot

/-- The paths of the files lead down, and the parts of none are the beginning of those of another
file or of its `.part` file. -/
structure LeadApart (files : List TorrentFileRecord) : Prop where
  down : ∀ record ∈ files, LeadsDown record.relativePath
  beside : ∀ record ∈ files, ∀ other ∈ files,
    normalizePath record.relativePath ≠ normalizePath other.relativePath →
      ¬ partsOf record.relativePath <+: partsOf other.relativePath ∧
        ¬ partsOf record.relativePath <+: partFileParts other.relativePath

end Vtfs.Interface
