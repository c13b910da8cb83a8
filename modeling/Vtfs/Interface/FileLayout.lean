import Vtfs.Model.TorrentMetadata

/-!
# The layout of the files

The bytes of a torrent are those of its files, one after the other.  `GapFree` says so over the
naturals, for the lengths that the torrent gives (`lengthsGiven`).
-/

set_option autoImplicit false

namespace Vtfs.Interface

open Vtfs.Library
open Vtfs.Model

/-- The length in a dictionary. -/
def lengthGiven (dict : BencodeDictionary) : Option Int64 :=
  match SortedMap.find dict (bytes "length") with
  | some (.integer length) => some length
  | _ => none

/-- The length of an item of the list of files. -/
def fileLengthGiven : BencodeValue → Option Int64
  | .dictionary fileDict => lengthGiven fileDict
  | _ => none

/-- The lengths a torrent gives for its files, in order. -/
def lengthsGiven : BencodeValue → List Int64
  | .dictionary root =>
      match SortedMap.find root (bytes "info") with
      | some (.dictionary info) =>
          match SortedMap.find info (bytes "files") with
          | some (.list fileValues) => fileValues.filterMap fileLengthGiven
          | _ => (lengthGiven info).toList
      | _ => []
  | _ => []

/-- The position is one of a byte of the file. -/
def Occupies (record : TorrentFileRecord) (position : ℕ) : Prop :=
  record.offset.toNat ≤ position ∧ position < record.offset.toNat + record.size.toNat

/-- The files lie one after the other from 0 to the total size, each with the length given. -/
structure GapFree (lengths : List Int64) (metadata : TorrentMetadata) : Prop where
  sizes : metadata.files.map (fun record => (record.size.toNat : ℤ)) =
    lengths.map fun length => length.toInt
  first : ∀ record, metadata.files[0]? = some record → record.offset.toNat = 0
  next : ∀ (i : ℕ) (record after : TorrentFileRecord), metadata.files[i]? = some record →
    metadata.files[i + 1]? = some after →
      record.offset.toNat + record.size.toNat = after.offset.toNat
  last : ∀ record, metadata.files.getLast? = some record →
    record.offset.toNat + record.size.toNat = metadata.totalSize.toNat
  empty : metadata.files = [] → metadata.totalSize.toNat = 0
  within : ∀ record ∈ metadata.files, ∀ position, Occupies record position →
    position < metadata.totalSize.toNat
  disjoint : ∀ (i j : ℕ) (record other : TorrentFileRecord), i ≠ j →
    metadata.files[i]? = some record → metadata.files[j]? = some other →
      ∀ position, ¬ (Occupies record position ∧ Occupies other position)

/-- No length is negative, and together they are below `2 ^ 64`. -/
def LengthsFit (lengths : List Int64) : Prop :=
  (∀ length ∈ lengths, 0 ≤ length.toInt) ∧ (lengths.map fun length => length.toInt).sum < 2 ^ 64

end Vtfs.Interface
