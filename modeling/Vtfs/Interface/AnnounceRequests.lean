import Vtfs.Library.QueryStrings
import Vtfs.Library.Search
import Vtfs.Model.TrackerClient

/-!
# Announcements as a tracker reads them

A tracker takes the target from the first line of a request, and the parameters from what follows
the first question mark of the target.
-/

set_option autoImplicit false

namespace Vtfs.Interface

open Vtfs.Library
open Vtfs.Library.Decimal (numeral)
open Vtfs.Library.QueryStrings (parameters)
open Vtfs.Model
open Vtfs.Model.TrackerClient

/-- The target of a request: the second of the words of its first line. -/
def targetOf (request : Bytes) : Option Bytes := do
  let (line, _) ← cutAt crlf request
  let (_, rest) ← cutAt [byte ' '] line
  let (target, _) ← cutAt [byte ' '] rest
  some target

/-- The parameters of a target. -/
def parametersOf (target : Bytes) : List (Bytes × Bytes) :=
  match cutAt [byte '?'] target with
  | some (_, query) => parameters query
  | none => []

/-- What an announcement should tell the tracker. -/
def announced (a : Announcement) : List (Bytes × Bytes) :=
  [(bytes "info_hash", a.infoHash), (bytes "peer_id", a.peerId), (bytes "port", bytes "6881"),
    (bytes "uploaded", numeral a.uploaded.toNat), (bytes "downloaded", numeral a.downloaded.toNat),
    (bytes "left", numeral a.left.toNat), (bytes "compact", bytes "1"),
    (bytes "event", bytes "started")]

/-- A path that can stand in a request line. -/
def IsLinePath (path : Bytes) : Prop := byte ' ' ∉ path ∧ byte '\r' ∉ path

instance (path : Bytes) : Decidable (IsLinePath path) := by
  unfold IsLinePath; infer_instance

end Vtfs.Interface
