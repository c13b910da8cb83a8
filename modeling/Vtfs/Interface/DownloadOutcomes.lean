import Vtfs.Interface.HttpResponse

/-!
# What a download leaves behind

The `.part` file takes what is received after the header; a download that returns true has renamed
it to the destination.  `AtomicOnFailure` is what a download that returns false should leave: the
destination as it was, and no `.part` file of its own.
-/

set_option autoImplicit false

namespace Vtfs.Interface

open Vtfs.Library
open Vtfs.Model

/-- What the receive loop decides, and what it writes to the `.part` file. -/
def partFile (delivery : Delivery) : Bool × Bytes :=
  receiveLoop delivery.ending ⟨[], false, []⟩ delivery.chunks

/-- What has become of the `.part` file: it is the destination if the download returned true. -/
def writtenFile (outcome : Bool × Disk) (destination : Bytes) : Option Bytes :=
  if outcome.1 then outcome.2 destination else outcome.2 (partPathFor destination)

/-- A text is cut at its first empty line. -/
structure CutsAtFirst (text header body : Bytes) : Prop where
  cut : text = header ++ endOfHeader ++ body
  first : ∀ front rest, text = front ++ endOfHeader ++ rest → header.length ≤ front.length

/-- A download that returns false leaves the destination as it was, and no `.part` file where
there was none. -/
structure AtomicOnFailure (c : WebSeedClient) (network : Network) (fs : FileSystem) (disk : Disk)
    (virtualPath destination : Bytes) : Prop where
  kept : (downloadFile c network fs disk virtualPath destination).1 = false →
    (downloadFile c network fs disk virtualPath destination).2 destination = disk destination
  removed : (downloadFile c network fs disk virtualPath destination).1 = false →
    disk (partPathFor destination) = none →
      (downloadFile c network fs disk virtualPath destination).2 (partPathFor destination) = none

/-- The response has a header with the text 200 in its status line. -/
def Acceptable (delivery : Delivery) : Prop :=
  ∃ response, responseOf (received delivery) = some response ∧
    bytes "200" <:+: response.statusLine

/-- The local steps after the last byte leave nothing to clean up: a response that is not
acceptable is received when the `.part` file can be removed or was there before, and after an
acceptable one a rename succeeds, or a `.part` file was there before and the destination is not
removed. -/
structure LeavesNothing (delivery : Delivery) (fs : FileSystem) (disk : Disk)
    (destination : Bytes) : Prop where
  rejected : ¬ Acceptable delivery →
    fs.removes = true ∨ disk (partPathFor destination) ≠ none
  unnamed : Acceptable delivery → fs.renames = false → fs.renamesAgain = false →
    disk (partPathFor destination) ≠ none ∧ (fs.removes = true → disk destination = none)

end Vtfs.Interface
