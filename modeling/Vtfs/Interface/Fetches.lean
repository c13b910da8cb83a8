import Vtfs.Interface.ChainedServers
import Vtfs.Interface.RangeHeaders
import Vtfs.Interface.RequestSegments
import Vtfs.Interface.WebDavAddresses
import Vtfs.Library.Assembly

/-!
# A file fetched in parts

A client may fetch a file over several connections, from one server or several, with or without
ranges, and go on after a connection broke, at any byte of an answer.  It goes by what it receives
only: an answer with the status 200 begins with the first byte of the file, and one with 206 where
its `Content-Range` says.
-/

set_option autoImplicit false

namespace Vtfs.Interface

open Vtfs.Library
open Vtfs.Model

/-! ## Where an answer belongs -/

/-- The first position in the `Content-Range` header. -/
def HttpResponse.firstPosition (r : HttpResponse) : Option ℕ :=
  (r.field (bytes "content-range")).bind fun value =>
    let digits := upTo (byte '-') (value.drop (bytes "bytes ").length)
    if bytes "bytes " <+: value ∧ digits ≠ [] ∧ digits.all Decimal.isDigit then
      some (Decimal.value digits)
    else none

/-- The part of the file that an answer has. -/
def HttpResponse.part (r : HttpResponse) : Option (Assembly.Part UInt8) :=
  if r.statusCode = some (bytes "200") then some ⟨0, r.body⟩
  else if r.statusCode = some (bytes "206") then r.firstPosition.map fun first => ⟨first, r.body⟩
  else none

/-! ## Connections -/

/-- A connection: the server with what it meets and what interrupts its answer, the number of bytes
that arrive of what goes out, and a request with any header lines, in the segments in which it
arrives. -/
structure Fetch where
  server : Upstream
  met : Interruptions
  arrived : ℕ
  target : Bytes
  headerLines : List Bytes
  segments : List Bytes
  word : target ≠ [] ∧ target.all (!isSpace ·) = true
  lines : ∀ line ∈ headerLines, line ≠ [] ∧ ¬ crlf <:+: line
  nonempty : ∀ segment ∈ segments, segment ≠ []
  arrives : segments.flatten = getRequest target (withEnds headerLines ++ crlf)

namespace Fetch

/-- The part that the client receives. -/
def part (fetch : Fetch) : Option (Assembly.Part UInt8) :=
  (fetch.server.answerOnWire fetch.met fetch.segments).bind fun answered =>
    (responseOf (answered.out.take fetch.arrived)).bind HttpResponse.part

/-- The target is that of a file, and whenever its payload is there it is a beginning of the
contents. -/
structure IsFor (fetch : Fetch) (entry : FileEntry) (contents : Bytes) : Prop where
  found : lookup fetch.server.index (urlDecode fetch.target) = some entry
  file : entry.isDirectory = false
  holds : ∀ attempt payload, fetch.server.surroundings.disk attempt
    (payloadPathFor fetch.server.cacheDirectory entry) = some payload → payload <+: contents

/-- The request is received at once, the payload is there, complete, and nothing cuts the answer
short, neither at the server nor on the way. -/
structure Undisturbed (fetch : Fetch) (entry : FileEntry) (contents : Bytes) : Prop where
  received : ∃ first rest, fetch.segments = first :: rest ∧
    ReceivedAtOnce (bytes "GET " ++ fetch.target ++ bytes " HTTP/1.1") fetch.headerLines
      (first.take receiveLimit)
  payload : PayloadPresent fetch.server.surroundings.toServedFiles fetch.server.cacheDirectory entry
    contents
  whole : ∃ answered, fetch.server.answerOnWire fetch.met fetch.segments = some answered ∧
    answered.ending = .finished ∧ answered.out.length ≤ fetch.arrived

/-- A position is asked for: by a range, or by a request without one. -/
def AsksFor (fetch : Fetch) (entry : FileEntry) (position : ℕ) : Prop :=
  (position < entry.size.toNat ∧ ∀ value, ¬ LastFor fetch.headerLines (bytes "range") value) ∨
    ∃ value start stop, LastFor fetch.headerLines (bytes "range") value ∧
      DenotesRange entry.size.toNat value start stop ∧ start ≤ position ∧ position ≤ stop

end Fetch

/-- What a client knows of the file, at each position, after connections. -/
def fetched (fetches : List Fetch) : ℕ → Option UInt8 :=
  Assembly.assemble (fetches.filterMap Fetch.part)

end Vtfs.Interface
