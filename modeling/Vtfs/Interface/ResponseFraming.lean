import Vtfs.Interface.FileServing
import Vtfs.Interface.HttpResponse
import Vtfs.Interface.PropfindBody
import Vtfs.Model.AnswersOnWire

/-!
# Where an answer ends

A client cuts an answer at the first empty line, reads the status code in its first line and the
number of bytes to come in its headers.  `Framed` is what it should then find, whatever the server
meets while it answers: the code of the request's case, a body that is as long as announced or,
for a file, not longer, and in that body the bytes of the file at their places.  What goes out may
be less than that text, but it is a beginning of it (`BeginningOf`).
-/

set_option autoImplicit false

namespace Vtfs.Interface

open Vtfs.Library
open Vtfs.Model

/-- The request is for the bytes of a file. -/
structure ForFile (index : Index) (request : Request) (entry : FileEntry) : Prop where
  options : request.line.method ≠ bytes "OPTIONS"
  propfind : request.line.method ≠ bytes "PROPFIND"
  found : entryFor index request.line = some entry
  file : entry.isDirectory = false

/-- The status code for a request. -/
def statusCodeFor (index : Index) (request : Request) : Bytes :=
  if request.line.method = bytes "OPTIONS" then bytes "200"
  else match entryFor index request.line with
    | none => bytes "404"
    | some entry =>
        if request.line.method = bytes "PROPFIND" then bytes "207"
        else if entry.isDirectory then bytes "405"
        else if (partOf request entry).isSome then bytes "206"
        else bytes "200"

/-- The entries in the answer to `PROPFIND`. -/
def listedFor (index : Index) (request : Request) (entry : FileEntry) : List FileEntry :=
  entry ::
    if entry.isDirectory ∧ (request.headers (bytes "depth")).getD (bytes "0") ≠ bytes "0" then
      listDirectory index entry.virtualPath else []

/-- The body of the answer to `PROPFIND`. -/
def multistatus (entries : List FileEntry) : Bytes :=
  bytes "<?xml version=\"1.0\" encoding=\"utf-8\"?><D:multistatus xmlns:D=\"DAV:\">" ++
    listing entries ++ bytes "</D:multistatus>"

/-- The first position and the number of the bytes that are asked for. -/
def extentOf (request : Request) (entry : FileEntry) : ℕ × ℕ :=
  match partOf request entry with
  | none => (0, entry.size.toNat)
  | some (first, last) => (first, last - first + 1)

/-- Each byte was at its place in the file, counted from a first position, when it was read. -/
def ReadFrom (s : ServedFiles) (cacheDirectory : Bytes) (entry : FileEntry) (first : ℕ)
    (body : Bytes) : Prop :=
  ∀ k c, body[k]? = some c → ∃ attempt payload,
    s.disk attempt (payloadPathFor cacheDirectory entry) = some payload ∧
      payload[first + k]? = some c

/-- What a client reads from an answer to a request. -/
structure Framed (s : ServedFiles) (cacheDirectory : Bytes) (index : Index) (request : Request)
    (response : HttpResponse) : Prop where
  code : response.statusCode = some (statusCodeFor index request)
  whole : (∀ entry, ¬ ForFile index request entry) →
    response.contentLength = some response.body.length
  announced : ∀ entry, ForFile index request entry →
    response.contentLength = some (extentOf request entry).2 ∧
      response.body.length ≤ (extentOf request entry).2
  places : ∀ entry, ForFile index request entry →
    ReadFrom s cacheDirectory entry (extentOf request entry).1 response.body
  head : ∀ entry, ForFile index request entry → request.line.method = bytes "HEAD" →
    response.body = []

/-- Nothing interrupts an answer of so many bytes: every call comes back, and each call of `send`
takes something, for as many calls as there are bytes. -/
structure Uninterrupted (met : Interruptions) (length : ℕ) : Prop where
  reads : ∀ attempt, met.reads attempt = true
  streams : ∀ attempt, met.streams attempt = true
  takes : ∀ result ∈ met.results, 0 < result
  enough : length ≤ met.results.length

/-- What went out is a beginning of a text, and all of it when the answer was finished, as it is
when nothing interrupts it. -/
structure BeginningOf (met : Interruptions) (text : Bytes) (answered : Answered) : Prop where
  front : answered.out <+: text
  all : answered.ending = .finished → answered.out = text
  finished : Uninterrupted met text.length → answered.ending = .finished

end Vtfs.Interface
