import Vtfs.Library.Pieces
import Vtfs.Model.WebSeedClient
import Mathlib.Data.List.DropRight

/-!
# HTTP responses, and what a download may publish

A response is a header and a body, cut at the first empty line; the header is a status line and
lines with a name and a value.
-/

set_option autoImplicit false

namespace Vtfs.Interface

open Vtfs.Library
open Vtfs.Library.PosixPath (slash)
open Vtfs.Model

/-! ## Responses -/

/-- The first line of a text. -/
def firstLine (text : Bytes) : Bytes :=
  match cutAt crlf text with
  | some (line, _) => line
  | none => text

/-- The lines of a text. -/
def lines : Bytes → List Bytes
  | [] => [[]]
  | [c] => [[c]]
  | c :: c' :: cs =>
      if c = byte '\r' ∧ c' = byte '\n' then [] :: lines cs
      else match lines (c' :: cs) with
        | [] => [[c]]
        | line :: rest => (c :: line) :: rest

/-- A response as received: its header, and the bytes after the header. -/
structure HttpResponse where
  header : Bytes
  body : Bytes
  deriving DecidableEq

/-- The response in received bytes, once its header is there. -/
def responseOf (received : Bytes) : Option HttpResponse :=
  (cutAt endOfHeader received).map fun cut => ⟨cut.1, cut.2⟩

namespace HttpResponse

/-- The status line. -/
def statusLine (r : HttpResponse) : Bytes := firstLine r.header

/-- The status code: the second field of the status line. -/
def statusCode (r : HttpResponse) : Option Bytes := (pieces (byte ' ') r.statusLine)[1]?

/-- An ASCII letter in lower case. -/
def lowerCase (c : UInt8) : UInt8 := if byte 'A' ≤ c ∧ c ≤ byte 'Z' then c + 32 else c

/-- A space or a tab. -/
def isBlank (c : UInt8) : Bool := c = byte ' ' ∨ c = byte '\t'

/-- A value without the blanks around it. -/
def trimmed (value : Bytes) : Bytes := (value.dropWhile isBlank).rdropWhile isBlank

/-- The value of the first header line with a name, which is in lower case. -/
def field (r : HttpResponse) (name : Bytes) : Option Bytes :=
  ((lines r.header).tail.find? fun line => (upTo (byte ':') line).map lowerCase = name).map
    fun line => trimmed (line.drop (name.length + 1))

/-- The number in the `Content-Length` header. -/
def contentLength (r : HttpResponse) : Option ℕ :=
  (r.field (bytes "content-length")).bind fun value =>
    if value ≠ [] ∧ value.all Decimal.isDigit then some (Decimal.value value) else none

end HttpResponse

/-! ## Downloads -/

/-- The bytes received. -/
def received (delivery : Delivery) : Bytes := delivery.chunks.flatten

/-- A download comes to receiving: there is an address, a connection that takes the request, and
a `.part` file. -/
def Reaches (c : WebSeedClient) (network : Network) (fs : FileSystem) (virtualPath : Bytes) :
    Prop :=
  ∃ url, c.buildFileUrl virtualPath = some url ∧ (parseHttpUrl url).valid = true ∧
    network.openSocket (parseHttpUrl url).host (parseHttpUrl url).port = true ∧
    network.sendRequest (requestFor (parseHttpUrl url)) = true ∧ fs.opens = true

/-- The steps of a download that do not depend on the response succeed: it comes to receiving,
and one of the renames succeeds. -/
def Carries (c : WebSeedClient) (network : Network) (fs : FileSystem) (virtualPath : Bytes) :
    Prop :=
  Reaches c network fs virtualPath ∧ (fs.renames = true ∨ fs.renamesAgain = true)

/-- The download returns true only for a response with the status code 200 (if it has a
`Content-Length`), when the destination holds as many bytes as that says; and when it returns
false, the destination is as it was or absent. -/
structure PublishesComplete (c : WebSeedClient) (network : Network) (fs : FileSystem)
    (disk : Disk) (virtualPath destination : Bytes) : Prop where
  published : (downloadFile c network fs disk virtualPath destination).1 = true →
    ∃ response, responseOf (received network.delivery) = some response ∧
      ∀ n, response.contentLength = some n → response.statusCode = some (bytes "200") ∧
        ∃ content, (downloadFile c network fs disk virtualPath destination).2 destination =
          some content ∧ content.length = n
  unpublished : (downloadFile c network fs disk virtualPath destination).1 = false →
    (downloadFile c network fs disk virtualPath destination).2 destination = disk destination ∨
      (downloadFile c network fs disk virtualPath destination).2 destination = none

/-- A response that has the text 200 in its status line has it as its status code, and all of its
body arrives. -/
def ArrivesComplete (delivery : Delivery) : Prop :=
  ∀ response n, responseOf (received delivery) = some response →
    response.contentLength = some n → bytes "200" <:+: response.statusLine →
    response.statusCode = some (bytes "200") ∧ response.body.length = n

end Vtfs.Interface
