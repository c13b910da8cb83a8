import Vtfs.Library.Decimal
import Vtfs.Library.Search
import Vtfs.Library.PosixPath

/-!
# The web seed client

`downloadFile` asks a server for a file and writes what `recv` returns after the header to a
`.part` file, which it renames at the end.  The host name service, the sockets and the file system
are outside: what they answer is a parameter.
-/

set_option autoImplicit false

namespace Vtfs.Model

open Vtfs.Library
open Vtfs.Library.PosixPath (slash)

/-! ## Addresses -/

/-- `UrlParts`. -/
structure UrlParts where
  host : Bytes
  port : UInt16
  path : Bytes
  valid : Bool
  deriving DecidableEq

/-- The parts of an address.  A port that is no number is 0.
SRCLINE: WebSeedClient.cpp:34-58 -/
def parseHttpUrl (url : Bytes) : UrlParts :=
  let scheme := bytes "http://"
  if ¬ scheme <+: url then { host := [], port := 80, path := [slash], valid := false }
  else
    let rest := url.drop scheme.length
    let hostPort := upTo slash rest
    let path := if slash ∈ rest then rest.drop hostPort.length else [slash]
    if byte ':' ∉ hostPort then { host := hostPort, port := 80, path, valid := hostPort ≠ [] }
    else
      let host := upTo (byte ':') hostPort
      let portText := hostPort.drop (host.length + 1)
      let parsed := match Decimal.fromCharsUnsigned (2 ^ 16) portText with
        | some (number, _) => number.toUInt16
        | none => 0
      { host, port := parsed, path, valid := host ≠ [] }

/-- An upper-case hexadecimal digit. -/
def upperHexDigit (d : UInt8) : UInt8 :=
  if d < 10 then byte '0' + d else byte 'A' + (d - 10)

/-- A byte that stands for itself in an address. -/
def isUnreserved (ch : UInt8) : Bool :=
  (byte 'A' ≤ ch && ch ≤ byte 'Z') || (byte 'a' ≤ ch && ch ≤ byte 'z') ||
    (byte '0' ≤ ch && ch ≤ byte '9') || ch == slash || ch == byte '-' || ch == byte '_' ||
    ch == byte '.' || ch == byte '~'

/-- A path with the other bytes in hexadecimal.
SRCLINE: WebSeedClient.cpp:60-72 -/
def percentEncodePath (text : Bytes) : Bytes :=
  text.flatMap fun ch =>
    if isUnreserved ch then [ch]
    else [byte '%', upperHexDigit (ch >>> 4 &&& 0xF), upperHexDigit (ch &&& 0xF)]

/-- The client. -/
structure WebSeedClient where
  baseUrl : Bytes

namespace WebSeedClient

/-- Whether there is a web seed.
SRCLINE: WebSeedClient.cpp:143-145 -/
def enabled (c : WebSeedClient) : Bool := c.baseUrl ≠ []

/-- The address of a file.
SRCLINE: WebSeedClient.cpp:147-163 -/
def buildFileUrl (c : WebSeedClient) (virtualPath : Bytes) : Option Bytes :=
  if ¬ c.enabled then none
  else
    let normalized := if virtualPath.head? = some slash then virtualPath.tail else virtualPath
    let url := if c.baseUrl.getLast? ≠ some slash then c.baseUrl ++ [slash] else c.baseUrl
    some (url ++ percentEncodePath normalized)

end WebSeedClient

/-- The request for a path.
SRCLINE: WebSeedClient.cpp:181-185 -/
def requestFor (parts : UrlParts) : Bytes :=
  bytes "GET " ++ parts.path ++ bytes " HTTP/1.1\r\nHost: " ++ parts.host ++
    bytes "\r\nUser-Agent: torrentfs-webseed\r\nConnection: close\r\n\r\n"

/-! ## Receiving -/

/-- The last result of `recv`: 0 when the peer closed the connection, -1 for an error. -/
inductive Ending where
  | closed
  | failed
  deriving DecidableEq

/-- The results of `recv`: bytes, never none of them and never more than the buffer takes, and
then a result that is not positive. -/
structure Delivery where
  chunks : List Bytes
  ending : Ending
  nonempty : ∀ chunk ∈ chunks, chunk ≠ []
  fits : ∀ chunk ∈ chunks, chunk.length ≤ 8192

/-- The variables of the receive loop, and what was written to the file. -/
structure Receiving where
  headerBuffer : Bytes
  headerParsed : Bool
  out : Bytes

/-- The end of a line. -/
def crlf : Bytes := bytes "\r\n"

/-- The end of a header. -/
def endOfHeader : Bytes := bytes "\r\n\r\n"

/-- The receive loop: `ok`, and what was written to the file.
SRCLINE: WebSeedClient.cpp:204-232 -/
def receiveLoop (ending : Ending) : Receiving → List Bytes → Bool × Bytes
  | t, [] =>
      match ending with
      | .closed | .failed => (t.headerParsed, t.out)
  | t, received :: rest =>
      if ¬ t.headerParsed then
        let headerBuffer := t.headerBuffer ++ received
        match cutAt endOfHeader headerBuffer with
        | none => receiveLoop ending { t with headerBuffer } rest
        | some (_, body) =>
            let statusLine := match cutAt crlf headerBuffer with
              | some (line, _) => line
              | none => headerBuffer
            if ¬ bytes "200" <:+: statusLine then (false, t.out)
            else
              receiveLoop ending
                { headerBuffer := [], headerParsed := true, out := t.out ++ body } rest
      else receiveLoop ending { t with out := t.out ++ received } rest

/-! ## Downloads -/

/-- The contents of the files, by path. -/
abbrev Disk : Type := Bytes → Option Bytes

/-- What the network answers to a download: whether there is a connection to a host and a port,
whether the request is sent, and what is received. -/
structure Network where
  openSocket : Bytes → UInt16 → Bool
  sendRequest : Bytes → Bool
  delivery : Delivery

/-- What the file system answers to a download: whether the `.part` file can be opened, whether a
removal succeeds, and whether the rename does, the first and the second time. -/
structure FileSystem where
  opens : Bool
  removes : Bool
  renames : Bool
  renamesAgain : Bool

/-- The `.part` file. -/
def partPathFor (destination : Bytes) : Bytes := destination ++ bytes ".part"

/-- A removal that may fail. -/
def removeFile (removes : Bool) (disk : Disk) (path : Bytes) : Disk :=
  if removes then Function.update disk path none else disk

/-- A rename that succeeds. -/
def renameFile (disk : Disk) (source target : Bytes) : Disk :=
  Function.update (Function.update disk target (disk source)) source none

/-- The end of a download: the `.part` file, with what was written to it, is removed or renamed.
SRCLINE: WebSeedClient.cpp:234-249 -/
def publish (fs : FileSystem) (disk : Disk) (destination : Bytes) (ok : Bool) (out : Bytes) :
    Bool × Disk :=
  let temp := partPathFor destination
  let written := Function.update disk temp (some out)
  if ¬ ok then (false, removeFile fs.removes written temp)
  else if fs.renames then (true, renameFile written temp destination)
  else
    let removed := removeFile fs.removes written destination
    if fs.renamesAgain then (true, renameFile removed temp destination)
    else (false, removed)

/-- The download of a file, once its directory is there: the result, and the files after it.
SRCLINE: WebSeedClient.cpp:165-250 -/
def downloadFile (c : WebSeedClient) (network : Network) (fs : FileSystem) (disk : Disk)
    (virtualPath destination : Bytes) : Bool × Disk :=
  match c.buildFileUrl virtualPath with
  | none => (false, disk)
  | some url =>
      let parts := parseHttpUrl url
      if ¬ parts.valid then (false, disk)
      else if ¬ network.openSocket parts.host parts.port then (false, disk)
      else if ¬ network.sendRequest (requestFor parts) then (false, disk)
      else if ¬ fs.opens then (false, disk)
      else
        let (ok, out) := receiveLoop network.delivery.ending
          { headerBuffer := [], headerParsed := false, out := [] } network.delivery.chunks
        publish fs disk destination ok out

end Vtfs.Model
