import Vtfs.Model.TorrentSession
import Mathlib.Data.List.DropRight

/-!
# The WebDAV server

The server publishes the virtual path of an entry as its address, and reads the target of a
request as a percent-encoded path.  A request is what one `recv` returns, at most 8191 bytes; its
first line is split into words at white space, and the lines after it give the headers.

An answer is the list of the vectors that are sent whole.  What the thread meets while it answers
(the payload files, downloads in flight, the client) is a parameter, and what its calls of
`beginStreaming` lead to is part of that.  Here all calls into the session come back.  One that
does not ends the process: `exists`, `create_directories` and the start of a thread may throw, and
`pumpOnce`, which `beginStreaming` calls, may divide by zero.  `AnswersOnWire` has these ends, and
vectors that are sent in part.
-/

set_option autoImplicit false

namespace Vtfs.Model

open Vtfs.Library
open Vtfs.Library.Decimal (fromCharsUnsigned numeral)
open Vtfs.Library.PosixPath (slash)

/-! ## Addresses -/

/-- The value of a hexadecimal digit; `none` is the result -1.
SRCLINE: WebDavServer.cpp:85-96 -/
def fromHex (ch : UInt8) : Option UInt8 :=
  if byte '0' ≤ ch ∧ ch ≤ byte '9' then some (ch - byte '0')
  else if byte 'a' ≤ ch ∧ ch ≤ byte 'f' then some (10 + (ch - byte 'a'))
  else if byte 'A' ≤ ch ∧ ch ≤ byte 'F' then some (10 + (ch - byte 'A'))
  else none

/-- The byte of an escape at the start of a text: a percent sign and two digits. -/
def escapedByte : Bytes → Option UInt8
  | percent :: high :: low :: _ =>
      if percent = byte '%' then do
        let hi ← fromHex high
        let lo ← fromHex low
        pure (hi <<< 4 ||| lo)
      else none
  | _ => none

/-- The loop of `urlDecode`, with the number of characters that `i += 2` has still to pass. -/
def urlDecodeLoop : ℕ → Bytes → Bytes
  | _, [] => []
  | skip + 1, _ :: rest => urlDecodeLoop skip rest
  | 0, ch :: rest =>
      match escapedByte (ch :: rest) with
      | some decoded => decoded :: urlDecodeLoop 2 rest
      | none => (if ch = byte '+' then byte ' ' else ch) :: urlDecodeLoop 0 rest

/-- A target as a path.
SRCLINE: WebDavServer.cpp:98-114 -/
def urlDecode (path : Bytes) : Bytes :=
  let out := urlDecodeLoop 0 path
  if out = [] then [slash] else out

/-- The address published for an entry.
SRCLINE: WebDavServer.cpp:116-121 -/
def webDavHref (entry : FileEntry) : Bytes :=
  if entry.virtualPath = [slash] then [slash] else entry.virtualPath

/-! ## Requests -/

/-- `std::isspace`, in the classic locale. -/
def isSpace (ch : UInt8) : Bool := ch == byte ' ' || (9 ≤ ch && ch ≤ 13)

/-- `operator>>` for a string: white space is passed, then the word up to the next white space is
read.  The word, and the rest of the stream. -/
def readWord (stream : Bytes) : Bytes × Bytes :=
  let text := stream.dropWhile isSpace
  (text.takeWhile fun ch => !isSpace ch, text.dropWhile fun ch => !isSpace ch)

/-- The words of a request line. -/
structure RequestLine where
  method : Bytes
  target : Bytes
  version : Bytes
  deriving DecidableEq

/-- `requestLine >> method >> target >> version`. -/
def parseRequestLine (line : Bytes) : RequestLine :=
  let (method, rest) := readWord line
  let (target, rest) := readWord rest
  let (version, _) := readWord rest
  { method, target, version }

/-- The size of the buffer that is given to `recv`. -/
def receiveLimit : ℕ := 8191

/-- The request line of what was received, up to the first end of a line.  Without one the
connection is closed.
SRCLINE: WebDavServer.cpp:276-286 -/
def requestLineOf (request : Bytes) : Option RequestLine :=
  (cutAt crlf request).map fun cut => parseRequestLine cut.1

/-- The entry that a request is for.
SRCLINE: WebDavServer.cpp:306-307 -/
def entryFor (s : Index) (line : RequestLine) : Option FileEntry := lookup s (urlDecode line.target)

/-! ## Headers -/

/-- The headers, by name in lower case. -/
abbrev Headers := Bytes → Option Bytes

/-- `std::tolower`, in the classic locale. -/
def toLower (ch : UInt8) : UInt8 := if byte 'A' ≤ ch ∧ ch ≤ byte 'Z' then ch + 32 else ch

/-- A text without the white space around it.
SRCLINE: WebDavServer.cpp:60-68 -/
def trim (value : Bytes) : Bytes := (value.dropWhile isSpace).rdropWhile isSpace

/-- The name and the value in a line, if it has a colon. -/
def headerOf (line : Bytes) : Option (Bytes × Bytes) :=
  (cutAt [byte ':'] line).map fun cut => (cut.1.map toLower, trim cut.2)

/-- One round of the loop over the lines: `headers[name] = trim(...)`. -/
def addHeader (headers : Headers) (line : Bytes) : Headers :=
  match headerOf line with
  | some (name, value) => fun other => if other = name then some value else headers other
  | none => headers

/-- The loop over the lines, up to an empty line or the last end of a line.  Each round passes at
least one byte, so as many rounds as there are bytes are enough. -/
def headersLoop : ℕ → Bytes → Headers → Headers
  | 0, _, headers => headers
  | rounds + 1, rest, headers =>
      match cutAt crlf rest with
      | some (line, after) =>
          if line = [] then headers else headersLoop rounds after (addHeader headers line)
      | none => headers

/-- A request. -/
structure Request where
  line : RequestLine
  headers : Headers

/-- What was received, as a request.
SRCLINE: WebDavServer.cpp:276-304 -/
def parseRequest (received : Bytes) : Option Request :=
  (cutAt crlf received).map fun cut =>
    { line := parseRequestLine cut.1
      headers := headersLoop cut.2.length cut.2 fun _ => none }

/-- The request on a connection, from what one `recv` after the other would return.  Only the first
one is made.
SRCLINE: WebDavServer.cpp:263-304 -/
def receiveRequest : List Bytes → Option Request
  | [] => none
  | received :: _ => if received = [] then none else parseRequest (received.take receiveLimit)

/-! ## Ranges -/

/-- `std::stoull`: white space, a sign, and the longest run of digits; a minus sign negates modulo
`2 ^ 64`.  `none` is an exception. -/
def stoull (text : Bytes) : Option UInt64 :=
  let signed := text.dropWhile isSpace
  let negative := signed.head? = some (byte '-')
  let digits := if negative ∨ signed.head? = some (byte '+') then signed.tail else signed
  (fromCharsUnsigned (2 ^ 64) digits).map fun number =>
    if negative then 0 - number.1.toUInt64 else number.1.toUInt64

/-- The first and the last position of a range.
SRCLINE: WebDavServer.cpp:152-172 -/
def parseRangeHeader (value : Bytes) (size : UInt64) : Option (UInt64 × UInt64) :=
  if ¬ bytes "bytes=" <+: value then none
  else do
    let (first, last) ← cutAt [byte '-'] (value.drop (bytes "bytes=").length)
    let start ← stoull first
    let endText := trim last
    let stop ← if endText = [] then some (if size = 0 then 0 else size - 1) else stoull endText
    if size ≤ start ∨ stop < start then none else some (start, min stop (size - 1))

/-! ## Answers -/

/-- A number as text. -/
def numberText (n : UInt64) : Bytes := numeral n.toNat

/-- The files that the thread meets, whether a file that is there can be opened, and whether the
file is hydrating, at each attempt to read. -/
structure ServedFiles where
  disk : ℕ → Disk
  opens : ℕ → Bool
  hydrating : ℕ → Bool

/-- What the thread meets: the files, and whether each vector is sent whole. -/
structure Surroundings extends ServedFiles where
  sendAll : ℕ → Bool

/-- The files, with a client that takes everything. -/
def ServedFiles.unhindered (files : ServedFiles) : Surroundings := { files with sendAll _ := true }

/-- The attempts to read a chunk, with those that are left and the number made so far: the last
read, and the number made then. -/
def attemptLoop (s : ServedFiles) (cacheDirectory : Bytes) (entry : FileEntry) (position : UInt64)
    (wanted : UInt32) : ℕ → ℕ → FileRead → FileRead × ℕ
  | 0, made, last => (last, made)
  | left + 1, made, _ =>
      let read := tryReadFileRange (s.disk made) (s.opens made) cacheDirectory entry position wanted
      if read.ready ∧ read.data ≠ [] then (read, made + 1)
      else if read.ready ∧ read.data = [] ∧ ¬ s.hydrating made then (read, made + 1)
      else attemptLoop s cacheDirectory entry position wanted left (made + 1) read

section Answer

variable (s : Surroundings) (cacheDirectory : Bytes)

/-- The size of the buffer for a chunk. -/
def chunkLimit : UInt64 := 64 * 1024

/-- The number of attempts to read a chunk. -/
def attemptLimit : ℕ := 1200

/-- The loop that sends the body from a position on, with the attempts made and the vectors sent
so far.  The vectors it sends, or `none` when it has run out of fuel. -/
def sendLoop (entry : FileEntry) (stop : UInt64) : ℕ → UInt64 → ℕ → ℕ → Option (List Bytes)
  | 0, _, _, _ => none
  | fuel + 1, position, made, sent =>
      if ¬ position ≤ stop then some []
      else
        let wanted := (min chunkLimit (stop - position + 1)).toUInt32
        let (read, made) := attemptLoop s.toServedFiles cacheDirectory entry position wanted
          attemptLimit made ⟨false, [], false⟩
        if ¬ read.ready ∨ read.data = [] then some []
        else if ¬ s.sendAll sent then some []
        else (sendLoop entry stop fuel (position + read.data.length.toUInt64) made (sent + 1)).map
          (read.data :: ·)

/-- The headers of an answer with a file or a part of it. -/
def headersOut (isPartial : Bool) (start stop size responseLength : UInt64) : Bytes :=
  (if isPartial then bytes "HTTP/1.1 206 Partial Content\r\n" else bytes "HTTP/1.1 200 OK\r\n") ++
    bytes "Accept-Ranges: bytes\r\nContent-Type: application/octet-stream\r\nContent-Length: " ++
    numberText responseLength ++ crlf ++
    (if isPartial then bytes "Content-Range: bytes " ++ numberText start ++ bytes "-" ++
      numberText stop ++ bytes "/" ++ numberText size ++ crlf else []) ++
    bytes "Connection: close\r\n\r\n"

/-- The range that a request asks for. -/
def rangeOf (request : Request) (size : UInt64) : Option (UInt64 × UInt64) :=
  (request.headers (bytes "range")).bind fun value => parseRangeHeader value size

/-- The answer with a file, when all calls into the session come back.
SRCLINE: WebDavServer.cpp:361-412 -/
def serveFile (entry : FileEntry) (request : Request) (fuel : ℕ) : Option (List Bytes) :=
  let range := rangeOf request entry.size
  let (start, stop) := range.getD (0, if entry.size = 0 then 0 else entry.size - 1)
  let responseLength := if entry.size = 0 then 0 else stop - start + 1
  let headers := headersOut range.isSome start stop entry.size responseLength
  if ¬ s.sendAll 0 then some []
  else if request.line.method = bytes "HEAD" then some [headers]
  else (sendLoop s cacheDirectory entry stop fuel start 0 1).map (headers :: ·)

/-- A text as character data of XML.
SRCLINE: WebDavServer.cpp:70-83 -/
def xmlEscape (input : Bytes) : Bytes :=
  input.flatMap fun ch =>
    if ch = byte '&' then bytes "&amp;"
    else if ch = byte '<' then bytes "&lt;"
    else if ch = byte '>' then bytes "&gt;"
    else if ch = byte '"' then bytes "&quot;"
    -- an apostrophe
    else if ch = 39 then bytes "&apos;"
    else [ch]

/-- One entry of a listing is added.
SRCLINE: WebDavServer.cpp:123-133 -/
def appendPropResponse (xml : Bytes) (entry : FileEntry) : Bytes :=
  xml ++ bytes "<D:response><D:href>" ++ xmlEscape (webDavHref entry) ++
    bytes "</D:href><D:propstat><D:prop><D:resourcetype>" ++
    (if entry.isDirectory then bytes "<D:collection/>" else []) ++
    bytes "</D:resourcetype><D:getcontentlength>" ++ numberText entry.size ++
    bytes "</D:getcontentlength></D:prop><D:status>HTTP/1.1 200 OK</D:status>" ++
    bytes "</D:propstat></D:response>"

/-- A listing: the entry, and its children unless the depth is 0.
SRCLINE: WebDavServer.cpp:335-354 -/
def propfindResponse (index : Index) (entry : FileEntry) (headers : Headers) : Bytes :=
  let depth := (headers (bytes "depth")).getD (bytes "0")
  let children := if entry.isDirectory ∧ depth ≠ bytes "0" then
    listDirectory index entry.virtualPath else []
  let own := appendPropResponse
    (bytes "<?xml version=\"1.0\" encoding=\"utf-8\"?><D:multistatus xmlns:D=\"DAV:\">") entry
  let xml := children.foldl appendPropResponse own ++ bytes "</D:multistatus>"
  bytes "HTTP/1.1 207 Multi-Status\r\nContent-Type: application/xml; charset=\"utf-8\"\r\n" ++
    bytes "Content-Length: " ++ numeral xml.length ++ bytes "\r\nConnection: close\r\n\r\n" ++ xml

/-- `sendSimple`, for a text.
SRCLINE: WebDavServer.cpp:309-319 -/
def simpleResponse (status body : Bytes) : Bytes :=
  bytes "HTTP/1.1 " ++ status ++ bytes "\r\nContent-Length: " ++ numeral body.length ++
    bytes "\r\nContent-Type: text/plain\r\nConnection: close\r\n\r\n" ++ body

/-- The answer to `OPTIONS`. -/
def optionsResponse : Bytes :=
  bytes "HTTP/1.1 200 OK\r\nAllow: OPTIONS, PROPFIND, GET, HEAD\r\nDAV: 1\r\n" ++
    bytes "Content-Length: 0\r\nConnection: close\r\n\r\n"

/-- The answer to a request, when all calls into the session come back.
SRCLINE: WebDavServer.cpp:306-412 -/
def respond (index : Index) (request : Request) (fuel : ℕ) : Option (List Bytes) :=
  let reply (response : Bytes) := some (if s.sendAll 0 then [response] else [])
  if request.line.method = bytes "OPTIONS" then reply optionsResponse
  else match entryFor index request.line with
    | none => reply (simpleResponse (bytes "404 Not Found") (bytes "not found"))
    | some entry =>
        if request.line.method = bytes "PROPFIND" then
          reply (propfindResponse index entry request.headers)
        else if entry.isDirectory then
          reply (simpleResponse (bytes "405 Method Not Allowed")
            (bytes "directory reads are not supported"))
        else serveFile s cacheDirectory entry request fuel

/-- A connection, from what one `recv` after the other would return: what is sent on it before it
is closed.
SRCLINE: WebDavServer.cpp:263-414 -/
def serveConnection (index : Index) (segments : List Bytes) (fuel : ℕ) : Option (List Bytes) :=
  match receiveRequest segments with
  | none => some []
  | some request => respond s cacheDirectory index request fuel

end Answer

/-- The address of a server; without a port there is none.
SRCLINE: WebDavServer.cpp:240-245 -/
def endpoint (port : UInt16) : Bytes :=
  if port = 0 then [] else bytes "http://127.0.0.1:" ++ numeral port.toNat ++ bytes "/"

end Vtfs.Model
