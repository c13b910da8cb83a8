import Vtfs.Model.WebDavServer

/-!
# What a request for a file is answered with

`announcement` is the text of the headers for a slice of a file, and `Serves` what an answer has to
be: the headers announce the slice that the request asks for, by its number of bytes and, for a
part, by its first and last position, and the bytes of the slice follow.
-/

set_option autoImplicit false

namespace Vtfs.Interface

open Vtfs.Library
open Vtfs.Library.Decimal (numeral)
open Vtfs.Model

/-- The payload is there at every attempt to read it, opens, and has as many bytes as the entry
says. -/
structure PayloadPresent (s : ServedFiles) (cacheDirectory : Bytes) (entry : FileEntry)
    (payload : Bytes) : Prop where
  present : ∀ attempt, s.disk attempt (payloadPathFor cacheDirectory entry) = some payload
  opens : ∀ attempt, s.opens attempt = true
  length : payload.length = entry.size.toNat

/-- The first and the last position of the part of the file that is asked for; `none` for all of
it. -/
def partOf (request : Request) (entry : FileEntry) : Option (ℕ × ℕ) :=
  (rangeOf request entry.size).map fun range => (range.1.toNat, range.2.toNat)

/-- The bytes from the first position to the last. -/
def slice (payload : Bytes) : Option (ℕ × ℕ) → Bytes
  | none => payload
  | some (first, last) => (payload.take (last + 1)).drop first

/-- The headers for `length` bytes of a file of `size` bytes. -/
def announcement (size length : ℕ) : Option (ℕ × ℕ) → Bytes
  | none => bytes "HTTP/1.1 200 OK\r\n" ++
      bytes "Accept-Ranges: bytes\r\nContent-Type: application/octet-stream\r\nContent-Length: " ++
      numeral length ++ crlf ++
      bytes "Connection: close\r\n\r\n"
  | some (first, last) => bytes "HTTP/1.1 206 Partial Content\r\n" ++
      bytes "Accept-Ranges: bytes\r\nContent-Type: application/octet-stream\r\nContent-Length: " ++
      numeral length ++ crlf ++
      (bytes "Content-Range: bytes " ++ numeral first ++ bytes "-" ++ numeral last ++
        bytes "/" ++ numeral size ++ crlf) ++
      bytes "Connection: close\r\n\r\n"

/-- The vectors sent are the headers that announce the part, with its length, and after them, for
any method but `HEAD`, its bytes. -/
structure Serves (entry : FileEntry) (payload : Bytes) (request : Request) (sent : List Bytes) :
    Prop where
  inside : ∀ first last, partOf request entry = some (first, last) →
    first ≤ last ∧ last < entry.size.toNat ∧
      (slice payload (partOf request entry)).length = last - first + 1
  headers : sent.head? = some (announcement entry.size.toNat
    (slice payload (partOf request entry)).length (partOf request entry))
  head : request.line.method = bytes "HEAD" → sent.tail = []
  body : request.line.method ≠ bytes "HEAD" →
    sent.tail.flatten = slice payload (partOf request entry)

end Vtfs.Interface
