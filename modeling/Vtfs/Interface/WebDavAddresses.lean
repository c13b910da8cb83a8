import Vtfs.Model.WebDavServer

/-!
# Addresses of entries

A client takes the address published for an entry and puts it into a request line as it is.
`ResolvesToItself` says that the server then comes back to the entry; `UsableAsIs` is what this
takes, in terms of the path of the entry.
-/

set_option autoImplicit false

namespace Vtfs.Interface

open Vtfs.Library
open Vtfs.Model

/-- An entry of the index, as `lookup` or `listDirectory` gives it. -/
def IsEntry (s : Index) (entry : FileEntry) : Prop :=
  (∃ path, lookup s path = some entry) ∨ ∃ path, entry ∈ listDirectory s path

/-- A request for an address, with what comes after its first line. -/
def getRequest (href headers : Bytes) : Bytes :=
  bytes "GET " ++ href ++ bytes " HTTP/1.1" ++ crlf ++ headers

/-- The request for the address of the entry, as much of it as is received, is one for the entry,
whatever the headers are. -/
def ResolvesToItself (s : Index) (entry : FileEntry) : Prop :=
  ∀ headers, ∃ line,
    requestLineOf ((getRequest (webDavHref entry) headers).take receiveLimit) = some line ∧
      entryFor s line = some entry

/-- The path of the entry has no white space, no plus sign and no percent sign before two
hexadecimal digits, fits the buffer with the rest of the request line, and is the path of this
entry and not of one that has replaced it. -/
structure UsableAsIs (s : Index) (entry : FileEntry) : Prop where
  no_space : ∀ ch ∈ entry.virtualPath, isSpace ch = false
  no_plus : byte '+' ∉ entry.virtualPath
  no_escape : ∀ text, text <:+ entry.virtualPath → escapedByte text = none
  short : entry.virtualPath.length + 15 ≤ receiveLimit
  kept : s.entries entry.virtualPath = some entry

end Vtfs.Interface
