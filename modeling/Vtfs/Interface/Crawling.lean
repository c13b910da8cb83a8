import Vtfs.Interface.ChainedServers
import Vtfs.Interface.DirectoryTree
import Vtfs.Interface.RequestSegments
import Vtfs.Library.PercentEncoding

/-!
# A client that crawls the server

A WebDAV client asks for the listing of a directory with its children, reads the entries from the
body of the answer, and goes on with the directories among them.  It sees bytes only: `crawl` is
made of connections to the server, and of what a reader of the markup finds (`readListing`).
-/

set_option autoImplicit false

namespace Vtfs.Interface

open Vtfs.Library
open Vtfs.Library.PercentEncoding (Encodes percent)
open Vtfs.Model

/-! ## Reading a listing -/

/-- The text after the first tag with a name. -/
def textAfter (tag : Bytes) (parts : List (Bytes × Bytes)) : Bytes :=
  ((parts.find? fun part => part.1 = tag).map Prod.snd).getD []

/-- What a reader finds in the markup of one entry: its address, whether it is a collection, and
its size. -/
def readEntry (parts : List (Bytes × Bytes)) : Bytes × Bool × ℕ :=
  (xmlEntities.unescape (textAfter (bytes "D:href") parts),
    parts.any fun part => part.1 = bytes "D:collection/",
    Decimal.value (textAfter (bytes "D:getcontentlength") parts))

/-- What a reader finds in a body: the entries, each after the tag of a response. -/
def readListing (body : Bytes) : List (Bytes × Bool × ℕ) :=
  (pieces (bytes "D:response", []) (markupOf body)).tail.map readEntry

/-! ## Asking -/

/-- How a client asks for a listing: the way it spells a path in a request, and its header lines,
of which the last one for the depth asks for the children. -/
structure Crawler where
  spell : Bytes → Bytes
  headerLines : List Bytes
  depth : Bytes
  lines : ∀ line ∈ headerLines, line ≠ [] ∧ ¬ crlf <:+: line
  asks : LastFor headerLines (bytes "depth") depth ∧ depth ≠ bytes "0"

/-- The request for the listing of a path. -/
def Crawler.request (c : Crawler) (path : Bytes) : Bytes :=
  bytes "PROPFIND " ++ c.spell path ++ bytes " HTTP/1.1" ++ crlf ++ (withEnds c.headerLines ++ crlf)

/-- A path is spelled in some percent encoding, without white space, and the request for it fits
the buffer of the server. -/
structure Crawler.Spells (c : Crawler) (path : Bytes) : Prop where
  encoded : ∃ plain : UInt8 → Prop, ¬ plain percent ∧ ¬ plain (byte '+') ∧
    Encodes plain (c.spell path) path
  no_space : ∀ ch ∈ c.spell path, isSpace ch = false
  fits : (c.request path).length ≤ receiveLimit

/-- The answer of a server to a request that reaches it in one segment. -/
def Upstream.answer (server : Upstream) (request : Bytes) : Option HttpResponse :=
  (serveConnection server.surroundings server.cacheDirectory server.index [request]
    server.fuel).bind fun sent => responseOf sent.flatten

/-- The crawl from a path: the files found, by address and size, in order.  The first entry of a
listing is the directory itself.  `none` when an answer has no header or the fuel is used up. -/
def crawl (server : Upstream) (c : Crawler) : ℕ → Bytes → Option (List (Bytes × ℕ))
  | 0, _ => none
  | depth + 1, path => do
      let response ← server.answer (c.request path)
      let found ← (readListing response.body).tail.mapM fun entry =>
        if entry.2.1 then crawl server c depth entry.1 else some [(entry.1, entry.2.2)]
      pure found.flatten

end Vtfs.Interface
