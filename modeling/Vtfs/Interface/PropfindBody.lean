import Vtfs.Library.Markup
import Vtfs.Model.WebDavServer

/-!
# The entries in the body of a listing

The body of a listing is XML: tags, with text between them.  `responseMarkup` is the markup of one
entry, where the text in the `href` element is written with entities; `hrefs` and `tags` are what
a client reads from a body.
-/

set_option autoImplicit false

namespace Vtfs.Interface

open Vtfs.Library
open Vtfs.Library.Markup (written tagged)
open Vtfs.Model

/-- The five entities of XML. -/
def xmlEntities : Markup.Entities UInt8 where
  table := [(bytes "&amp;", byte '&'), (bytes "&lt;", byte '<'), (bytes "&gt;", byte '>'),
    (bytes "&quot;", byte '"'), (bytes "&apos;", 39)]
  mark := byte '&'
  marked := by decide
  covers := by decide
  free := by decide

/-- The tags of an XML text, each with the text after it. -/
def markupOf (xml : Bytes) : List (Bytes × Bytes) := tagged (byte '<') (byte '>') xml

/-- The names of the tags, in order. -/
def tags (xml : Bytes) : List Bytes := (markupOf xml).map Prod.fst

/-- The texts in the `href` elements, with the entities undone. -/
def hrefs (xml : Bytes) : List Bytes :=
  ((markupOf xml).filter fun part => part.1 = bytes "D:href").map fun part =>
    xmlEntities.unescape part.2

/-- The markup of one entry. -/
def responseMarkup (href : Bytes) (isDirectory : Bool) (size : Bytes) : List (Bytes × Bytes) :=
  [(bytes "D:response", []), (bytes "D:href", href), (bytes "/D:href", []),
    (bytes "D:propstat", []), (bytes "D:prop", []), (bytes "D:resourcetype", [])] ++
  (if isDirectory then [(bytes "D:collection/", [])] else []) ++
  [(bytes "/D:resourcetype", []), (bytes "D:getcontentlength", size),
    (bytes "/D:getcontentlength", []), (bytes "/D:prop", []),
    (bytes "D:status", bytes "HTTP/1.1 200 OK"), (bytes "/D:status", []),
    (bytes "/D:propstat", []), (bytes "/D:response", [])]

/-- The names of the tags of one entry. -/
def responseTags (isDirectory : Bool) : List Bytes :=
  (responseMarkup [] isDirectory []).map Prod.fst

/-- What the body says of an entry. -/
def shown (entry : FileEntry) : Bytes × Bool × UInt64 :=
  (webDavHref entry, entry.isDirectory, entry.size)

/-- The part of the body that lists entries. -/
def listing (entries : List FileEntry) : Bytes := entries.foldl appendPropResponse []

end Vtfs.Interface
