import Vtfs.Model.WebDavServer

/-!
# Requests in segments

A request reaches the server in segments, cut where the network cuts it.  The server reads one of
them.  `ReceivedAtOnce` is what the first segment has to hold, so that the server goes by the same
method, target and headers as for the request in one piece: the first line with its end, and of
the headers all but lines that repeat what a line before them says.
-/

set_option autoImplicit false

namespace Vtfs.Interface

open Vtfs.Library
open Vtfs.Model

/-- Lines, each with its end. -/
def withEnds (lines : List Bytes) : Bytes := lines.flatMap fun line => line ++ crlf

/-- A request that fits the buffer: its first line, the lines of the headers and an empty line. -/
structure CompleteRequest (request line : Bytes) (headerLines : List Bytes) : Prop where
  text : request = line ++ crlf ++ (withEnds headerLines ++ crlf)
  requestLine : ¬ crlf <:+: line
  headerLine : ∀ headerLine ∈ headerLines, headerLine ≠ [] ∧ ¬ crlf <:+: headerLine
  fits : request.length ≤ receiveLimit

/-- What the server goes by. -/
def actedOn (request : Request) : Bytes × Bytes × Headers :=
  (request.line.method, request.line.target, request.headers)

/-- The lines that a text has with their ends, one after the other from its start, and the lines
that are left. -/
def linesWithin : List Bytes → Bytes → List Bytes × List Bytes
  | [], _ => ([], [])
  | line :: lines, text =>
      if line ++ crlf <+: text then
        let (received, missing) := linesWithin lines (text.drop (line ++ crlf).length)
        (line :: received, missing)
      else ([], line :: lines)

/-- The last of the lines for the header `name` gives it the value. -/
def LastFor (lines : List Bytes) (name value : Bytes) : Prop :=
  ∃ before line after, lines = before ++ line :: after ∧ headerOf line = some (name, value) ∧
    ∀ other ∈ after, ∀ value', headerOf other ≠ some (name, value')

/-- The first segment has the first line with its end, and a header that has a line among those
that the segment does not have whole has a line among the others, with the same value in the last
of either. -/
structure ReceivedAtOnce (line : Bytes) (headerLines : List Bytes) (first : Bytes) : Prop where
  requestLine : line ++ crlf <+: first
  headers : ∀ name value,
    LastFor (linesWithin headerLines (first.drop (line ++ crlf).length)).2 name value →
      LastFor (linesWithin headerLines (first.drop (line ++ crlf).length)).1 name value

end Vtfs.Interface
