import Vtfs.Model.SocketWrites
import Vtfs.Model.WebDavServer

/-!
# Answers on the wire

The thread of the server may be stopped at three places of an answer.  A call of `send` takes part
of a vector, and the next one fails; a read looks at the disk and may start a download, which may
throw; and `beginStreaming` may throw, or divide by zero in `pumpOnce`.  Nobody catches an
exception of this thread, so the process ends then.  With the results of all these calls given, an
answer is the bytes that went out, and how it ended.
-/

set_option autoImplicit false

namespace Vtfs.Model

open Vtfs.Library

/-- What may cut an answer short: the results of `send`, one for each call, and whether each read
of a chunk and each call of `beginStreaming` comes back. -/
structure Interruptions where
  results : List ℤ
  reads : ℕ → Bool
  streams : ℕ → Bool

/-- How an answer ended: the connection is closed after everything that was read, or after a call
of `send` failed (which may be the end of a POSIX process, by a signal), or the process is
terminated. -/
inductive AnswerEnd where
  | finished
  | sendFailed
  | terminated
  deriving DecidableEq

/-- The bytes that went out, and how it ended. -/
structure Answered where
  out : Bytes
  ending : AnswerEnd
  deriving DecidableEq

/-- The same, after other bytes. -/
def Answered.after (first : Bytes) (rest : Answered) : Answered :=
  { rest with out := first ++ rest.out }

/-- Whether a call for the bytes at a position comes back.  Outside the file it has nothing to do.
SRCLINE: TorrentSession.cpp:94-104, TorrentSession.cpp:117-138 -/
def comesBack (entry : FileEntry) (position : UInt64) (returns : Bool) : Bool :=
  entry.isDirectory || entry.size ≤ position || returns

section Answer

variable (s : ServedFiles) (met : Interruptions) (cacheDirectory : Bytes)

/-- `attemptLoop`, or `none` when a call does not come back.  The first call of `beginStreaming`
is made before the headers are sent. -/
def attemptLoopOnWire (entry : FileEntry) (position : UInt64) (wanted : UInt32) :
    ℕ → ℕ → FileRead → Option (FileRead × ℕ)
  | 0, made, last => some (last, made)
  | left + 1, made, _ =>
      if ¬ comesBack entry position (met.reads made) then none
      else
        let read :=
          tryReadFileRange (s.disk made) (s.opens made) cacheDirectory entry position wanted
        if read.ready ∧ read.data ≠ [] then some (read, made + 1)
        else if read.ready ∧ read.data = [] ∧ ¬ s.hydrating made then some (read, made + 1)
        else if ¬ comesBack entry position (met.streams (made + 1)) then none
        else attemptLoopOnWire entry position wanted left (made + 1) read

/-- `sendLoop`, with the results of `send` that are left. -/
def sendLoopOnWire (entry : FileEntry) (stop : UInt64) :
    ℕ → UInt64 → ℕ → List ℤ → Option Answered
  | 0, _, _, _ => none
  | fuel + 1, position, made, results =>
      if ¬ position ≤ stop then some ⟨[], .finished⟩
      else
        let wanted := (min chunkLimit (stop - position + 1)).toUInt32
        match attemptLoopOnWire s met cacheDirectory entry position wanted attemptLimit made
          ⟨false, [], false⟩ with
        | none => some ⟨[], .terminated⟩
        | some (read, made) =>
            if ¬ read.ready ∨ read.data = [] then some ⟨[], .finished⟩
            else
              let (sent, out, results) := sendAll read.data results
              if ¬ sent then some ⟨out, .sendFailed⟩
              else (sendLoopOnWire entry stop fuel (position + read.data.length.toUInt64) made
                results).map (Answered.after out)

/-- SRCLINE: WebDavServer.cpp:361-412 -/
def serveFileOnWire (entry : FileEntry) (request : Request) (fuel : ℕ) : Option Answered :=
  let range := rangeOf request entry.size
  let (start, stop) := range.getD (0, if entry.size = 0 then 0 else entry.size - 1)
  let responseLength := if entry.size = 0 then 0 else stop - start + 1
  let headers := headersOut range.isSome start stop entry.size responseLength
  if ¬ comesBack entry start (met.streams 0) then some ⟨[], .terminated⟩
  else
    let (sent, out, results) := sendAll headers met.results
    if ¬ sent then some ⟨out, .sendFailed⟩
    else if request.line.method = bytes "HEAD" then some ⟨out, .finished⟩
    else (sendLoopOnWire s met cacheDirectory entry stop fuel start 0 results).map
      (Answered.after out)

/-- An answer in one vector. -/
def replyOnWire (response : Bytes) : Answered :=
  let (sent, out, _) := sendAll response met.results
  ⟨out, if sent then .finished else .sendFailed⟩

/-- SRCLINE: WebDavServer.cpp:306-412 -/
def respondOnWire (index : Index) (request : Request) (fuel : ℕ) : Option Answered :=
  if request.line.method = bytes "OPTIONS" then some (replyOnWire met optionsResponse)
  else match entryFor index request.line with
    | none => some (replyOnWire met (simpleResponse (bytes "404 Not Found") (bytes "not found")))
    | some entry =>
        if request.line.method = bytes "PROPFIND" then
          some (replyOnWire met (propfindResponse index entry request.headers))
        else if entry.isDirectory then
          some (replyOnWire met (simpleResponse (bytes "405 Method Not Allowed")
            (bytes "directory reads are not supported")))
        else serveFileOnWire s met cacheDirectory entry request fuel

/-- SRCLINE: WebDavServer.cpp:263-414 -/
def serveConnectionOnWire (index : Index) (segments : List Bytes) (fuel : ℕ) : Option Answered :=
  match receiveRequest segments with
  | none => some ⟨[], .finished⟩
  | some request => respondOnWire s met cacheDirectory index request fuel

end Answer

end Vtfs.Model
