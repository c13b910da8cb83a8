import Vtfs.Model.SessionThreads

/-!
# A session whose calls may throw

Some calls that the threads of a session make are documented to throw: `exists` for a path that the
system does not take, `create_directories`, and the start of a thread.  An exception leaves the
function that the thread is in.  No function of the session catches it, and nobody can where the
thread was made for a download; so the process ends, unless whoever made the call catches it.
-/

set_option autoImplicit false

namespace Vtfs.Model

open Vtfs.Library

/-- A session, and the paths that were put in flight for threads that could not be started. -/
structure SessionProcess where
  session : TorrentSession
  abandoned : List Bytes

/-- A step of a thread or a call by one, or an exception of the call that a thread makes next, with
whether it is caught outside. -/
inductive ProcessAction where
  | acts (a : Action)
  | throws (t : ℕ) (caught : Bool)

namespace SessionProcess

/-- A process after the start of its session.
SRCLINE: TorrentSession.cpp:35-48 -/
def start (config : Config) (metadata : TorrentMetadata) (disk : Disk) : SessionProcess :=
  ⟨TorrentSession.start config metadata disk, []⟩

/-- The next step of a thread at this place is a call that may throw.
SRCLINE: TorrentSession.cpp:101, TorrentSession.cpp:141-146, TorrentSession.cpp:157,
WebSeedClient.cpp:191 -/
def mayThrow (p : SessionProcess) : Location → Bool
  | .findFile _ | .spawn _ _ | .downloadFile _ => true
  | .ensureWebSeedDownload entry _ => !entry.isDirectory && p.session.webSeedClient.enabled
  | _ => false

/-- An exception at this place can be caught: the thread was not made for a download. -/
def isInCall : Location → Bool
  | .downloadFile _ => false
  | _ => true

/-- A thread has left its function by an exception.  What was put in flight stays there.
SRCLINE: TorrentSession.cpp:150-157 -/
def unwind (p : SessionProcess) (t : ℕ) : Location → SessionProcess
  | .spawn entry _ => ⟨p.session.moveTo t none, p.abandoned ++ [entry.virtualPath]⟩
  | _ => ⟨p.session.moveTo t none, p.abandoned⟩

/-- A process after an action, as long as there is one; `none` is a process that was ended by an
exception, in which nothing happens any more. -/
def next : Option SessionProcess → ProcessAction → Option (Option SessionProcess)
  | none, _ => none
  | some p, .acts a => (p.session.next a).map fun session => some { p with session }
  | some p, .throws t caught =>
      (p.session.threads t).bind fun location =>
        if ¬ p.mayThrow location then none
        else some (if caught ∧ isInCall location then some (p.unwind t location) else none)

end SessionProcess

end Vtfs.Model
