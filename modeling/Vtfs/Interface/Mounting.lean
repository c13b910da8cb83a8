import Vtfs.Library.Ledger
import Vtfs.Model.App

/-!
# What the program holds of the system

Every call that was recorded takes something from the system or gives it back; `Settles` over these
says that nothing is given back that is not held.  `heldByServer` and `heldByProvider` are what an
object should hold at any time, and `FirstFree` is the port at which a server should listen.
-/

set_option autoImplicit false

namespace Vtfs.Interface

open Vtfs.Library
open Vtfs.Model

/-- What the system gives. -/
inductive Resource where
  | socket (handle : ℕ)
  | thread
  | virtualization (handle : ℕ)
  | connection (letter : UInt16)
  | device (letter : UInt16) (target : Wide)
  deriving DecidableEq

/-- What a call takes or gives back. -/
def transferOf : SystemCall → Transfer Resource
  | .openSocket handle => .taken (.socket handle)
  | .closeSocket handle => .returned (.socket handle)
  | .startThread => .taken .thread
  | .joinThread => .returned .thread
  | .startVirtualizing handle => .taken (.virtualization handle)
  | .stopVirtualizing handle => .returned (.virtualization handle)
  | .addConnection letter _ => .taken (.connection letter)
  | .cancelConnection letter => .returned (.connection letter)
  | .defineDosDevice letter target => .taken (.device letter target)

/-- What is held before calls and after them. -/
def Balances (held : Multiset Resource) (calls : List SystemCall) (after : Multiset Resource) :
    Prop :=
  Settles held (calls.map transferOf) after

/-! ## The server -/

/-- The socket and the thread of a server. -/
def heldByServer (server : WebDavServer) : Multiset Resource :=
  (server.listenSocket.toList.map Resource.socket : Multiset Resource) +
    if server.thread then {Resource.thread} else 0

/-- The first of the 20 ports from the preferred one on that can be listened at, and its socket.
There are none so near the largest port that the 20th would be past it. -/
structure FirstFree (ports : Ports) (preferredPort port : UInt16) (socket : ℕ) : Prop where
  room : preferredPort.toNat + 20 < 2 ^ 16
  least : preferredPort ≤ port
  near : port.toNat < preferredPort.toNat + 20
  opened : ports.socket port = some socket
  bound : ports.binds port = true
  taken : ∀ earlier : UInt16, preferredPort ≤ earlier → earlier < port →
    ports.socket earlier = none ∨ ports.binds earlier = false

/-- A call on a server. -/
inductive ServerCall where
  | start (ports : Ports) (session : Option Index) (preferredPort : UInt16)
  | stop

/-- The server after a call, and the calls of the system. -/
def callServer (server : WebDavServer) : ServerCall → WebDavServer × List SystemCall
  | .start ports session preferredPort => (server.start ports session preferredPort).2
  | .stop => server.stop

/-- A server after calls on it, one after the other, and the calls of the system. -/
def runServer : List ServerCall → WebDavServer → WebDavServer × List SystemCall
  | [], server => (server, [])
  | call :: rest, server =>
      let (next, calls) := callServer server call
      let (last, more) := runServer rest next
      (last, calls ++ more)

/-- A server that listens for a session, in a thread unless none could be made. -/
def listening (session : Index) (thread : Bool) (port : UInt16) (socket : ℕ) : WebDavServer :=
  { session := some session, running := true, thread, port, listenSocket := some socket }

/-- After calls of which the last one is a start for a session, with a port that can be listened
at, a server listens at the first one. -/
inductive ListensAfter : List ServerCall → WebDavServer → Prop
  | started {earlier : List ServerCall} {ports : Ports} {session : Index}
      {preferredPort port : UInt16} {socket : ℕ} (hwsa : ports.wsaOk = true)
      (hfree : FirstFree ports preferredPort port socket) :
      ListensAfter (earlier ++ [.start ports (some session) preferredPort])
        (listening session ports.threadStarts port socket)

/-! ## The drive -/

/-- The connection of a provider whose letter is connected. -/
def connectionHeld (provider : DriveProvider) : Multiset Resource :=
  if provider.webDavMapped then {Resource.connection provider.mappedDriveLetter} else 0

/-- What a provider holds, besides the devices that it defined. -/
def heldByProvider (provider : DriveProvider) : Multiset Resource :=
  connectionHeld provider +
    (heldByServer provider.webDav +
      (provider.namespaceHandle.toList.map Resource.virtualization : List Resource))

/-- The device of a call that defines one. -/
def deviceOf : SystemCall → Option Resource
  | .defineDosDevice letter target => some (.device letter target)
  | _ => none

/-- The devices that calls define. -/
def devicesOf (calls : List SystemCall) : Multiset Resource :=
  (calls.filterMap deviceOf : List Resource)

/-- The connection of a call that makes one. -/
def connectionOf : SystemCall → Option Resource
  | .addConnection letter _ => some (.connection letter)
  | _ => none

/-- The connections that calls make. -/
def connectionsOf (calls : List SystemCall) : Multiset Resource :=
  (calls.filterMap connectionOf : List Resource)

/-- What is not given back: the devices, and the connection when Windows does not cancel it. -/
def leftBehind (answers : WindowsAnswers) (calls : List SystemCall) : Multiset Resource :=
  devicesOf calls + if answers.cancelConnection then 0 else connectionsOf calls

/-- A call that gives the drive its letter. -/
def mapsLetter : SystemCall → Bool
  | .addConnection _ _ => true
  | .defineDosDevice _ _ => true
  | _ => false

/-- Whenever a remote name is connected, it is that of the first port that can be listened at, and
the server listens there, in a thread. -/
def ConnectsToServer (ports : Ports) (calls : List SystemCall) : Prop :=
  ∀ before letter remoteName, before ++ [.addConnection letter remoteName] <+: calls →
    ∃ port socket held, remoteName = webDavRemoteName port ∧
      FirstFree ports defaultPort port socket ∧ Balances 0 before held ∧
        .socket socket ∈ held ∧ .thread ∈ held

end Vtfs.Interface
