import Vtfs.Model.VirtualDrive
import Vtfs.Model.WebDavServer

/-!
# Mounting the drive

The provider of the Windows drive tries the projected file system first; when Windows does not
take it, it starts the WebDAV server and connects the drive letter to that, and when this fails as
well it fills a directory with placeholders and maps the letter to it.  What the system answers
is a parameter.  Calls of the system that give something, or take it back, are recorded in order
when they succeed; a call of `join` is taken to return, though the thread it waits for may be in a
call of the system.  What is printed is left out.
-/

set_option autoImplicit false

namespace Vtfs.Model

open Vtfs.Library

/-- A call of the system that gave something or took it back. -/
inductive SystemCall where
  | openSocket (handle : ℕ)
  | closeSocket (handle : ℕ)
  | startThread
  | joinThread
  | startVirtualizing (handle : ℕ)
  | stopVirtualizing (handle : ℕ)
  | addConnection (letter : UInt16) (remoteName : Wide)
  | cancelConnection (letter : UInt16)
  | defineDosDevice (letter : UInt16) (target : Wide)
  deriving DecidableEq

/-! ## The server -/

/-- `WebDavServer`: its session, `running_`, whether `thread_` is joinable, its port and its
socket, which is -1 when there is none. -/
structure WebDavServer where
  session : Option Index
  running : Bool
  thread : Bool
  port : UInt16
  listenSocket : Option ℕ

/-- What a call of `start` gets from the system: whether the sockets of Windows could be set up,
and for each port the socket, if there is one, and whether it can be bound and listened at; and
whether a thread can be made. -/
structure Ports where
  wsaOk : Bool
  socket : UInt16 → Option ℕ
  binds : UInt16 → Bool
  threadStarts : Bool

/-- What a call comes to. -/
inductive Started where
  | yes
  | no
  | thrown
  deriving DecidableEq

namespace WebDavServer

/-- A server that was constructed. -/
def create : WebDavServer :=
  { session := none, running := false, thread := false, port := 0, listenSocket := none }

/-- SRCLINE: WebDavServer.cpp:221-230 -/
def stop (server : WebDavServer) : WebDavServer × List SystemCall :=
  (create, server.listenSocket.toList.map .closeSocket ++
    if server.thread then [.joinThread] else [])

/-- The ports that are tried: from the preferred one on, below the 20th after it in 16 bits, so
that adding one never wraps. -/
def candidates (preferredPort : UInt16) : List UInt16 :=
  (List.range' preferredPort.toNat ((preferredPort + 20).toNat - preferredPort.toNat)).map
    Nat.toUInt16

/-- The loop over the ports: the port that is listened at and its socket, and the sockets that were
opened and closed. -/
def startLoop (ports : Ports) : List UInt16 → Option (UInt16 × ℕ) × List SystemCall
  | [] => (none, [])
  | candidate :: rest =>
      match ports.socket candidate with
      | none => startLoop ports rest
      | some socket =>
          if ports.binds candidate then (some (candidate, socket), [.openSocket socket])
          else
            let (found, calls) := startLoop ports rest
            (found, .openSocket socket :: .closeSocket socket :: calls)

/-- SRCLINE: WebDavServer.cpp:180-219 -/
def start (ports : Ports) (server : WebDavServer) (session : Option Index)
    (preferredPort : UInt16) : Started × WebDavServer × List SystemCall :=
  let (stopped, calls) := server.stop
  match session with
  | none => (.no, stopped, calls)
  | some session =>
      if ¬ ports.wsaOk then (.no, { stopped with session := some session }, calls)
      else
        match startLoop ports (candidates preferredPort) with
        | (none, tried) => (.no, stopped, calls ++ tried)
        | (some (port, socket), tried) =>
            let listening : WebDavServer :=
              { session := some session, running := true, thread := false, port
                listenSocket := some socket }
            if ports.threadStarts then
              (.yes, { listening with thread := true }, calls ++ tried ++ [.startThread])
            else (.thrown, listening, calls ++ tried)

end WebDavServer

/-! ## The provider -/

/-- `WindowsProjFsProvider`, as far as it is mounted: `sessionHolder_` is its session. -/
structure DriveProvider where
  session : Option Index
  namespaceHandle : Option ℕ
  webDav : WebDavServer
  webDavMapped : Bool
  mappedDriveLetter : UInt16

/-- What `mount` and the destructor get from Windows.  `materializes` has the result of
`linkOrPlaceholder` for each file, `addConnection` whether a remote name is connected, and
`cancelConnection` whether the connection is taken back. -/
structure WindowsAnswers where
  createGuid : Bool
  markDirectory : HRESULT
  startVirtualizing : HRESULT
  virtualization : ℕ
  ports : Ports
  addConnection : Wide → Bool
  cancelConnection : Bool
  workerStarts : Bool
  materializes : ℕ → Bool
  defineDosDevice : Bool

/-- `HRESULT_FROM_WIN32(ERROR_REPARSE_TAG_MISMATCH)`. -/
def reparseTagMismatch : HRESULT := Int32.ofNat 0x8007112A

/-- The port of the server unless another one is preferred. -/
def defaultPort : UInt16 := 9867

/-- SRCLINE: VirtualDrive.cpp:123-125 -/
def makeDosTarget (path : Wide) : Wide := wideText "\\??\\" ++ path

/-- SRCLINE: VirtualDrive.cpp:127-129 -/
def webDavRemoteName (port : UInt16) : Wide :=
  wideText "\\\\127.0.0.1@" ++ (Decimal.numeral port.toNat).map UInt8.toUInt16 ++
    wideText "\\DavWWWRoot\\"

/-- What a call of `mount` comes to: the code that it returns, unless something was thrown, the
provider, and the calls of the system. -/
structure Mounted where
  code : Option ℕ
  provider : DriveProvider
  calls : List SystemCall

namespace DriveProvider

/-- A provider that was constructed. -/
def create : DriveProvider :=
  { session := none, namespaceHandle := none, webDav := .create, webDavMapped := false
    mappedDriveLetter := 0 }

/-- SRCLINE: VirtualDrive.cpp:329-347 -/
def mapDriveLetter (answers : WindowsAnswers) (provider : DriveProvider) (letter : UInt16)
    (root : Wide) : Mounted :=
  if answers.defineDosDevice then
    { code := some 0, provider, calls := [.defineDosDevice letter (makeDosTarget root)] }
  else
    { code := some 1, provider := { provider with namespaceHandle := none }
      calls := provider.namespaceHandle.toList.map .stopVirtualizing }

/-- The files are materialized by one thread.  `none` is an exception, when there is no thread.
SRCLINE: VirtualDrive.cpp:393-440 -/
def materializeFallbackTree (answers : WindowsAnswers) (files : ℕ) :
    Option Bool × List SystemCall :=
  if files = 0 then (some true, [])
  else if ¬ answers.workerStarts then (none, [])
  else (some ((List.range files).all answers.materializes), [.startThread, .joinThread])

/-- SRCLINE: VirtualDrive.cpp:442-453 -/
def startWebDavFallback (answers : WindowsAnswers) (provider : DriveProvider) :
    Started × DriveProvider × List SystemCall :=
  if provider.webDav.running ∨ provider.session = none then (.no, provider, [])
  else
    let (started, webDav, calls) :=
      provider.webDav.start answers.ports provider.session defaultPort
    (started, { provider with webDav }, calls)

/-- SRCLINE: VirtualDrive.cpp:455-479 -/
def tryMountWebDavDrive (answers : WindowsAnswers) (provider : DriveProvider) (letter : UInt16) :
    Bool × DriveProvider × List SystemCall :=
  let remoteName := webDavRemoteName provider.webDav.port
  if ¬ provider.webDav.running then (false, provider, [])
  else if answers.addConnection remoteName then
    (true, { provider with webDavMapped := true, mappedDriveLetter := letter },
      [.addConnection letter remoteName])
  else (false, provider, [])

/-- The letter is connected to the server, or else mapped to a directory of placeholders. -/
def connectOrMaterialize (answers : WindowsAnswers) (provider : DriveProvider) (letter : UInt16)
    (root : Wide) (files : ℕ) : Mounted :=
  match provider.tryMountWebDavDrive answers letter with
  | (true, provider, calls) => { code := some 0, provider, calls }
  | (false, provider, _) =>
      match materializeFallbackTree answers files with
      | (none, worker) => { code := none, provider, calls := worker }
      | (some false, worker) => { code := some 1, provider, calls := worker }
      | (some true, worker) =>
          let mapped := provider.mapDriveLetter answers letter root
          { mapped with calls := worker ++ mapped.calls }

/-- What `mount` does when Windows does not take the projected file system. -/
def mountFallback (answers : WindowsAnswers) (provider : DriveProvider) (letter : UInt16)
    (root : Wide) (files : ℕ) : Mounted :=
  match provider.startWebDavFallback answers with
  | (.thrown, provider, calls) => { code := none, provider, calls }
  | (_, provider, calls) =>
      let mounted := provider.connectOrMaterialize answers letter root files
      { mounted with calls := calls ++ mounted.calls }

/-- SRCLINE: VirtualDrive.cpp:257-310 -/
def mount (answers : WindowsAnswers) (provider : DriveProvider) (session : Index)
    (letter : UInt16) (root : Wide) (files : ℕ) : Mounted :=
  let provider := { provider with session := some session }
  if ¬ answers.createGuid then { code := some 1, provider, calls := [] }
  else if failed answers.markDirectory ∧ answers.markDirectory ≠ reparseTagMismatch then
    provider.mountFallback answers letter root files
  else if failed answers.startVirtualizing then
    { provider with namespaceHandle := none }.mountFallback answers letter root files
  else
    let started := { provider with namespaceHandle := some answers.virtualization }
    let mapped := started.mapDriveLetter answers letter root
    { mapped with calls := .startVirtualizing answers.virtualization :: mapped.calls }

/-- The result of the call that cancels the connection is not looked at.
SRCLINE: VirtualDrive.cpp:312-321 -/
def destroy (answers : WindowsAnswers) (provider : DriveProvider) : List SystemCall :=
  (if provider.webDavMapped ∧ answers.cancelConnection then
      [.cancelConnection provider.mappedDriveLetter] else []) ++
    provider.webDav.stop.2 ++ provider.namespaceHandle.toList.map .stopVirtualizing

end DriveProvider

end Vtfs.Model
