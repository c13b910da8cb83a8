import Vtfs.Model.TorrentEngine

/-!
# Vectors sent piece by piece

A call of `send` takes as much of a vector as it likes, so the code calls it until nothing is left
or a result is not positive.  Here the results of `send` are given one by one, and with the result
of a function comes what went out, also when a vector was not sent whole.
-/

set_option autoImplicit false

namespace Vtfs.Model

open Vtfs.Library

/-- The loop that sends a vector, with the results of the calls of `send` to come: whether all of
it was sent, what went out, and the results that are left.  Without a result the call fails.
SRCLINE: PeerConnection.cpp:62-74, WebDavServer.cpp:135-150, WebSeedClient.cpp:122-136 -/
def sendAll : Bytes → List ℤ → Bool × Bytes × List ℤ
  | [], results => (true, [], results)
  | _ :: _, [] => (false, [], [])
  | c :: cs, result :: results =>
      if result ≤ 0 then (false, [], results)
      else
        let (sent, out, left) := sendAll ((c :: cs).drop result.toNat) results
        (sent, (c :: cs).take result.toNat ++ out, left)

namespace PeerConnection

/-- A frame is sent: the result, what went out, and the results of `send` that are left. -/
def sendOnWire (connection : PeerConnection) (results : List ℤ) (frame : Bytes) :
    Bool × Bytes × List ℤ :=
  if connection.socket < 0 then (false, [], results) else sendAll frame results

end PeerConnection

namespace TorrentEngine

/-- The end of `pumpOnce`, with the calls of `send` in it: the engine after it, and what went out.
SRCLINE: TorrentEngine.cpp:88-98, PeerConnection.cpp:114-135 -/
def serveFrontOnWire (engine : TorrentEngine) (results : List ℤ) :
    Except EngineFault (TorrentEngine × Bytes) :=
  match engine.peerConnection, engine.requests with
  | some connection, request :: rest => do
      let block ← blockFor engine.metadata request
      let (isInterested, out, left) :=
        connection.sendOnWire results (messageFrame ⟨interested, []⟩)
      let asked :=
        if isInterested then
          (connection.sendOnWire left (PeerConnection.requestFrame block.pieceIndex
            block.pieceOffset block.length)).2.1
        else []
      pure ({ engine with requests := rest }, out ++ asked)
  | _, _ => pure (engine, [])

/-- SRCLINE: TorrentEngine.cpp:62-99 -/
def pumpOnceOnWire (engine : TorrentEngine) (announced : Option (List TrackerPeer))
    (connectSocket : TrackerPeer → Int32) (results : List ℤ) :
    Except EngineFault (TorrentEngine × Bytes) :=
  if ¬ engine.running then .ok (engine, [])
  else
    let peers := engine.findPeers announced
    match engine.peerConnection, peers with
    | none, peer :: _ =>
        if connectSocket peer < 0 then .ok ({ engine with peers }, [])
        else serveFrontOnWire { engine with peers, peerConnection := some ⟨connectSocket peer⟩ }
          results
    | _, _ => serveFrontOnWire { engine with peers } results

end TorrentEngine

end Vtfs.Model
