import Vtfs.Model.PeerConnection
import Vtfs.Model.TorrentMetadata

/-!
# The engine

Requests are queued while the engine runs, and `pumpOnce` takes them one at a time to the one peer
it is connected to.  Where the code has no defined behaviour, at an index outside the files and at
a division by zero, the model has a fault.
-/

set_option autoImplicit false

namespace Vtfs.Model

open Vtfs.Library

/-- `StreamRequest`. -/
structure StreamRequest where
  fileIndex : Int32
  offset : UInt64
  length : UInt32
  deriving DecidableEq

/-- The fields of the engine that `pumpOnce` reads. -/
structure TorrentEngine where
  metadata : TorrentMetadata
  running : Bool
  requests : List StreamRequest
  peers : List TrackerPeer
  peerConnection : Option PeerConnection

/-- What is not defined. -/
inductive EngineFault where
  | fileIndex (index : ℕ)
  | divisionByZero
  deriving DecidableEq

/-- `DhtClient::defaultBootstrapNodes`.
SRCLINE: DhtClient.cpp:90-96 -/
def defaultBootstrapNodes : List TrackerPeer :=
  [⟨bytes "router.bittorrent.com", 6881⟩, ⟨bytes "dht.transmissionbt.com", 6881⟩,
    ⟨bytes "router.utorrent.com", 6881⟩]

/-- The most bytes that are requested at once. -/
def maxBlockLength : UInt32 := 16 * 1024

namespace TorrentEngine

/-- The constructor.
SRCLINE: TorrentEngine.cpp:12-14 -/
def create (metadata : TorrentMetadata) : TorrentEngine where
  metadata := metadata
  running := false
  requests := []
  peers := []
  peerConnection := none

/-- SRCLINE: TorrentEngine.cpp:16-28 -/
def start (engine : TorrentEngine) : TorrentEngine := { engine with running := true }

/-- SRCLINE: TorrentEngine.cpp:30-35 -/
def stop (engine : TorrentEngine) : TorrentEngine :=
  { engine with running := false, requests := [] }

/-- SRCLINE: TorrentEngine.cpp:37-43 -/
def requestFileData (engine : TorrentEngine) (request : StreamRequest) : TorrentEngine :=
  if ¬ engine.running then engine
  else { engine with requests := engine.requests ++ [request] }

/-- The peers that `pumpOnce` goes on with; `announced` is what the tracker answers. -/
def findPeers (engine : TorrentEngine) (announced : Option (List TrackerPeer)) :
    List TrackerPeer :=
  let peers := if engine.peers = [] then defaultBootstrapNodes else engine.peers
  if peers = [] ∧ engine.metadata.announceUrl ≠ [] then announced.getD peers else peers

/-- A block as it is asked for: the piece, the place in it, and the length. -/
structure Block where
  pieceIndex : UInt32
  pieceOffset : UInt32
  length : UInt32
  deriving DecidableEq

/-- The block for a request. -/
def blockFor (metadata : TorrentMetadata) (request : StreamRequest) : Except EngineFault Block :=
  let pieceLength := metadata.pieceLength.toUInt32
  let index := request.fileIndex.toInt64.toUInt64.toNat
  match metadata.files[index]? with
  | none => .error (.fileIndex index)
  | some file =>
      let globalOffset := file.offset + request.offset
      if pieceLength = 0 then .error .divisionByZero
      else .ok
        { pieceIndex := (globalOffset / pieceLength.toUInt64).toUInt32
          pieceOffset := (globalOffset % pieceLength.toUInt64).toUInt32
          length := min request.length maxBlockLength }

/-- The end of `pumpOnce`, with the connection there is: the request in front is asked for, and
taken out of the queue.  The engine after it, and the frames written whole.
SRCLINE: TorrentEngine.cpp:88-98 -/
def serveFront (engine : TorrentEngine) (network : PeerNetwork) :
    Except EngineFault (TorrentEngine × List Bytes) :=
  match engine.peerConnection, engine.requests with
  | some connection, request :: rest => do
      let block ← blockFor engine.metadata request
      let (isInterested, written) := connection.sendInterested network
      let asked :=
        if isInterested then
          (connection.requestBlock network block.pieceIndex block.pieceOffset block.length).2
        else []
      pure ({ engine with requests := rest }, written ++ asked)
  | _, _ => pure (engine, [])

/-- SRCLINE: TorrentEngine.cpp:62-99 -/
def pumpOnce (engine : TorrentEngine) (announced : Option (List TrackerPeer))
    (network : PeerNetwork) : Except EngineFault (TorrentEngine × List Bytes) :=
  if ¬ engine.running then .ok (engine, [])
  else
    let peers := engine.findPeers announced
    match engine.peerConnection, peers with
    | none, peer :: _ =>
        let (connection, connected) := PeerConnection.connectTo network peer
        if ¬ connected then .ok ({ engine with peers }, [])
        else serveFront { engine with peers, peerConnection := some connection } network
    | _, _ => serveFront { engine with peers } network

/-- Whether the data is what the torrent has at this index.
SRCLINE: TorrentEngine.cpp:101-109 -/
def verifyPiece (engine : TorrentEngine) (pieceIndex : ℕ) (pieceData : Bytes) : Bool :=
  match engine.metadata.pieceHashes[pieceIndex]? with
  | none => false
  | some hash => (Sha1.initial.update pieceData).final.1 = hash

end TorrentEngine

end Vtfs.Model
