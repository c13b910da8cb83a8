import Vtfs.Library.Runs
import Vtfs.Model.TorrentEngine

/-!
# What becomes of a request

A run of the engine is a list of calls.  Its history has the requests that were put into the queue
since the last `stop`, and the frames that were written to the connection.  No request is lost when
each one is in the queue still, or was taken out of it after blocks that cover its range had been
asked for (`NoneLost`).
-/

set_option autoImplicit false

namespace Vtfs.Interface

open Vtfs.Library
open Vtfs.Library.BigEndian (wordOfBytes)
open Vtfs.Model

/-! ## Runs of the engine -/

/-- A call of a function of the engine.  With `pumpOnce` comes what the tracker and the network
answer to it. -/
inductive EngineCall where
  | start
  | stop
  | requestFileData (request : StreamRequest)
  | pumpOnce (announced : Option (List TrackerPeer)) (network : PeerNetwork)

/-- The engine after a call, and the frames that it wrote whole. -/
def engineCall (engine : TorrentEngine) :
    EngineCall → Except EngineFault (TorrentEngine × List Bytes)
  | .start => .ok (engine.start, [])
  | .stop => .ok (engine.stop, [])
  | .requestFileData request => .ok (engine.requestFileData request, [])
  | .pumpOnce announced network => engine.pumpOnce announced network

/-- The engine after a call that does not fault. -/
def nextEngine (engine : TorrentEngine) (call : EngineCall) : Option TorrentEngine :=
  (engineCall engine call).toOption.map (·.1)

/-- The requests that were put into the queue since the last `stop`, and the frames written. -/
structure EngineHistory where
  accepted : List StreamRequest
  written : List Bytes

/-- The history after a call. -/
def recordCall (engine : TorrentEngine) (call : EngineCall) (history : EngineHistory) :
    EngineHistory where
  accepted :=
    match call with
    | .stop => []
    | .requestFileData request =>
        if engine.running then history.accepted ++ [request] else history.accepted
    | _ => history.accepted
  written := history.written ++ ((engineCall engine call).toOption.map (·.2)).getD []

/-! ## The bytes that are asked for -/

/-- The block that a frame asks for. -/
def requestedBlock (frame : Bytes) : Option TorrentEngine.Block :=
  match decodeMessage frame with
  | .ok (some ⟨type, [a, b, c, d, e, f, g, h, i, j, k, l]⟩) =>
      if type = request then
        some ⟨wordOfBytes a b c d, wordOfBytes e f g h, wordOfBytes i j k l⟩
      else none
  | _ => none

/-- The position, among the bytes of all files, is in the block.  A block lies in one piece. -/
def InBlock (pieceLength : ℕ) (block : TorrentEngine.Block) (position : ℕ) : Prop :=
  ∃ j < pieceLength, position = block.pieceIndex.toNat * pieceLength + j ∧
    block.pieceOffset.toNat ≤ j ∧ j < block.pieceOffset.toNat + block.length.toNat

/-- A block with the position was asked for. -/
def AskedFor (metadata : TorrentMetadata) (written : List Bytes) (position : ℕ) : Prop :=
  ∃ frame ∈ written, ∃ block, requestedBlock frame = some block ∧
    InBlock metadata.pieceLength.toNat block position

/-- The file of a request. -/
def fileOf (metadata : TorrentMetadata) (request : StreamRequest) : Option TorrentFileRecord :=
  metadata.files[request.fileIndex.toInt64.toUInt64.toNat]?

/-- The position of the first byte of a request. -/
def firstPosition (file : TorrentFileRecord) (request : StreamRequest) : ℕ :=
  file.offset.toNat + request.offset.toNat

/-- The position is in the range of the request. -/
def InRange (file : TorrentFileRecord) (request : StreamRequest) (position : ℕ) : Prop :=
  firstPosition file request ≤ position ∧
    position < firstPosition file request + request.length.toNat

/-- The whole range of the request was asked for. -/
def Covered (metadata : TorrentMetadata) (written : List Bytes) (request : StreamRequest) : Prop :=
  ∃ file, fileOf metadata request = some file ∧
    ∀ position, InRange file request position → AskedFor metadata written position

/-- The requests put into the queue since the last `stop` are those taken out of it, each of them
covered, and those in the queue. -/
def NoneLost (state : TorrentEngine × EngineHistory) : Prop :=
  ∃ removed, state.2.accepted = removed ++ state.1.requests ∧
    ∀ request ∈ removed, Covered state.1.metadata state.2.written request

/-! ## Requests that are served -/

/-- The connection that `pumpOnce` goes on with. -/
def connectionInUse (engine : TorrentEngine) (announced : Option (List TrackerPeer))
    (network : PeerNetwork) : Option PeerConnection :=
  match engine.peerConnection, engine.findPeers announced with
  | none, peer :: _ =>
      let (connection, connected) := PeerConnection.connectTo network peer
      if connected then some connection else none
  | connection, _ => connection

/-- The piece and the place in it of a position are what 32-bit arithmetic has for them. -/
structure AddressFits (pieceLength first : ℕ) : Prop where
  position : first < 2 ^ 64
  piece : first / pieceLength < 2 ^ 32
  length : pieceLength < 2 ^ 32 ∨ first < pieceLength % 2 ^ 32

/-- The position is one of the first 16384 of the request and in the same piece as its first. -/
structure InFirstBlock (pieceLength first position : ℕ) : Prop where
  near : position < first + maxBlockLength.toNat
  samePiece : position / pieceLength = first / pieceLength

/-- When a request is taken out of the queue, each position of its range was asked for before, or
is in the block that is asked for now, whose frame is sent, after the one that says interest. -/
def ServesFront (state : TorrentEngine × EngineHistory) : EngineCall → Prop
  | .pumpOnce announced network =>
      state.1.running = true → ∀ connection,
        connectionInUse state.1 announced network = some connection →
      ∀ front rest, state.1.requests = front :: rest →
      ∀ file, fileOf state.1.metadata front = some file →
      ∀ position, InRange file front position →
        AskedFor state.1.metadata state.2.written position ∨
          network.sendAll (messageFrame ⟨interested, []⟩) = true ∧
          (∀ block, TorrentEngine.blockFor state.1.metadata front = .ok block →
            network.sendAll (PeerConnection.requestFrame block.pieceIndex block.pieceOffset
              block.length) = true) ∧
          AddressFits state.1.metadata.pieceLength.toNat (firstPosition file front) ∧
          InFirstBlock state.1.metadata.pieceLength.toNat (firstPosition file front) position
  | _ => True

end Vtfs.Interface
