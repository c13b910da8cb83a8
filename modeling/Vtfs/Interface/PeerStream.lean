import Vtfs.Interface.StreamRequests
import Vtfs.Model.SocketWrites

/-!
# What the peer reads

The peer sees the bytes that went out, one call of `pumpOnce` after the other.  An `Exchange` is
what became of one request: the messages that were sent for it whole, and what went out of the one
after these.  `readMessages` is a reader that takes whole frames from the front of a stream.
-/

set_option autoImplicit false

namespace Vtfs.Interface

open Vtfs.Library
open Vtfs.Library.BigEndian (bytesOfWord fromBigEndian)
open Vtfs.Model

/-! ## Runs on the wire -/

/-- A call of a function of the engine.  With `pumpOnce` comes what the tracker answers, the socket
for a peer, and the results of `send`. -/
inductive WireCall where
  | start
  | stop
  | requestFileData (request : StreamRequest)
  | pumpOnce (announced : Option (List TrackerPeer)) (connectSocket : TrackerPeer → Int32)
      (results : List ℤ)

/-- The engine after a call, and what went out in it. -/
def wireCall (engine : TorrentEngine) : WireCall → Except EngineFault (TorrentEngine × Bytes)
  | .start => .ok (engine.start, [])
  | .stop => .ok (engine.stop, [])
  | .requestFileData request => .ok (engine.requestFileData request, [])
  | .pumpOnce announced connectSocket results =>
      engine.pumpOnceOnWire announced connectSocket results

/-- The engine after a call that does not fault. -/
def nextOnWire (engine : TorrentEngine) (call : WireCall) : Option TorrentEngine :=
  (wireCall engine call).toOption.map (·.1)

/-- The requests that were ever put into the queue, and all that went out. -/
structure WireHistory where
  accepted : List StreamRequest
  stream : Bytes

/-- The history after a call. -/
def recordOnWire (engine : TorrentEngine) (call : WireCall) (history : WireHistory) :
    WireHistory where
  accepted :=
    match call with
    | .requestFileData request =>
        if engine.running then history.accepted ++ [request] else history.accepted
    | _ => history.accepted
  stream := history.stream ++ ((wireCall engine call).toOption.map (·.2)).getD []

/-! ## Exchanges -/

/-- The two messages for a block. -/
def messagesFor (block : TorrentEngine.Block) : List PeerMessage :=
  [⟨interested, []⟩, ⟨request, bytesOfWord block.pieceIndex ++ bytesOfWord block.pieceOffset ++
    bytesOfWord block.length⟩]

/-- What became of a request that was taken out of the queue: the messages sent whole, and what
went out of the next one. -/
structure Exchange where
  request : StreamRequest
  messages : List PeerMessage
  cut : Bytes

/-- What went out. -/
def Exchange.out (e : Exchange) : Bytes := e.messages.flatMap messageFrame ++ e.cut

/-- All messages for the block of the request were sent whole; or the first of them were, and of
the next one's frame less than all went out. -/
inductive Exchange.Valid (metadata : TorrentMetadata) (e : Exchange) : Prop
  | whole (block : TorrentEngine.Block) :
      TorrentEngine.blockFor metadata e.request = .ok block → e.messages = messagesFor block →
      e.cut = [] → Valid metadata e
  | broken (block : TorrentEngine.Block) (next : PeerMessage) (more : List PeerMessage)
      (rest : Bytes) :
      TorrentEngine.blockFor metadata e.request = .ok block →
      messagesFor block = e.messages ++ next :: more → messageFrame next = e.cut ++ rest →
      rest ≠ [] → Valid metadata e

/-! ## A reader -/

/-- The messages of the whole frames at the front of a stream, with one round for each. -/
def readMessages : ℕ → Bytes → List PeerMessage
  | 0, _ => []
  | rounds + 1, stream =>
      match decodeMessage stream with
      | .ok (some message) =>
          message :: readMessages rounds (stream.drop (4 + fromBigEndian (stream.take 4)))
      | _ => []

/-- What the peer reads of all that went out. -/
def messagesRead (stream : Bytes) : List PeerMessage := readMessages stream.length stream

/-! ## The two levels -/

/-- What the network does, told vector by vector: each of the two vectors of a call is sent whole
or not, by what the results of `send` make of it. -/
def networkOf (connectSocket : TrackerPeer → Int32) (results : List ℤ) : PeerNetwork where
  connectSocket := connectSocket
  sendAll frame :=
    if frame = messageFrame ⟨interested, []⟩ then (sendAll frame results).1
    else (sendAll frame (sendAll (messageFrame ⟨interested, []⟩) results).2.2).1

/-- The call, with the network told vector by vector. -/
def frameCall : WireCall → EngineCall
  | .start => .start
  | .stop => .stop
  | .requestFileData request => .requestFileData request
  | .pumpOnce announced connectSocket results =>
      .pumpOnce announced (networkOf connectSocket results)

/-- A run in which the exchanges took place, beside one that tells only frames sent whole. -/
structure Streaming (metadata : TorrentMetadata) (state : TorrentEngine × WireHistory)
    (exchanges : List Exchange) (history : EngineHistory) : Prop where
  metadata_eq : state.1.metadata = metadata
  valid : ∀ e ∈ exchanges, e.Valid metadata
  order : (exchanges.map (·.request) ++ state.1.requests).Sublist state.2.accepted
  stream_eq : state.2.stream = exchanges.flatMap Exchange.out
  frames : Reachable (recorded nextEngine recordCall) anyAction
    (TorrentEngine.create metadata, ⟨[], []⟩) (state.1, history)
  written_eq : history.written = (exchanges.flatMap (·.messages)).map messageFrame

end Vtfs.Interface
