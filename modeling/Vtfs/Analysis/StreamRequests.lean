import Vtfs.Interface.StreamRequests
import Vtfs.Analysis.MetadataLoading
import Mathlib.Tactic.Linarith

/-!
# Requests taken out of the queue

`pumpOnce` takes a request out of the queue whatever becomes of it, so whether the range of a
request was asked for is decided in the call that takes it out.  `noneLost` is about runs in which
each such call serves its request.
-/

set_option autoImplicit false

namespace Vtfs.Analysis

open Vtfs.Library
open Vtfs.Library.BigEndian (bytesOfWord wordOfBytes wordOfBytes_byteOfWord32)
open Vtfs.Model
open Vtfs.Interface

/-! ## Frames -/

/-- A frame with a payload of twelve bytes has 13 as its length. -/
theorem requestFrame_eq (pieceIndex blockOffset blockLength : UInt32) :
    PeerConnection.requestFrame pieceIndex blockOffset blockLength =
      [0, 0, 0, 13, request] ++
        (bytesOfWord pieceIndex ++ bytesOfWord blockOffset ++ bytesOfWord blockLength) := by
  have hlength : bytesOfWord (1 + 12 : ℕ).toUInt32 = [0, 0, 0, 13] := by decide
  have htype : request ≠ keepAlive := by decide
  unfold PeerConnection.requestFrame messageFrame
  rw [if_neg htype]
  simp only [List.length_append, BigEndian.length_bytesOfWord, hlength]
  rfl

/-- The frame that asks for a block asks for this block. -/
theorem requestedBlock_requestFrame (pieceIndex blockOffset blockLength : UInt32) :
    requestedBlock (PeerConnection.requestFrame pieceIndex blockOffset blockLength) =
      some ⟨pieceIndex, blockOffset, blockLength⟩ := by
  have hdecode : decodeMessage (PeerConnection.requestFrame pieceIndex blockOffset blockLength) =
      .ok (some ⟨request,
        bytesOfWord pieceIndex ++ bytesOfWord blockOffset ++ bytesOfWord blockLength⟩) := by
    rw [requestFrame_eq]
    rfl
  rw [requestedBlock, hdecode]
  simp [bytesOfWord, wordOfBytes_byteOfWord32]

/-! ## One call of `pumpOnce` -/

section Pump

variable {engine t : TorrentEngine} {announced : Option (List TrackerPeer)}
  {network : PeerNetwork} {frames : List Bytes}

/-- The frames written for a block. -/
def framesFor (connection : PeerConnection) (network : PeerNetwork) (block : TorrentEngine.Block) :
    List Bytes :=
  (connection.sendInterested network).2 ++
    if (connection.sendInterested network).1 then
      (connection.requestBlock network block.pieceIndex block.pieceOffset block.length).2
    else []

/-- Serving the front of the queue sends its block, or leaves the queue as it is. -/
theorem serveFront_cases (h : engine.serveFront network = .ok (t, frames)) :
    t.metadata = engine.metadata ∧ t.peerConnection = engine.peerConnection ∧
      (t.requests = engine.requests ∧ frames = [] ∨
        ∃ connection front block, engine.peerConnection = some connection ∧
          engine.requests = front :: t.requests ∧
            TorrentEngine.blockFor engine.metadata front = .ok block ∧
              frames = framesFor connection network block) := by
  unfold TorrentEngine.serveFront at h
  cases hconnection : engine.peerConnection with
  | none =>
      simp only [hconnection] at h
      obtain ⟨rfl, rfl⟩ := Prod.mk.inj (Except.ok.inj h)
      exact ⟨rfl, hconnection, Or.inl ⟨rfl, rfl⟩⟩
  | some connection =>
      cases hrequests : engine.requests with
      | nil =>
          simp only [hconnection, hrequests] at h
          obtain ⟨rfl, rfl⟩ := Prod.mk.inj (Except.ok.inj h)
          exact ⟨rfl, hconnection, Or.inl ⟨hrequests, rfl⟩⟩
      | cons front rest =>
          simp only [hconnection, hrequests] at h
          obtain ⟨block, hblock, hresult⟩ := except_bind_eq_ok_iff.mp h
          obtain ⟨rfl, rfl⟩ := Prod.mk.inj (Except.ok.inj hresult)
          exact ⟨rfl, rfl, Or.inr ⟨connection, front, block, rfl, rfl, hblock, rfl⟩⟩

/-- A connection in use was there before, or has just been made. -/
theorem socket_of_connectionInUse {connection : PeerConnection}
    (h : connectionInUse engine announced network = some connection) :
    engine.peerConnection = some connection ∨ 0 ≤ connection.socket := by
  unfold connectionInUse at h
  cases hconnection : engine.peerConnection with
  | some other =>
      rw [hconnection] at h
      exact Or.inl h
  | none =>
      right
      cases hpeers : engine.findPeers announced with
      | nil => simp [hconnection, hpeers] at h
      | cons peer others =>
          simp only [hconnection, hpeers, PeerConnection.connectTo, Option.ite_none_right_eq_some,
            decide_eq_true_eq] at h
          obtain ⟨hconnected, hsome⟩ := h
          obtain rfl := Option.some.inj hsome
          exact hconnected

/-- A call while the engine runs. -/
theorem pumpOnce_of_running (h : engine.running = true) :
    engine.pumpOnce announced network =
      TorrentEngine.serveFront
        { engine with
          peers := engine.findPeers announced
          peerConnection := connectionInUse engine announced network } network := by
  unfold TorrentEngine.pumpOnce connectionInUse
  rw [if_neg (by simpa using h)]
  cases hconnection : engine.peerConnection with
  | some connection => rfl
  | none =>
      cases hpeers : engine.findPeers announced with
      | nil => rfl
      | cons peer others =>
          simp only
          by_cases hconnected : (PeerConnection.connectTo network peer).2 = true
          · rw [if_neg (not_not.mpr hconnected), if_pos hconnected]
          · rw [if_pos hconnected, if_neg hconnected]
            rfl

/-- When both frames are sent, the frame for the block is among what is written. -/
theorem requestFrame_mem_framesFor {connection : PeerConnection} {block : TorrentEngine.Block}
    (hsocket : 0 ≤ connection.socket)
    (hinterested : network.sendAll (messageFrame ⟨interested, []⟩) = true)
    (hasked : network.sendAll (PeerConnection.requestFrame block.pieceIndex block.pieceOffset
      block.length) = true) :
    PeerConnection.requestFrame block.pieceIndex block.pieceOffset block.length ∈
      framesFor connection network block := by
  have hopen : ¬ connection.socket < 0 := Int32.not_lt.mpr hsocket
  simp [framesFor, PeerConnection.sendInterested, PeerConnection.requestBlock, PeerConnection.send,
    hopen, hinterested, hasked]

end Pump

/-! ## The block for a request -/

/-- The quotient and the rest of an address that fits are those for the length of 32 bits. -/
theorem address_of_fits {pieceLength first : ℕ} (hpos : 0 < pieceLength)
    (hfits : AddressFits pieceLength first) :
    first / (pieceLength % 2 ^ 32) % 2 ^ 32 = first / pieceLength ∧
      first % (pieceLength % 2 ^ 32) % 2 ^ 32 = first % pieceLength := by
  rcases hfits.length with hsmall | hbefore
  · rw [Nat.mod_eq_of_lt hsmall, Nat.mod_eq_of_lt hfits.piece]
    exact ⟨rfl, Nat.mod_eq_of_lt ((Nat.mod_lt _ hpos).trans hsmall)⟩
  · -- everything is in the first piece
    have hle : pieceLength % 2 ^ 32 ≤ pieceLength := Nat.mod_le _ _
    have hlt : first < 2 ^ 32 := hbefore.trans (Nat.mod_lt _ (by decide))
    rw [Nat.div_eq_of_lt hbefore, Nat.div_eq_of_lt (hbefore.trans_le hle),
      Nat.mod_eq_of_lt hbefore, Nat.mod_eq_of_lt (hbefore.trans_le hle), Nat.mod_eq_of_lt hlt]
    exact ⟨rfl, rfl⟩

/-- A block is made of the file and the lengths of the torrent. -/
theorem blockFor_eq_ok {metadata : TorrentMetadata} {request : StreamRequest}
    {block : TorrentEngine.Block} (h : TorrentEngine.blockFor metadata request = .ok block) :
    ∃ file, fileOf metadata request = some file ∧ metadata.pieceLength.toUInt32 ≠ 0 ∧ block =
      { pieceIndex :=
          ((file.offset + request.offset) / metadata.pieceLength.toUInt32.toUInt64).toUInt32
        pieceOffset :=
          ((file.offset + request.offset) % metadata.pieceLength.toUInt32.toUInt64).toUInt32
        length := min request.length maxBlockLength } := by
  unfold TorrentEngine.blockFor at h
  simp only at h
  cases hfile : fileOf metadata request with
  | none =>
      rw [fileOf] at hfile
      simp [hfile] at h
  | some file =>
      rw [fileOf] at hfile
      simp only [hfile] at h
      by_cases hzero : metadata.pieceLength.toUInt32 = 0
      · simp [hzero] at h
      · rw [if_neg hzero] at h
        exact ⟨file, rfl, hzero, (Except.ok.inj h).symm⟩

/-- A block whose address fits has the positions of the range that are near the first one and in
the same piece. -/
theorem inBlock_blockFor {metadata : TorrentMetadata} {request : StreamRequest}
    {block : TorrentEngine.Block} {file : TorrentFileRecord} {position : ℕ}
    (hblock : TorrentEngine.blockFor metadata request = .ok block)
    (hfile : fileOf metadata request = some file) (hrange : InRange file request position)
    (hfits : AddressFits metadata.pieceLength.toNat (firstPosition file request))
    (hfirst : InFirstBlock metadata.pieceLength.toNat (firstPosition file request) position) :
    InBlock metadata.pieceLength.toNat block position := by
  obtain ⟨other, hother, hnonzero, rfl⟩ := blockFor_eq_ok hblock
  obtain rfl := Option.some.inj (hfile.symm.trans hother)
  set first := firstPosition file request with hfirstDef
  set pieceLength := metadata.pieceLength.toNat with hpieceLength
  have hglobal : (file.offset + request.offset).toNat = first := by
    rw [UInt64.toNat_add]
    exact Nat.mod_eq_of_lt hfits.position
  have hdivisor : metadata.pieceLength.toUInt32.toUInt64.toNat = pieceLength % 2 ^ 32 := by
    simp [hpieceLength]
  have hpos : 0 < pieceLength := by
    apply Nat.pos_of_ne_zero
    intro hzero
    have hlength : metadata.pieceLength = 0 := UInt64.toNat_inj.mp hzero
    exact hnonzero (by rw [hlength]; rfl)
  have haddress := address_of_fits hpos hfits
  have hsplit := Nat.div_add_mod' position pieceLength
  have hsplitFirst := Nat.div_add_mod' first pieceLength
  have hlength : (min request.length maxBlockLength).toNat =
      min request.length.toNat maxBlockLength.toNat := toNat_min_uInt32 _ _
  refine ⟨position % pieceLength, Nat.mod_lt _ hpos, ?_, ?_, ?_⟩
  · simp only [UInt64.toNat_toUInt32, UInt64.toNat_div, hglobal, hdivisor, haddress.1]
    rw [← hfirst.samePiece, hsplit]
  · simp only [UInt64.toNat_toUInt32, UInt64.toNat_mod, hglobal, hdivisor, haddress.2]
    have hle := hrange.1
    rw [hfirst.samePiece] at hsplit
    omega
  · simp only [UInt64.toNat_toUInt32, UInt64.toNat_mod, hglobal, hdivisor, haddress.2, hlength]
    have hlt := hrange.2
    have hnear := hfirst.near
    rw [hfirst.samePiece] at hsplit
    omega

/-! ## Runs -/

/-- What was asked for stays asked for. -/
theorem askedFor_append {metadata : TorrentMetadata} {written : List Bytes} {position : ℕ}
    (h : AskedFor metadata written position) (more : List Bytes) :
    AskedFor metadata (written ++ more) position := by
  obtain ⟨frame, hframe, hblock⟩ := h
  exact ⟨frame, List.mem_append_left more hframe, hblock⟩

/-- What was covered stays covered. -/
theorem covered_append {metadata : TorrentMetadata} {written : List Bytes}
    {request : StreamRequest} (h : Covered metadata written request) (more : List Bytes) :
    Covered metadata (written ++ more) request := by
  obtain ⟨file, hfile, hcovered⟩ := h
  exact ⟨file, hfile, fun position hposition => askedFor_append (hcovered position hposition) more⟩

/-- No request is lost, and a connection that is kept has a socket. -/
structure Serving (state : TorrentEngine × EngineHistory) : Prop where
  kept : NoneLost state
  socket : ∀ connection, state.1.peerConnection = some connection → 0 ≤ connection.socket

/-- A request that is taken out in a call that serves it is covered after the call. -/
theorem covered_of_serves {engine : TorrentEngine} {history : EngineHistory}
    {announced : Option (List TrackerPeer)} {network : PeerNetwork} {connection : PeerConnection}
    {front : StreamRequest} {rest : List StreamRequest} {block : TorrentEngine.Block}
    (hserves : ServesFront (engine, history) (.pumpOnce announced network))
    (hrunning : engine.running = true)
    (hconnection : connectionInUse engine announced network = some connection)
    (hsocket : 0 ≤ connection.socket) (hrequests : engine.requests = front :: rest)
    (hblock : TorrentEngine.blockFor engine.metadata front = .ok block) :
    Covered engine.metadata (history.written ++ framesFor connection network block) front := by
  obtain ⟨file, hfile, -, -⟩ := blockFor_eq_ok hblock
  refine ⟨file, hfile, fun position hposition => ?_⟩
  rcases hserves hrunning connection hconnection front rest hrequests file hfile position hposition
    with hbefore | ⟨hinterested, hasked, hfits, hfirst⟩
  · exact askedFor_append hbefore _
  · have hframe := requestFrame_mem_framesFor hsocket hinterested (hasked block hblock)
    exact ⟨_, List.mem_append_right _ hframe, _, requestedBlock_requestFrame _ _ _,
      inBlock_blockFor hblock hfile hposition hfits hfirst⟩

/-- A call that takes nothing out of the queue. -/
theorem serving_of_added {engine after : TorrentEngine} {history later : EngineHistory}
    {frames : List Bytes} {added : List StreamRequest} (h : Serving (engine, history))
    (hmetadata : after.metadata = engine.metadata)
    (hsocket : ∀ connection, after.peerConnection = some connection → 0 ≤ connection.socket)
    (hwritten : later.written = history.written ++ frames)
    (haccepted : later.accepted = history.accepted ++ added)
    (hrequests : after.requests = engine.requests ++ added) : Serving (after, later) := by
  obtain ⟨removed, hsplit, hcovered⟩ := h.kept
  refine ⟨⟨removed, ?_, fun request hrequest => ?_⟩, hsocket⟩
  · rw [haccepted, hrequests, ← List.append_assoc]
    exact congrArg (· ++ added) hsplit
  · rw [hmetadata, hwritten]
    exact covered_append (hcovered request hrequest) frames

/-- A call of `pumpOnce`. -/
theorem serving_pumpOnce {engine after : TorrentEngine} {history later : EngineHistory}
    {announced : Option (List TrackerPeer)} {network : PeerNetwork} {frames : List Bytes}
    (h : Serving (engine, history))
    (hserves : ServesFront (engine, history) (.pumpOnce announced network))
    (hcall : engine.pumpOnce announced network = .ok (after, frames))
    (haccepted : later.accepted = history.accepted)
    (hwritten : later.written = history.written ++ frames) : Serving (after, later) := by
  have hsame : later.accepted = history.accepted ++ [] := by rw [haccepted, List.append_nil]
  by_cases hrunning : engine.running = true
  · rw [pumpOnce_of_running hrunning] at hcall
    obtain ⟨hmetadata, hconnection, hcases⟩ := serveFront_cases hcall
    have hinUse : ∀ connection, connectionInUse engine announced network = some connection →
        0 ≤ connection.socket := by
      intro connection hsome
      rcases socket_of_connectionInUse hsome with hold | hnew
      · exact h.socket connection hold
      · exact hnew
    have hsocket : ∀ connection, after.peerConnection = some connection →
        0 ≤ connection.socket := fun connection hsome =>
      hinUse connection (hconnection.symm.trans hsome)
    rcases hcases with ⟨hrequests, -⟩ | ⟨connection, front, block, hsome, hqueue, hblock, rfl⟩
    · exact serving_of_added h hmetadata hsocket hwritten hsame (by rw [hrequests, List.append_nil])
    · -- the request in front is taken out, and covered
      have hqueue : engine.requests = front :: after.requests := hqueue
      have hfront := covered_of_serves hserves hrunning hsome (hinUse connection hsome) hqueue
        hblock
      obtain ⟨removed, hsplit, hcovered⟩ := h.kept
      simp only at hsplit hcovered
      refine ⟨⟨removed ++ [front], ?_, fun request hrequest => ?_⟩, hsocket⟩
      · rw [haccepted, hsplit, hqueue]
        simp
      · rw [hmetadata, hwritten]
        rcases List.mem_append.mp hrequest with hold | hnew
        · exact covered_append (hcovered request hold) _
        · rw [List.mem_singleton.mp hnew]
          exact hfront
  · rw [TorrentEngine.pumpOnce, if_pos hrunning] at hcall
    obtain ⟨rfl, rfl⟩ := Prod.mk.inj (Except.ok.inj hcall)
    exact serving_of_added h rfl h.socket hwritten hsame (List.append_nil _).symm

/-- The engine and the history after a call. -/
theorem recordedCall_eq_some {s t : TorrentEngine × EngineHistory} {call : EngineCall}
    (h : recorded nextEngine recordCall s call = some t) :
    ∃ frames, engineCall s.1 call = .ok (t.1, frames) ∧
      t.2.accepted = (recordCall s.1 call s.2).accepted ∧ t.2.written = s.2.written ++ frames := by
  obtain ⟨hnext, hhistory⟩ := recorded_eq_some_iff.mp h
  rw [nextEngine] at hnext
  cases hcall : engineCall s.1 call with
  | error fault => simp [hcall, Except.toOption] at hnext
  | ok result =>
      obtain ⟨engine, frames⟩ := result
      simp only [hcall, Except.toOption, Option.map_some, Option.some.injEq] at hnext
      refine ⟨frames, by rw [hnext], by rw [hhistory], ?_⟩
      simp only [hhistory, recordCall, hcall, Except.toOption, Option.map_some, Option.getD_some]

/-- One call. -/
theorem serving_step {s t : TorrentEngine × EngineHistory} {call : EngineCall} (h : Serving s)
    (hserves : ServesFront s call) (hnext : recorded nextEngine recordCall s call = some t) :
    Serving t := by
  obtain ⟨engine, history⟩ := s
  obtain ⟨after, later⟩ := t
  obtain ⟨frames, hcall, haccepted, hwritten⟩ := recordedCall_eq_some hnext
  cases call with
  | start =>
      obtain ⟨rfl, rfl⟩ := Prod.mk.inj (Except.ok.inj hcall)
      exact serving_of_added h rfl h.socket hwritten (haccepted.trans (List.append_nil _).symm)
        (List.append_nil _).symm
  | stop =>
      obtain ⟨rfl, rfl⟩ := Prod.mk.inj (Except.ok.inj hcall)
      exact ⟨⟨[], haccepted, by simp⟩, h.socket⟩
  | requestFileData request =>
      obtain ⟨rfl, rfl⟩ := Prod.mk.inj (Except.ok.inj hcall)
      simp only [recordCall] at haccepted
      unfold TorrentEngine.requestFileData
      by_cases hrunning : engine.running = true
      · rw [if_pos hrunning] at haccepted
        rw [if_neg (not_not.mpr hrunning)]
        exact serving_of_added h rfl h.socket hwritten haccepted rfl
      · rw [if_neg hrunning] at haccepted
        rw [if_pos hrunning]
        exact serving_of_added h rfl h.socket hwritten (haccepted.trans (List.append_nil _).symm)
          (List.append_nil _).symm
  | pumpOnce announced network => exact serving_pumpOnce h hserves hcall haccepted hwritten

/-- **No request is lost.**  In every run in which each call that takes a request out of the queue
serves it, the requests that are out of the queue are covered by blocks that were asked for.
SRCLINE: TorrentEngine.cpp:30-43, TorrentEngine.cpp:62-99 -/
theorem noneLost {metadata : TorrentMetadata} {state : TorrentEngine × EngineHistory}
    (h : Reachable (recorded nextEngine recordCall) ServesFront
      (TorrentEngine.create metadata, ⟨[], []⟩) state) : NoneLost state := by
  have hserving : Serving state := by
    refine h.invariant ⟨⟨[], rfl, by simp⟩, ?_⟩ fun s call t hs hserves hnext =>
      serving_step hs hserves hnext
    intro connection hconnection
    cases hconnection
  exact hserving.kept

/-! ## Concrete runs -/

/-- A network in which the socket 3 is for every peer, and which sends or does not. -/
def socketThree (sends : Bool) : PeerNetwork := ⟨fun _ => 3, fun _ => sends⟩

/-- A request for all five bytes is served. -/
theorem noneLost_served : ∃ state : TorrentEngine × EngineHistory, state.1.requests = [] ∧
    state.2.accepted = [⟨0, 0, 5⟩] ∧ NoneLost state := by
  have hstart : Reachable (recorded nextEngine recordCall) ServesFront
      (TorrentEngine.create onePieceMetadata, ⟨[], []⟩) _ := .start
  have hrunning := hstart.step (a := EngineCall.start) trivial rfl
  have hqueued := hrunning.step (a := EngineCall.requestFileData ⟨0, 0, 5⟩) trivial rfl
  have hserved := hqueued.step (a := EngineCall.pumpOnce none (socketThree true)) (by
    rintro - connection - front rest hrequests file hfile position ⟨-, hlt⟩
    obtain ⟨rfl, -⟩ := List.cons.inj hrequests
    obtain rfl := Option.some.inj hfile
    right
    have hposition : position < 5 := hlt
    refine ⟨rfl, fun _ _ => rfl, ⟨by decide, by decide, Or.inl (by decide)⟩, ?_, ?_⟩
    · exact lt_of_lt_of_le hposition (by decide)
    · exact (Nat.div_eq_of_lt (hposition.trans (by decide))).trans rfl) rfl
  exact ⟨_, rfl, rfl, noneLost hserved⟩

/-- When nothing can be sent, the request is out of the queue and nothing was asked for. -/
theorem noneLost_fails : ¬ ∀ raw metadata, Accepts raw metadata →
    ∀ state, Reachable (recorded nextEngine recordCall) anyAction
      (TorrentEngine.create metadata, ⟨[], []⟩) state → NoneLost state := by
  intro h
  obtain ⟨removed, haccepted, hcovered⟩ := h _ _ accepts_onePieceTorrent _ (Reachable.of_endOf
    [.start, .requestFileData ⟨0, 0, 1⟩, .pumpOnce none (socketThree false)] rfl)
  have hremoved : ⟨0, 0, 1⟩ ∈ removed := by
    have hsame : [⟨0, 0, 1⟩] = removed ++ [] := haccepted
    rw [List.append_nil] at hsame
    simp [← hsame]
  obtain ⟨file, hfile, hasked⟩ := hcovered _ hremoved
  obtain rfl := Option.some.inj hfile
  obtain ⟨frame, hframe, -⟩ := hasked 0 ⟨by decide, by decide⟩
  exact absurd hframe List.not_mem_nil

end Vtfs.Analysis
