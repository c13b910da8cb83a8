import Vtfs.Interface.PeerStream
import Vtfs.Analysis.PeerFrames
import Vtfs.Analysis.SocketWrites
import Vtfs.Analysis.StreamRequests

/-!
# The stream that the peer reads

What goes out of a vector is a beginning of it, all of it exactly when the loop says so
(`sendAll_cases`).  So each call of `pumpOnce` that takes a request out of the queue adds one
exchange to the stream (`pumpOnceOnWire_cases`), in the order of the queue; and a reader stays in
step while no frame but the last was broken off (`messagesRead_exchanges`).
-/

set_option autoImplicit false

namespace Vtfs.Analysis

open Vtfs.Library
open Vtfs.Library.BigEndian (bytesOfWord fromBigEndian)
open Vtfs.Model
open Vtfs.Interface

/-! ## Frames -/

/-- A frame is not empty. -/
theorem messageFrame_ne_nil (message : PeerMessage) : messageFrame message ≠ [] := by
  unfold messageFrame
  split
  · simp
  · simp [bytesOfWord]

/-- The two frames of an exchange are different. -/
theorem requestFrame_ne_interested (pieceIndex blockOffset blockLength : UInt32) :
    PeerConnection.requestFrame pieceIndex blockOffset blockLength ≠
      messageFrame ⟨interested, []⟩ := by
  intro heq
  have hlength := congrArg List.length heq
  rw [requestFrame_eq] at hlength
  simp [messageFrame, interested, keepAlive] at hlength

section Vectors

variable (connection : PeerConnection) (connectSocket : TrackerPeer → Int32) (results : List ℤ)

/-- The first frame is recorded when it went out whole. -/
theorem sendInterested_networkOf :
    connection.sendInterested (networkOf connectSocket results) =
      if (connection.sendOnWire results (messageFrame ⟨interested, []⟩)).1 then
        (true, [messageFrame ⟨interested, []⟩]) else (false, []) := by
  unfold PeerConnection.sendInterested PeerConnection.send PeerConnection.sendOnWire networkOf
  by_cases hsocket : connection.socket < 0
  · simp [hsocket]
  · simp [hsocket]

/-- The second frame is recorded when it went out whole after the first. -/
theorem requestBlock_networkOf (block : TorrentEngine.Block)
    (hsocket : ¬ connection.socket < 0) :
    connection.requestBlock (networkOf connectSocket results) block.pieceIndex block.pieceOffset
        block.length =
      if (connection.sendOnWire
          (connection.sendOnWire results (messageFrame ⟨interested, []⟩)).2.2
          (PeerConnection.requestFrame block.pieceIndex block.pieceOffset block.length)).1 then
        (true, [PeerConnection.requestFrame block.pieceIndex block.pieceOffset block.length])
      else (false, []) := by
  unfold PeerConnection.requestBlock PeerConnection.send PeerConnection.sendOnWire networkOf
  simp [hsocket, requestFrame_ne_interested]

end Vectors

/-! ## One call -/

section Pump

variable {engine t : TorrentEngine} {announced : Option (List TrackerPeer)}
  {connectSocket : TrackerPeer → Int32} {results : List ℤ} {out : Bytes}

/-- What a call does to the queue and the stream: nothing, or the request in front is taken out for
one exchange, and the frames of the engine are those sent whole. -/
def Adds (engine t : TorrentEngine) (out : Bytes)
    (frames : Except EngineFault (TorrentEngine × List Bytes)) : Prop :=
  t.metadata = engine.metadata ∧
    (t.requests = engine.requests ∧ out = [] ∧ frames = .ok (t, []) ∨
      ∃ e : Exchange, e.Valid engine.metadata ∧ engine.requests = e.request :: t.requests ∧
        out = e.out ∧ frames = .ok (t, e.messages.map messageFrame))

/-- Serving the front of the queue adds one exchange to the stream, or nothing. -/
theorem serveFrontOnWire_adds (h : engine.serveFrontOnWire results = .ok (t, out)) :
    Adds engine t out (engine.serveFront (networkOf connectSocket results)) := by
  unfold TorrentEngine.serveFrontOnWire at h
  unfold TorrentEngine.serveFront
  cases hconnection : engine.peerConnection with
  | none =>
      simp only [hconnection] at h ⊢
      obtain ⟨rfl, rfl⟩ := Prod.mk.inj (Except.ok.inj h)
      exact ⟨rfl, Or.inl ⟨rfl, rfl, rfl⟩⟩
  | some connection =>
      cases hrequests : engine.requests with
      | nil =>
          simp only [hconnection, hrequests] at h ⊢
          obtain ⟨rfl, rfl⟩ := Prod.mk.inj (Except.ok.inj h)
          exact ⟨rfl, Or.inl ⟨rfl, rfl, rfl⟩⟩
      | cons front rest =>
          simp only [hconnection, hrequests] at h ⊢
          obtain ⟨block, hblock, hresult⟩ := except_bind_eq_ok_iff.mp h
          obtain ⟨rfl, rfl⟩ := Prod.mk.inj (Except.ok.inj hresult)
          rw [hblock]
          refine ⟨rfl, Or.inr ?_⟩
          have hinterested := sendInterested_networkOf connection connectSocket results
          rcases sendOnWire_cases connection results (messageFrame ⟨interested, []⟩)
            (messageFrame_ne_nil _) with ⟨hsent, hout⟩ | ⟨hsent, more, hne, hout⟩
          swap
          · -- the message that says interest is broken off
            rw [hsent, if_neg (by simp)] at hinterested
            refine ⟨⟨front, [], _⟩, .broken block _ _ more hblock rfl hout hne, hrequests,
              by simp [hsent, Exchange.out], ?_⟩
            rw [hinterested]
            rfl
          rw [hsent, if_pos rfl] at hinterested
          have hsocket : ¬ connection.socket < 0 := by
            intro hnegative
            rw [PeerConnection.sendOnWire, if_pos hnegative] at hsent
            cases hsent
          have hblockSent := requestBlock_networkOf connection connectSocket results block hsocket
          rcases sendOnWire_cases connection
            (connection.sendOnWire results (messageFrame ⟨interested, []⟩)).2.2
            (PeerConnection.requestFrame block.pieceIndex block.pieceOffset block.length)
            (messageFrame_ne_nil _) with ⟨hasked, hframe⟩ | ⟨hasked, more, hne, hframe⟩
          · rw [hasked, if_pos rfl] at hblockSent
            refine ⟨⟨front, messagesFor block, []⟩, .whole block hblock rfl rfl, hrequests, ?_, ?_⟩
            · simp only [hsent, if_true, hout, hframe, Exchange.out, messagesFor,
                List.flatMap_cons, List.flatMap_nil, List.append_nil]
              rfl
            · rw [hinterested]
              simp only [bind, Except.bind, if_true, hblockSent]
              rfl
          · rw [hasked, if_neg (by simp)] at hblockSent
            refine ⟨⟨front, [⟨interested, []⟩], _⟩, .broken block _ [] more hblock rfl hframe hne,
              hrequests, ?_, ?_⟩
            · simp only [hsent, if_true, hout, Exchange.out, List.flatMap_cons, List.flatMap_nil,
                List.append_nil]
            · rw [hinterested]
              simp only [bind, Except.bind, if_true, hblockSent]
              rfl

/-- So does every call of `pumpOnce`. -/
theorem pumpOnceOnWire_adds
    (h : engine.pumpOnceOnWire announced connectSocket results = .ok (t, out)) :
    Adds engine t out (engine.pumpOnce announced (networkOf connectSocket results)) := by
  unfold TorrentEngine.pumpOnceOnWire at h
  unfold TorrentEngine.pumpOnce
  by_cases hrunning : engine.running = true
  swap
  · rw [if_pos hrunning] at h ⊢
    obtain ⟨rfl, rfl⟩ := Prod.mk.inj (Except.ok.inj h)
    exact ⟨rfl, Or.inl ⟨rfl, rfl, rfl⟩⟩
  rw [if_neg (not_not.mpr hrunning)] at h ⊢
  simp only at h ⊢
  cases hconnection : engine.peerConnection with
  | some connection =>
      simp only [hconnection] at h ⊢
      have hserved := @serveFrontOnWire_adds _ _ connectSocket _ _ h
      exact hserved
  | none =>
      cases hpeers : engine.findPeers announced with
      | nil =>
          simp only [hconnection, hpeers] at h ⊢
          have hserved := @serveFrontOnWire_adds _ _ connectSocket _ _ h
          exact hserved
      | cons peer others =>
          simp only [hconnection, hpeers] at h ⊢
          by_cases hsocket : connectSocket peer < 0
          · have hclosed : ¬ (PeerConnection.connectTo (networkOf connectSocket results)
                peer).2 = true := fun hopen =>
              absurd (of_decide_eq_true hopen) (Int32.not_le.mpr hsocket)
            rw [if_pos hsocket] at h
            rw [if_pos hclosed]
            obtain ⟨rfl, rfl⟩ := Prod.mk.inj (Except.ok.inj h)
            exact ⟨rfl, Or.inl ⟨rfl, rfl, rfl⟩⟩
          · have hopen : (PeerConnection.connectTo (networkOf connectSocket results)
                peer).2 = true := decide_eq_true (Int32.not_lt.mp hsocket)
            rw [if_neg hsocket] at h
            rw [if_neg (not_not.mpr hopen)]
            have hserved := @serveFrontOnWire_adds _ _ connectSocket _ _ h
            exact hserved

end Pump

/-! ## The reader -/

/-- A reader takes a frame at the front of a stream. -/
theorem readMessages_frame {message : PeerMessage} (h : Framable message) (rounds : ℕ)
    (rest : Bytes) :
    readMessages (rounds + 1) (messageFrame message ++ rest) =
      message :: readMessages rounds rest := by
  have hlength : 4 + fromBigEndian ((messageFrame message ++ rest).take 4) =
      (messageFrame message).length := by
    by_cases htype : message.type = keepAlive
    · rw [messageFrame_keepAlive htype]
      rfl
    · have hword : (1 + message.payload.length).toUInt32.toNat = 1 + message.payload.length := by
        have hsmall := h.small
        rw [UInt32.toNat_ofNat']
        exact Nat.mod_eq_of_lt (by omega)
      rw [messageFrame_of_ne htype, List.append_assoc,
        List.take_left' (BigEndian.length_bytesOfWord _), wordOfBytes_fromBigEndian, hword]
      simp only [List.length_append, BigEndian.length_bytesOfWord, List.length_cons]
      omega
  rw [readMessages, decodeMessage_messageFrame h, hlength, List.drop_left]

/-- A frame that is broken off is not taken. -/
theorem decodeMessage_cut {message : PeerMessage} (h : Framable message) {cut rest : Bytes}
    (hframe : messageFrame message = cut ++ rest) (hne : rest ≠ []) :
    decodeMessage cut = .ok none := by
  by_cases hshort : cut.length < 4
  · rw [decodeMessage, if_pos hshort]
  have hpos := List.length_pos_of_ne_nil hne
  have hlength := congrArg List.length hframe
  rw [List.length_append] at hlength
  by_cases htype : message.type = keepAlive
  · rw [messageFrame_keepAlive htype] at hlength
    simp only [List.length_cons, List.length_nil] at hlength
    omega
  have hsmall := h.small
  have hword : (1 + message.payload.length).toUInt32.toNat = 1 + message.payload.length := by
    rw [UInt32.toNat_ofNat']
    exact Nat.mod_eq_of_lt (by omega)
  have hfield : lengthField cut = 1 + message.payload.length := by
    have htake : cut.take 4 = (messageFrame message).take 4 := by
      rw [hframe, List.take_append_of_le_length (by omega)]
    rw [lengthField, htake, messageFrame_of_ne htype,
      List.take_left' (BigEndian.length_bytesOfWord _), wordOfBytes_fromBigEndian, hword]
  rw [messageFrame_of_ne htype] at hlength
  simp only [List.length_append, BigEndian.length_bytesOfWord, List.length_cons] at hlength
  obtain ⟨length, hread, -, hlong, -⟩ := decodeMessage_cases (not_lt.mp hshort)
  have hsum := add_four_toNat length
  rw [if_pos (by omega)] at hsum
  refine hlong (fun hzero => ?_) (by omega)
  have hnothing : length.toNat = 0 := by rw [hzero]; rfl
  omega

/-- What is read of frames and of one that is broken off after them. -/
theorem readMessages_flatMap {messages : List PeerMessage}
    (h : ∀ message ∈ messages, Framable message) {cut : Bytes}
    (hcut : decodeMessage cut = .ok none) {rounds : ℕ} (hrounds : messages.length ≤ rounds) :
    readMessages rounds (messages.flatMap messageFrame ++ cut) = messages := by
  induction messages generalizing rounds with
  | nil =>
      cases rounds with
      | zero => rfl
      | succ rounds => rw [List.flatMap_nil, List.nil_append, readMessages, hcut]
  | cons message rest ih =>
      obtain ⟨hmessage, hrest⟩ := List.forall_mem_cons.mp h
      obtain ⟨rounds, rfl⟩ := Nat.exists_eq_succ_of_ne_zero (n := rounds) (by
        simp only [List.length_cons] at hrounds
        omega)
      rw [List.flatMap_cons, List.append_assoc, readMessages_frame hmessage,
        ih hrest (by simpa using hrounds)]

/-- The messages of an exchange can be framed. -/
theorem framable_of_mem_messagesFor {block : TorrentEngine.Block} {message : PeerMessage}
    (h : message ∈ messagesFor block) : Framable message := by
  have hne : interested ≠ keepAlive ∧ request ≠ keepAlive := by decide
  simp only [messagesFor, List.mem_cons, List.not_mem_nil, or_false] at h
  rcases h with rfl | rfl
  · exact ⟨by decide, fun h => absurd h hne.1⟩
  · refine ⟨?_, fun h => absurd h hne.2⟩
    simp only [List.length_append, BigEndian.length_bytesOfWord]
    decide

/-- The frames that the connection sends are those that `encodeMessage` returns. -/
theorem encodeMessage_of_mem_messagesFor {block : TorrentEngine.Block} {message : PeerMessage}
    (h : message ∈ messagesFor block) : encodeMessage message = .ok (messageFrame message) :=
  encodeMessage_of_framable (framable_of_mem_messagesFor h)

/-- The messages of an exchange can be framed, and what was broken off is no frame. -/
theorem framable_of_valid {metadata : TorrentMetadata} {e : Exchange} (h : e.Valid metadata) :
    (∀ message ∈ e.messages, Framable message) ∧ decodeMessage e.cut = .ok none := by
  cases h with
  | whole block _ hmessages hcut =>
      rw [hmessages, hcut]
      exact ⟨fun message hmessage => framable_of_mem_messagesFor hmessage, rfl⟩
  | broken block next more rest _ hmessages hframe hne =>
      have hall : ∀ message ∈ e.messages ++ next :: more, Framable message := by
        rw [← hmessages]
        exact fun message hmessage => framable_of_mem_messagesFor hmessage
      exact ⟨fun message hmessage => hall message (List.mem_append_left _ hmessage),
        decodeMessage_cut (hall next (by simp)) hframe hne⟩

/-- A frame takes at least four bytes. -/
theorem length_le_flatMap (messages : List PeerMessage) :
    messages.length ≤ (messages.flatMap messageFrame).length := by
  induction messages with
  | nil => exact Nat.zero_le _
  | cons message rest ih =>
      have hpos := List.length_pos_of_ne_nil (messageFrame_ne_nil message)
      rw [List.flatMap_cons, List.length_append, List.length_cons]
      omega

/-- **The reader stays in step** as long as no frame but the last one was broken off. -/
theorem messagesRead_exchanges {metadata : TorrentMetadata} {exchanges : List Exchange}
    (h : ∀ e ∈ exchanges, e.Valid metadata) (hstep : ∀ e ∈ exchanges.dropLast, e.cut = []) :
    messagesRead (exchanges.flatMap Exchange.out) = exchanges.flatMap (·.messages) := by
  have hframes : ∀ front : List Exchange, (∀ e ∈ front, e.cut = []) →
      front.flatMap Exchange.out = (front.flatMap (·.messages)).flatMap messageFrame := by
    intro front hfront
    rw [List.flatMap_assoc]
    refine List.flatMap_congr fun e he => ?_
    rw [Exchange.out, hfront e he, List.append_nil]
  have hread : ∀ messages cut, (∀ message ∈ messages, Framable message) →
      decodeMessage cut = .ok none →
        messagesRead (messages.flatMap messageFrame ++ cut) = messages := by
    intro messages cut hmessages hcut
    refine readMessages_flatMap hmessages hcut ((length_le_flatMap messages).trans ?_)
    simp
  rcases List.eq_nil_or_concat exchanges with rfl | ⟨front, last, rfl⟩
  · rfl
  rw [List.concat_eq_append] at h hstep ⊢
  rw [List.dropLast_concat] at hstep
  have hall : ∀ message ∈ front.flatMap (·.messages) ++ last.messages, Framable message := by
    intro message hmessage
    rcases List.mem_append.mp hmessage with hmessage | hmessage
    · obtain ⟨e, he, hmessage⟩ := List.mem_flatMap.mp hmessage
      exact (framable_of_valid (h e (by simp [he]))).1 message hmessage
    · exact (framable_of_valid (h last (by simp))).1 message hmessage
  have hcut := (framable_of_valid (h last (by simp))).2
  rw [List.flatMap_append, List.flatMap_append, hframes front hstep, List.flatMap_singleton,
    List.flatMap_singleton, Exchange.out, ← List.append_assoc, ← List.flatMap_append]
  exact hread _ _ hall hcut

/-! ## Runs -/

/-- A call that does not fault, in the run that tells frames. -/
theorem recorded_frameCall {engine after : TorrentEngine} {call : EngineCall}
    {frames : List Bytes} (history : EngineHistory)
    (h : engineCall engine call = .ok (after, frames)) :
    recorded nextEngine recordCall (engine, history) call =
        some (after, recordCall engine call history) ∧
      (recordCall engine call history).written = history.written ++ frames := by
  refine ⟨recorded_eq_some_iff.mpr ⟨?_, rfl⟩, ?_⟩
  · rw [nextEngine, h]
    rfl
  · simp only [recordCall, h, Except.toOption, Option.map_some, Option.getD_some]

section Step

variable {metadata : TorrentMetadata} {s t : TorrentEngine × WireHistory}
  {exchanges : List Exchange} {history : EngineHistory}

/-- A call in which nothing goes out. -/
theorem streaming_of_silent (h : Streaming metadata s exchanges history) (call : EngineCall)
    (added : List StreamRequest) (hcall : engineCall s.1 call = .ok (t.1, []))
    (hmetadata : t.1.metadata = s.1.metadata)
    (hrequests : t.1.requests.Sublist (s.1.requests ++ added))
    (haccepted : t.2.accepted = s.2.accepted ++ added) (hstream : t.2.stream = s.2.stream) :
    ∃ exchanges history, Streaming metadata t exchanges history := by
  obtain ⟨hnext, hwritten⟩ := recorded_frameCall history hcall
  refine ⟨exchanges, _, hmetadata.trans h.metadata_eq, h.valid, ?_, hstream.trans h.stream_eq,
    h.frames.step trivial hnext, ?_⟩
  · rw [haccepted]
    have horder := h.order.append_right added
    rw [List.append_assoc] at horder
    exact ((List.append_sublist_append_left _).mpr hrequests).trans horder
  · rw [hwritten, h.written_eq, List.append_nil]

/-- A call that takes a request out of the queue. -/
theorem streaming_of_exchange (h : Streaming metadata s exchanges history) (call : EngineCall)
    (e : Exchange) (hvalid : e.Valid metadata)
    (hcall : engineCall s.1 call = .ok (t.1, e.messages.map messageFrame))
    (hmetadata : t.1.metadata = s.1.metadata) (hrequests : s.1.requests = e.request :: t.1.requests)
    (haccepted : t.2.accepted = s.2.accepted) (hstream : t.2.stream = s.2.stream ++ e.out) :
    ∃ exchanges history, Streaming metadata t exchanges history := by
  obtain ⟨hnext, hwritten⟩ := recorded_frameCall history hcall
  refine ⟨exchanges ++ [e], _, hmetadata.trans h.metadata_eq, ?_, ?_, ?_,
    h.frames.step trivial hnext, ?_⟩
  · intro f hf
    rcases List.mem_append.mp hf with hold | hnew
    · exact h.valid f hold
    · rw [List.mem_singleton.mp hnew]
      exact hvalid
  · have horder := h.order
    rw [hrequests] at horder
    rw [haccepted]
    simpa using horder
  · rw [hstream, h.stream_eq, List.flatMap_append, List.flatMap_singleton]
  · rw [hwritten, h.written_eq, List.flatMap_append, List.flatMap_singleton, List.map_append]

/-- The engine and the history after a call. -/
theorem recordedOnWire_eq_some {call : WireCall}
    (h : recorded nextOnWire recordOnWire s call = some t) :
    ∃ out, wireCall s.1 call = .ok (t.1, out) ∧
      t.2.accepted = (recordOnWire s.1 call s.2).accepted ∧ t.2.stream = s.2.stream ++ out := by
  obtain ⟨hnext, hhistory⟩ := recorded_eq_some_iff.mp h
  rw [nextOnWire] at hnext
  cases hcall : wireCall s.1 call with
  | error fault => simp [hcall, Except.toOption] at hnext
  | ok result =>
      obtain ⟨engine, out⟩ := result
      simp only [hcall, Except.toOption, Option.map_some, Option.some.injEq] at hnext
      refine ⟨out, by rw [hnext], by rw [hhistory], ?_⟩
      simp only [hhistory, recordOnWire, hcall, Except.toOption, Option.map_some,
        Option.getD_some]

/-- One call. -/
theorem streaming_step {call : WireCall} (h : Streaming metadata s exchanges history)
    (hnext : recorded nextOnWire recordOnWire s call = some t) :
    ∃ exchanges history, Streaming metadata t exchanges history := by
  obtain ⟨engine, past⟩ := s
  obtain ⟨after, later⟩ := t
  obtain ⟨out, hcall, haccepted, hstream⟩ := recordedOnWire_eq_some hnext
  cases call with
  | start =>
      obtain ⟨rfl, rfl⟩ := Prod.mk.inj (Except.ok.inj hcall)
      refine streaming_of_silent h .start [] rfl rfl ?_ ?_ ?_
      · exact List.sublist_append_left _ _
      · exact haccepted.trans (List.append_nil _).symm
      · exact hstream.trans (List.append_nil _)
  | stop =>
      obtain ⟨rfl, rfl⟩ := Prod.mk.inj (Except.ok.inj hcall)
      refine streaming_of_silent h .stop [] rfl rfl ?_ ?_ ?_
      · exact List.nil_sublist _
      · exact haccepted.trans (List.append_nil _).symm
      · exact hstream.trans (List.append_nil _)
  | requestFileData request =>
      obtain ⟨rfl, rfl⟩ := Prod.mk.inj (Except.ok.inj hcall)
      simp only [recordOnWire] at haccepted
      have hstream := hstream.trans (List.append_nil _)
      by_cases hrunning : engine.running = true
      · rw [if_pos hrunning] at haccepted
        refine streaming_of_silent h (.requestFileData request) [request] rfl ?_ ?_ haccepted
          hstream
        · simp only [TorrentEngine.requestFileData, hrunning]
          rfl
        · simp only [TorrentEngine.requestFileData, hrunning]
          exact List.Sublist.refl _
      · rw [if_neg hrunning] at haccepted
        refine streaming_of_silent h (.requestFileData request) [] rfl ?_ ?_
          (haccepted.trans (List.append_nil _).symm) hstream
        · simp only [TorrentEngine.requestFileData, if_pos hrunning]
        · simp only [TorrentEngine.requestFileData, if_pos hrunning]
          exact List.sublist_append_left _ _
  | pumpOnce announced connectSocket results =>
      obtain ⟨hmetadata, hadds⟩ := pumpOnceOnWire_adds hcall
      rcases hadds with ⟨hrequests, rfl, hframes⟩ | ⟨e, hvalid, hrequests, rfl, hframes⟩
      · refine streaming_of_silent h
          (frameCall (.pumpOnce announced connectSocket results)) [] hframes hmetadata ?_ ?_ ?_
        · rw [hrequests]
          exact List.sublist_append_left _ _
        · exact haccepted.trans (List.append_nil _).symm
        · exact hstream.trans (List.append_nil _)
      · have hsame : engine.metadata = metadata := h.metadata_eq
        rw [hsame] at hvalid
        exact streaming_of_exchange h (frameCall (.pumpOnce announced connectSocket results)) e
          hvalid hframes hmetadata hrequests haccepted hstream

end Step

/-- **What the peer reads.**  All that ever goes out on the connection are exchanges, one for each
request that was taken out of the queue, in the order in which these were put into it and no
request twice.  They are the frames of a run that tells only frames sent whole, and what was broken
off.  As long as none but the last one was broken off, the peer reads the messages of the
exchanges.
SRCLINE: PeerConnection.cpp:60-135, TorrentEngine.cpp:30-99 -/
theorem peerStream_exchanges {metadata : TorrentMetadata} {state : TorrentEngine × WireHistory}
    (h : Reachable (recorded nextOnWire recordOnWire) anyAction
      (TorrentEngine.create metadata, ⟨[], []⟩) state) :
    ∃ exchanges history, Streaming metadata state exchanges history ∧
      ((∀ e ∈ exchanges.dropLast, e.cut = []) →
        messagesRead state.2.stream = exchanges.flatMap (·.messages)) := by
  have hstreaming : ∃ exchanges history, Streaming metadata state exchanges history := by
    refine h.invariant (I := fun s => ∃ exchanges history, Streaming metadata s exchanges history)
      ⟨[], ⟨[], []⟩, rfl, by simp, List.Sublist.refl _, rfl, .start, rfl⟩ ?_
    rintro s call t ⟨exchanges, history, hs⟩ - hnext
    exact streaming_step hs hnext
  obtain ⟨exchanges, history, hstreaming⟩ := hstreaming
  refine ⟨exchanges, history, hstreaming, fun hstep => ?_⟩
  rw [hstreaming.stream_eq]
  exact messagesRead_exchanges hstreaming.valid hstep

/-- A request for five bytes, sent in three pieces of which the first ends inside a frame. -/
theorem peerStream_exchanges_threePieces :
    ∃ state : TorrentEngine × WireHistory, state.2.stream.length = 22 ∧
      ∃ exchanges history, Streaming onePieceMetadata state exchanges history ∧
        ((∀ e ∈ exchanges.dropLast, e.cut = []) →
          messagesRead state.2.stream = exchanges.flatMap (·.messages)) := by
  have hreached : Reachable (recorded nextOnWire recordOnWire) anyAction
      (TorrentEngine.create onePieceMetadata, ⟨[], []⟩) _ := Reachable.of_endOf
    [.start, .requestFileData ⟨0, 0, 5⟩, .pumpOnce none (fun _ => 3) [3, 2, 100]] rfl
  exact ⟨_, rfl, peerStream_exchanges hreached⟩

end Vtfs.Analysis
