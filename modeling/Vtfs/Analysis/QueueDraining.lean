import Vtfs.Analysis.EngineInputs
import Vtfs.Analysis.Quiescence

/-!
# No request stays behind

A thread that puts a request into the queue calls `pumpOnce` next, and with a connection each such
call takes one request out.  So there are never more requests than threads that are about to call
`pumpOnce` (`Draining`), although a thread may take out the request of another.
-/

set_option autoImplicit false

namespace Vtfs.Analysis

open Vtfs.Library
open Vtfs.Model
open Vtfs.Interface

/-- One for a thread that is about to call `pumpOnce`. -/
def pumping : Option Location → ℕ
  | some .pumpOnce => 1
  | _ => 0

/-- There are at most as many requests as threads that will take one. -/
structure Draining (s : TorrentSession) : Prop where
  running : s.engine.running = true
  peers : FewPeers s.engine
  finite : (weighing pumping s.threads).Finite
  enough : s.engine.requests.length ≤ tally pumping s.threads

section Steps

variable {s later : TorrentSession} {t : ℕ} {outside : Outside}

/-- A thread that is about to ask is not about to pump. -/
theorem pumping_afterwards (request : Option StreamRequest) :
    pumping (request.map .requestFileData) = 0 := by
  cases request <;> rfl

/-- With a connection, the request in front is taken out. -/
theorem requests_of_pumpOnce {engine after : TorrentEngine}
    {announced : Option (List TrackerPeer)} {network : PeerNetwork} {frames : List Bytes}
    {connection : PeerConnection} (hrunning : engine.running = true)
    (hconnection : connectionInUse engine announced network = some connection)
    (h : engine.pumpOnce announced network = .ok (after, frames)) :
    after.requests = engine.requests.tail ∧ after.running = true := by
  rw [pumpOnce_of_running hrunning, hconnection, TorrentEngine.serveFront] at h
  cases hrequests : engine.requests with
  | nil =>
      simp only [hrequests] at h
      obtain ⟨rfl, -⟩ := Prod.mk.inj (Except.ok.inj h)
      exact ⟨rfl, hrunning⟩
  | cons front rest =>
      simp only [hrequests] at h
      obtain ⟨block, -, hresult⟩ := except_bind_eq_ok_iff.mp h
      obtain ⟨rfl, -⟩ := Prod.mk.inj (Except.ok.inj hresult)
      exact ⟨rfl, hrunning⟩

/-- There is a connection when the first node answers. -/
theorem exists_connectionInUse {engine : TorrentEngine} (h : FewPeers engine)
    {network : PeerNetwork} (hanswers : 0 ≤ network.connectSocket firstNode)
    (announced : Option (List TrackerPeer)) :
    ∃ connection, connectionInUse engine announced network = some connection := by
  rw [connectionInUse_eq h]
  cases engine.peerConnection with
  | some connection => exact ⟨connection, rfl⟩
  | none => exact ⟨_, if_pos (decide_eq_true hanswers)⟩

/-- A thread moves between places of one weight, and the engine stays. -/
theorem draining_moves (h : Draining s) {next : Option Location}
    (hthreads : later.threads = Function.update s.threads t next)
    (hengine : later.engine = s.engine) (hweight : pumping next = pumping (s.threads t)) :
    Draining later := by
  have htally := tally_update h.finite t next
  rw [← hthreads] at htally
  refine ⟨hengine ▸ h.running, hengine ▸ h.peers, ?_, ?_⟩
  · rw [hthreads]
    exact finite_weighing_update h.finite t next
  · have henough := h.enough
    rw [hengine]
    omega

/-- Two places of a thread are about the engine. -/
theorem engine_of_proceeds {location : Location} (h : Proceeds s t outside location later)
    (hrequest : ∀ request, location ≠ .requestFileData request) (hpump : location ≠ .pumpOnce) :
    later.engine = s.engine := by
  cases h with
  | goesOn | touch | evictIfNeeded | insert | spawn | downloadFile | erase => rfl
  | requestFileData request => exact absurd rfl (hrequest request)
  | pumpOnce => exact absurd rfl hpump

/-- One more request, and one more thread to take one. -/
theorem draining_requestFileData {request : StreamRequest} (h : Draining s)
    (hlocation : s.threads t = some (.requestFileData request)) :
    Draining ({ s with engine := s.engine.requestFileData request }.moveTo t (some .pumpOnce)) := by
  have htally := tally_update h.finite t (some Location.pumpOnce)
  have henough := h.enough
  have hone : pumping (some .pumpOnce) = 1 ∧ pumping (some (.requestFileData request)) = 0 :=
    ⟨rfl, rfl⟩
  have hrequest : s.engine.requestFileData request =
      { s.engine with requests := s.engine.requests ++ [request] } :=
    if_neg (not_not.mpr h.running)
  rw [hlocation, hone.1, hone.2] at htally
  rw [hrequest]
  refine ⟨h.running, h.peers, finite_weighing_update h.finite t _, ?_⟩
  simp only [TorrentSession.moveTo, List.length_append, List.length_singleton]
  omega

/-- One request less, and one thread less. -/
theorem draining_pumpOnce {engine : TorrentEngine} {frames : List Bytes} (h : Draining s)
    (hanswers : 0 ≤ outside.peers.connectSocket firstNode)
    (hlocation : s.threads t = some .pumpOnce)
    (hpump : s.engine.pumpOnce outside.announced outside.peers = .ok (engine, frames)) :
    Draining ({ s with engine }.moveTo t none) := by
  obtain ⟨connection, hconnection⟩ := exists_connectionInUse h.peers hanswers outside.announced
  obtain ⟨hrequests, hrunning⟩ := requests_of_pumpOnce h.running hconnection hpump
  have htally := tally_update h.finite t none
  have henough := h.enough
  have hone : pumping (some .pumpOnce) = 1 ∧ pumping none = 0 := ⟨rfl, rfl⟩
  rw [hlocation, hone.1, hone.2] at htally
  refine ⟨hrunning, fewPeers_pumpOnce h.peers hpump, finite_weighing_update h.finite t _, ?_⟩
  simp only [TorrentSession.moveTo, hrequests, List.length_tail]
  omega

/-- The step of a thread keeps the queue covered. -/
theorem draining_proceed {location : Location} (h : Draining s)
    (hanswers : FirstNodeAnswers s (.proceed t outside)) (hlocation : s.threads t = some location)
    (hproceed : s.proceed t outside location = some later) : Draining later := by
  obtain ⟨next, hgoes, hthreads⟩ := proceed_goesTo hproceed
  have hengine := engine_of_proceeds (proceed_cases hproceed)
  generalize hafter : later.threads = threads at hthreads
  cases hgoes with
  | requestFileData request =>
      obtain rfl := Option.some.inj hproceed
      exact draining_requestFileData h hlocation
  | pumpOnce =>
      simp only [TorrentSession.proceed] at hproceed
      split at hproceed
      · next engine frames hpump =>
        obtain rfl := Option.some.inj hproceed
        exact draining_pumpOnce h ((atStep_proceed hlocation _).mp hanswers) hlocation hpump
      · cases hproceed
  | spawn entry request =>
      cases hthreads with
      | alone hother => exact absurd rfl (hother entry request)
      | made _ _ hnew =>
          have hmade : Draining (s.moveTo outside.thread (some (.downloadFile entry))) :=
            draining_moves h rfl rfl (by rw [hnew]; rfl)
          have hne : t ≠ outside.thread := by
            rintro rfl
            rw [hlocation] at hnew
            cases hnew
          refine draining_moves hmade hafter (hengine (by simp) (by simp)) ?_
          simp only [TorrentSession.moveTo, Function.update_of_ne hne, hlocation,
            pumping_afterwards]
          rfl
  | unneeded | taken =>
      cases hthreads
      refine draining_moves h hafter (hengine (by simp) (by simp)) ?_
      rw [hlocation, pumping_afterwards]
      rfl
  | touch | evictIfNeeded | found | missing | needed | claims | downloadFile | erase =>
      cases hthreads
      refine draining_moves h hafter (hengine (by simp) (by simp)) ?_
      rw [hlocation]
      rfl

/-- So does each action. -/
theorem draining_next {a : Action} (h : Draining s) (hanswers : FirstNodeAnswers s a)
    (hnext : s.next a = some later) : Draining later := by
  by_cases hstep : IsStep a
  · obtain ⟨t, outside, rfl⟩ := hstep
    obtain ⟨location, hlocation, hproceed⟩ := Option.bind_eq_some_iff.mp hnext
    exact draining_proceed h hanswers hlocation hproceed
  · rcases call_cases hnext hstep with rfl | ⟨t, entry, location, hcalls, rfl⟩
    · exact h
    · refine draining_moves h rfl rfl ?_
      rw [hcalls.idle]
      cases hcalls.begins <;> rfl

end Steps

/-- **No request stays behind.**  In every run in which the first node can be connected to, there
are never more requests in the queue than threads about to call `pumpOnce`, and none is left when
all threads are done.
SRCLINE: TorrentSession.cpp:121-133, TorrentEngine.cpp:37-99 -/
theorem queue_drains {config : Config} {metadata : TorrentMetadata} {disk : Disk}
    {s : TorrentSession} (h : Reachable TorrentSession.next FirstNodeAnswers
      (TorrentSession.start config metadata disk) s) :
    s.engine.requests.length ≤ {t | s.threads t = some .pumpOnce}.ncard ∧
      (Quiesced s → s.engine.requests = []) := by
  have hempty : weighing pumping (TorrentSession.start config metadata disk).threads = ∅ :=
    Set.eq_empty_of_forall_notMem fun t ht => ht rfl
  have hdraining : Draining s := by
    refine h.invariant ⟨rfl, Or.inl rfl, ?_, Nat.zero_le _⟩ ?_
    · rw [hempty]
      exact Set.finite_empty
    · exact fun before a after hbefore hguard hnext => draining_next hbefore hguard hnext
  have hplaces : weighing pumping s.threads = {t | s.threads t = some .pumpOnce} := by
    refine Set.ext fun t => ?_
    show pumping (s.threads t) ≠ 0 ↔ s.threads t = some .pumpOnce
    unfold pumping
    split
    · next hpump => exact iff_of_true one_ne_zero hpump
    · next hother => exact iff_of_false (fun hne => hne rfl) hother
  have hbound : ∀ location, pumping location ≤ 1 := by
    intro location
    unfold pumping
    split
    · exact le_refl _
    · exact Nat.zero_le _
  have hle := hdraining.enough.trans (tally_le hdraining.finite hbound)
  rw [Nat.one_mul, hplaces] at hle
  refine ⟨hle, fun hquiesced => List.eq_nil_of_length_eq_zero (Nat.le_zero.mp (hle.trans ?_))⟩
  have hnone : {t | s.threads t = some Location.pumpOnce} = ∅ :=
    Set.eq_empty_of_forall_notMem fun t ht => by
      have hpump : s.threads t = some .pumpOnce := ht
      rw [hquiesced.threads t] at hpump
      cases hpump
  rw [hnone, Set.ncard_empty]

/-- A thread has put its request into the queue, and is about to take it out. -/
theorem queue_drains_oneRead : ∃ s : TorrentSession, s.engine.requests = [⟨0, 2, 3⟩] ∧
    s.engine.requests.length ≤ {t | s.threads t = some .pumpOnce}.ncard ∧
      (Quiesced s → s.engine.requests = []) := by
  have hstart : Reachable TorrentSession.next FirstNodeAnswers
      (TorrentSession.start ⟨10, bytes "/cache", []⟩ onePieceMetadata fun _ => none) _ := .start
  have hcalled := hstart.step (a := Action.beginStreaming 0 seedEntry 2 0) trivial rfl
  have htouched := hcalled.step (a := Action.proceed 0 (answering 1)) trivial rfl
  have hevicted := htouched.step (a := Action.proceed 0 (answering 1)) trivial rfl
  have hensured := hevicted.step (a := Action.proceed 0 (answering 1)) trivial rfl
  have hqueued := hensured.step (a := Action.proceed 0 (answering 1)) trivial rfl
  exact ⟨_, rfl, queue_drains hqueued⟩

end Vtfs.Analysis
