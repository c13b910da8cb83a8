import Vtfs.Interface.EngineInputs
import Vtfs.Analysis.StreamRequests

/-!
# The tracker is never asked

When there is no peer the engine takes the bootstrap nodes, and these are never none, so the
branch in which the tracker is asked is never taken (`findPeers_eq`).  The front of the peers is
the first node from then on, in every run, so it is the only one that the engine connects to.
-/

set_option autoImplicit false

namespace Vtfs.Analysis

open Vtfs.Library
open Vtfs.Model
open Vtfs.Interface

/-- The engine has no peers yet, or the bootstrap nodes. -/
def FewPeers (engine : TorrentEngine) : Prop :=
  engine.peers = [] ∨ engine.peers = defaultBootstrapNodes

section Calls

variable {engine t : TorrentEngine}

/-- Whatever the tracker would answer. -/
theorem findPeers_eq (h : FewPeers engine) (announced : Option (List TrackerPeer)) :
    engine.findPeers announced = defaultBootstrapNodes := by
  have hne : defaultBootstrapNodes ≠ [] := List.cons_ne_nil _ _
  unfold TorrentEngine.findPeers
  rcases h with hnone | hnodes
  · rw [if_pos hnone]
    exact if_neg fun hasks => hne hasks.1
  · rw [hnodes, if_neg hne]
    exact if_neg fun hasks => hne hasks.1

/-- The connection is made to the first node, if there is none. -/
theorem connectionInUse_eq (h : FewPeers engine) (announced : Option (List TrackerPeer))
    (network : PeerNetwork) :
    connectionInUse engine announced network =
      match engine.peerConnection with
      | none =>
          if (PeerConnection.connectTo network firstNode).2 then
            some (PeerConnection.connectTo network firstNode).1
          else none
      | some connection => some connection := by
  unfold connectionInUse
  rw [findPeers_eq h]
  cases engine.peerConnection with
  | none => rfl
  | some connection => rfl

/-- A call of `pumpOnce` uses of the network what is about sending and the first node. -/
theorem pumpOnce_alike (h : FewPeers engine) (announced answered : Option (List TrackerPeer))
    {network other : PeerNetwork} (hsends : network.sendAll = other.sendAll)
    (hfirst : network.connectSocket firstNode = other.connectSocket firstNode) :
    engine.pumpOnce announced network = engine.pumpOnce answered other := by
  by_cases hrunning : engine.running = true
  · have hconnect : PeerConnection.connectTo network firstNode =
        PeerConnection.connectTo other firstNode := by
      rw [PeerConnection.connectTo, PeerConnection.connectTo, hfirst]
    have hserve : ∀ e : TorrentEngine, e.serveFront network = e.serveFront other := by
      intro e
      have hsend : ∀ connection : PeerConnection, connection.send network = connection.send other :=
        fun connection => by
          funext frame
          rw [PeerConnection.send, PeerConnection.send, hsends]
      unfold TorrentEngine.serveFront PeerConnection.sendInterested PeerConnection.requestBlock
      simp only [hsend]
    rw [pumpOnce_of_running hrunning, pumpOnce_of_running hrunning, findPeers_eq h,
      findPeers_eq h, connectionInUse_eq h, connectionInUse_eq h, hconnect, hserve]
  · rw [TorrentEngine.pumpOnce, TorrentEngine.pumpOnce, if_pos hrunning, if_pos hrunning]

/-- Each call keeps the first bootstrap node the only one that is used. -/
theorem fewPeers_pumpOnce (h : FewPeers engine) {announced : Option (List TrackerPeer)}
    {network : PeerNetwork} {frames : List Bytes}
    (hcall : engine.pumpOnce announced network = .ok (t, frames)) : FewPeers t := by
  by_cases hrunning : engine.running = true
  · rw [pumpOnce_of_running hrunning] at hcall
    have hpeers : t.peers = engine.findPeers announced := by
      unfold TorrentEngine.serveFront at hcall
      split at hcall
      · obtain ⟨block, -, hresult⟩ := except_bind_eq_ok_iff.mp hcall
        obtain ⟨rfl, -⟩ := Prod.mk.inj (Except.ok.inj hresult)
        rfl
      · obtain ⟨rfl, -⟩ := Prod.mk.inj (Except.ok.inj hcall)
        rfl
    exact Or.inr (hpeers.trans (findPeers_eq h announced))
  · rw [TorrentEngine.pumpOnce, if_pos hrunning] at hcall
    obtain ⟨rfl, -⟩ := Prod.mk.inj (Except.ok.inj hcall)
    exact h

/-- So does each action. -/
theorem fewPeers_next (h : FewPeers engine) {call : EngineCall}
    (hnext : nextEngine engine call = some t) : FewPeers t := by
  rw [nextEngine] at hnext
  cases call with
  | start =>
      obtain rfl := Option.some.inj hnext
      exact h
  | stop =>
      obtain rfl := Option.some.inj hnext
      exact h
  | requestFileData request =>
      obtain rfl := Option.some.inj hnext
      unfold TorrentEngine.requestFileData
      split
      · exact h
      · exact h
  | pumpOnce announced network =>
      cases hcall : engine.pumpOnce announced network with
      | error fault => simp [engineCall, hcall, Except.toOption] at hnext
      | ok result =>
          obtain ⟨after, frames⟩ := result
          simp only [engineCall, hcall, Except.toOption, Option.map_some,
            Option.some.injEq] at hnext
          exact hnext ▸ fewPeers_pumpOnce h hcall

/-- Calls that are alike do the same. -/
theorem recorded_alike (h : FewPeers engine) (history : EngineHistory) {call other : EngineCall}
    (halike : AlikeCalls call other) :
    recorded nextEngine recordCall (engine, history) call =
      recorded nextEngine recordCall (engine, history) other := by
  cases halike with
  | same => rfl
  | pumpOnce announced answered network other hsends hfirst =>
      have hsame := pumpOnce_alike h announced answered hsends hfirst
      have hcall : engineCall engine (.pumpOnce announced network) =
          engineCall engine (.pumpOnce answered other) := hsame
      simp only [recorded, nextEngine, recordCall, hcall]

end Calls

/-- **The tracker is never asked**, and no peer is connected to but the first bootstrap node: runs
of calls that are alike go through the same states and write the same frames.
SRCLINE: TorrentEngine.cpp:62-99, DhtClient.cpp:90-96, PeerConnection.cpp:94-98 -/
theorem endOf_alike {metadata : TorrentMetadata} {calls others : List EngineCall}
    (h : List.Forall₂ AlikeCalls calls others) :
    endOf (recorded nextEngine recordCall) (TorrentEngine.create metadata, ⟨[], []⟩) calls =
      endOf (recorded nextEngine recordCall) (TorrentEngine.create metadata, ⟨[], []⟩) others := by
  have hrun : ∀ state : TorrentEngine × EngineHistory, FewPeers state.1 →
      endOf (recorded nextEngine recordCall) state calls =
        endOf (recorded nextEngine recordCall) state others := by
    induction h with
    | nil => exact fun _ _ => rfl
    | cons halike _ ih =>
        rintro ⟨engine, history⟩ hfew
        have hsame := recorded_alike hfew history halike
        cases hnext : recorded nextEngine recordCall (engine, history) _ with
        | none =>
            rw [hnext] at hsame
            simp [endOf, hnext, ← hsame]
        | some state =>
            rw [hnext] at hsame
            rw [endOf_cons hnext, endOf_cons hsame.symm]
            exact ih state (fewPeers_next hfew (recorded_eq_some_iff.mp hnext).1)
  exact hrun _ (Or.inl rfl)

/-- Another tracker, and other sockets for the other nodes. -/
theorem endOf_alike_otherTracker :
    endOf (recorded nextEngine recordCall) (TorrentEngine.create onePieceMetadata, ⟨[], []⟩)
        [.start, .requestFileData ⟨0, 0, 5⟩, .pumpOnce none (socketThree true)] =
      endOf (recorded nextEngine recordCall) (TorrentEngine.create onePieceMetadata, ⟨[], []⟩)
        [.start, .requestFileData ⟨0, 0, 5⟩, .pumpOnce (some [⟨bytes "10.0.0.1", 1⟩])
          ⟨fun peer => if peer.port = 6881 then 3 else -1, fun _ => true⟩] :=
  endOf_alike (.cons (.same _) (.cons (.same _) (.cons (.pumpOnce _ _ _ _ rfl rfl) .nil)))

end Vtfs.Analysis
