import Vtfs.Interface.Mounting

/-!
# The lifetime of a server

What the loop over the ports opens and does not listen at it closes (`balances_startLoop`), and it
ends at the first port that it can listen at (`startLoop_eq_some_iff`).  So each call keeps what the
server holds in step with its fields, and by induction so does a run of calls.
-/

set_option autoImplicit false

namespace Vtfs.Analysis

open Vtfs.Library
open Vtfs.Model
open Vtfs.Interface

/-! ## Ledgers of calls -/

section Balances

variable {held middle after : Multiset Resource} {calls more : List SystemCall}

/-- Calls balance one list after the other. -/
theorem balances_append (h : Balances held calls middle) (hmore : Balances middle more after) :
    Balances held (calls ++ more) after := by
  unfold Balances
  rw [List.map_append]
  exact Settles.append h hmore

/-- What is held besides stays held. -/
theorem balances_add_right (h : Balances held calls after) (others : Multiset Resource) :
    Balances (held + others) calls (after + others) :=
  Settles.add_right h others

end Balances

/-! ## The loop over the ports -/

section StartLoop

variable {ports : Ports}

/-- The socket that was found, if any. -/
def heldByFound (found : Option (UInt16 × ℕ)) : Multiset Resource :=
  (found.toList.map fun found => Resource.socket found.2 : List Resource)

/-- Every socket that is not listened at is closed. -/
theorem balances_startLoop (candidates : List UInt16) :
    Balances 0 (WebDavServer.startLoop ports candidates).2
      (heldByFound (WebDavServer.startLoop ports candidates).1) := by
  induction candidates with
  | nil => exact .nil 0
  | cons candidate rest ih =>
      cases hsocket : ports.socket candidate with
      | none => simpa only [WebDavServer.startLoop, hsocket] using ih
      | some socket =>
          cases hbinds : ports.binds candidate with
          | true =>
              simp only [WebDavServer.startLoop, hsocket, hbinds, if_true]
              exact Settles.take (Resource.socket socket) 0
          | false =>
              simp only [WebDavServer.startLoop, hsocket, hbinds, Bool.false_eq_true, if_false]
              exact .taken (.returned ih)

/-- The loop opens and closes sockets only. -/
theorem mapsLetter_startLoop (candidates : List UInt16) :
    ∀ call ∈ (WebDavServer.startLoop ports candidates).2, mapsLetter call = false := by
  induction candidates with
  | nil => simp [WebDavServer.startLoop]
  | cons candidate rest ih =>
      cases hsocket : ports.socket candidate with
      | none => simpa only [WebDavServer.startLoop, hsocket] using ih
      | some socket =>
          cases hbinds : ports.binds candidate with
          | true => simp [WebDavServer.startLoop, hsocket, hbinds, mapsLetter]
          | false =>
              simp only [WebDavServer.startLoop, hsocket, hbinds, Bool.false_eq_true, if_false]
              exact List.forall_mem_cons.mpr ⟨rfl, List.forall_mem_cons.mpr ⟨rfl, ih⟩⟩

/-- A port from `first` on, below the `count`th after it, is the first that can be listened at. -/
structure FirstOf (ports : Ports) (first count : ℕ) (port : UInt16) (socket : ℕ) : Prop where
  least : first ≤ port.toNat
  near : port.toNat < first + count
  opened : ports.socket port = some socket
  bound : ports.binds port = true
  taken : ∀ earlier : UInt16, first ≤ earlier.toNat → earlier < port →
    ports.socket earlier = none ∨ ports.binds earlier = false

section FirstOf

variable {first count : ℕ} {port : UInt16} {socket : ℕ}

/-- A number below 2^16 is a port. -/
theorem toNat_toUInt16 (h : first < 2 ^ 16) : first.toUInt16.toNat = first :=
  UInt16.toNat_ofNat_of_lt' h

/-- A port that can be listened at is the first one from itself on. -/
theorem firstOf_iff_of_free (hfirst : first < 2 ^ 16) {handle : ℕ}
    (hsocket : ports.socket first.toUInt16 = some handle)
    (hbinds : ports.binds first.toUInt16 = true) :
    FirstOf ports first (count + 1) port socket ↔ first.toUInt16 = port ∧ handle = socket := by
  have htoNat := toNat_toUInt16 hfirst
  constructor
  · intro h
    have hport : first.toUInt16 = port := by
      by_contra hne
      have hlt : first.toUInt16.toNat < port.toNat := by
        have hleast := h.least
        have hne' : first.toUInt16.toNat ≠ port.toNat := mt UInt16.toNat_inj.mp hne
        omega
      rcases h.taken first.toUInt16 htoNat.ge (UInt16.lt_iff_toNat_lt.mpr hlt) with hnone | hfalse
      · rw [hsocket] at hnone
        cases hnone
      · rw [hbinds] at hfalse
        cases hfalse
    have hopened := h.opened
    rw [← hport, hsocket] at hopened
    exact ⟨hport, Option.some.inj hopened⟩
  · rintro ⟨rfl, rfl⟩
    refine ⟨htoNat.ge, by omega, hsocket, hbinds, fun earlier hle hlt => ?_⟩
    have hlt' := UInt16.lt_iff_toNat_lt.mp hlt
    omega

/-- A port that cannot be listened at is passed over. -/
theorem firstOf_iff_of_taken (hfirst : first < 2 ^ 16)
    (htaken : ports.socket first.toUInt16 = none ∨ ports.binds first.toUInt16 = false) :
    FirstOf ports first (count + 1) port socket ↔ FirstOf ports (first + 1) count port socket := by
  have htoNat := toNat_toUInt16 hfirst
  have heq : ∀ other : UInt16, other.toNat = first → other = first.toUInt16 := fun other hother =>
    UInt16.toNat_inj.mp (hother.trans htoNat.symm)
  constructor
  · intro h
    have hne : port.toNat ≠ first := by
      intro hport
      have hopened := h.opened
      have hbound := h.bound
      rw [heq port hport] at hopened hbound
      rcases htaken with hnone | hfalse
      · rw [hopened] at hnone
        cases hnone
      · rw [hbound] at hfalse
        cases hfalse
    have hleast := h.least
    have hnear := h.near
    exact ⟨by omega, by omega, h.opened, h.bound, fun earlier hle hlt =>
      h.taken earlier (by omega) hlt⟩
  · intro h
    have hleast := h.least
    have hnear := h.near
    refine ⟨by omega, by omega, h.opened, h.bound, fun earlier hle hlt => ?_⟩
    by_cases hearlier : earlier.toNat = first
    · rw [heq earlier hearlier]
      exact htaken
    · exact h.taken earlier (by omega) hlt

end FirstOf

/-- The loop ends at the first port that can be listened at. -/
theorem startLoop_range'_eq_some_iff {count first : ℕ} (h : first + count ≤ 2 ^ 16) {port : UInt16}
    {socket : ℕ} :
    (WebDavServer.startLoop ports ((List.range' first count).map Nat.toUInt16)).1 =
      some (port, socket) ↔ FirstOf ports first count port socket := by
  induction count generalizing first with
  | zero =>
      refine iff_of_false (by simp [WebDavServer.startLoop]) fun hfirst => ?_
      have hleast := hfirst.least
      have hnear := hfirst.near
      omega
  | succ count ih =>
      have hlt : first < 2 ^ 16 := by omega
      have hrest := @ih (first + 1) (by omega)
      rw [List.range'_succ, List.map_cons]
      cases hsocket : ports.socket first.toUInt16 with
      | none =>
          rw [firstOf_iff_of_taken hlt (Or.inl hsocket), ← hrest]
          simp only [WebDavServer.startLoop, hsocket]
      | some handle =>
          cases hbinds : ports.binds first.toUInt16 with
          | true =>
              rw [firstOf_iff_of_free hlt hsocket hbinds]
              simp only [WebDavServer.startLoop, hsocket, hbinds, if_true, Option.some.injEq,
                Prod.mk.injEq]
          | false =>
              rw [firstOf_iff_of_taken hlt (Or.inr hbinds), ← hrest]
              simp only [WebDavServer.startLoop, hsocket, hbinds, Bool.false_eq_true, if_false]

/-- **The port.**  The first of the candidates that can be listened at. -/
theorem startLoop_eq_some_iff {preferredPort port : UInt16} {socket : ℕ} :
    (WebDavServer.startLoop ports (WebDavServer.candidates preferredPort)).1 =
      some (port, socket) ↔ FirstFree ports preferredPort port socket := by
  have hpreferred := preferredPort.toNat_lt
  have hsum : (preferredPort + 20).toNat = (preferredPort.toNat + 20) % 2 ^ 16 := by simp
  have hcount : preferredPort.toNat + ((preferredPort + 20).toNat - preferredPort.toNat) ≤
      2 ^ 16 := by omega
  rw [WebDavServer.candidates, startLoop_range'_eq_some_iff hcount]
  constructor
  · intro h
    have hleast := h.least
    have hnear := h.near
    exact ⟨by omega, UInt16.le_iff_toNat_le.mpr hleast, by omega, h.opened, h.bound,
      fun earlier hle hlt => h.taken earlier (UInt16.le_iff_toNat_le.mp hle) hlt⟩
  · intro h
    have hroom := h.room
    have hnear := h.near
    have hleast := UInt16.le_iff_toNat_le.mp h.least
    exact ⟨hleast, by omega, h.opened, h.bound, fun earlier hle hlt =>
      h.taken earlier (UInt16.le_iff_toNat_le.mpr hle) hlt⟩

end StartLoop

/-! ## One call -/

section Calls

variable (server : WebDavServer)

/-- A stop gives back what the server holds. -/
theorem balances_stop : Balances (heldByServer server) server.stop.2 0 := by
  obtain ⟨session, running, thread, port, listenSocket⟩ := server
  have hsocket : Balances (listenSocket.toList.map Resource.socket : Multiset Resource)
      (listenSocket.toList.map SystemCall.closeSocket) 0 := by
    cases listenSocket with
    | none => exact .nil 0
    | some handle => exact Settles.giveBack (Resource.socket handle) 0
  have hthread : Balances (if thread then {Resource.thread} else 0)
      (if thread then [SystemCall.joinThread] else []) 0 := by
    cases thread with
    | false => exact .nil 0
    | true => exact Settles.giveBack Resource.thread 0
  have hboth := balances_add_right hsocket (if thread then {Resource.thread} else 0)
  rw [zero_add] at hboth
  exact balances_append hboth hthread

/-- What a call of `start` does: the server is stopped, and then the first port that can be
listened at is, if there is one. -/
theorem start_cases (ports : Ports) (session : Option Index) (preferredPort : UInt16) :
    (∃ tried, Balances 0 tried 0 ∧ (∀ call ∈ tried, mapsLetter call = false) ∧ ∃ session',
      server.start ports session preferredPort =
        (.no, { WebDavServer.create with session := session' }, server.stop.2 ++ tried) ∧
      (session = none ∨ ports.wsaOk = false ∨
        ∀ port socket, ¬ FirstFree ports preferredPort port socket)) ∨
    ∃ index port socket tried, session = some index ∧ ports.wsaOk = true ∧
      FirstFree ports preferredPort port socket ∧ Balances 0 tried {Resource.socket socket} ∧
      (∀ call ∈ tried, mapsLetter call = false) ∧
      server.start ports session preferredPort =
        if ports.threadStarts then
          (.yes, listening index true port socket, server.stop.2 ++ tried ++ [.startThread])
        else (.thrown, listening index false port socket, server.stop.2 ++ tried) := by
  cases session with
  | none =>
      refine Or.inl ⟨[], .nil 0, nofun, none, ?_, Or.inl rfl⟩
      rw [List.append_nil]
      rfl
  | some index =>
      by_cases hwsa : ports.wsaOk = true
      swap
      · refine Or.inl ⟨[], .nil 0, nofun, some index, ?_, Or.inr (Or.inl (by simpa using hwsa))⟩
        rw [List.append_nil, WebDavServer.start]
        simp only [hwsa, WebDavServer.stop]
        rfl
      · have htried := @balances_startLoop ports (WebDavServer.candidates preferredPort)
        have hcalls := @mapsLetter_startLoop ports (WebDavServer.candidates preferredPort)
        have hfound := @startLoop_eq_some_iff ports preferredPort
        rcases hloop : WebDavServer.startLoop ports (WebDavServer.candidates preferredPort) with
          ⟨- | ⟨port, socket⟩, tried⟩
        · rw [hloop] at htried hcalls hfound
          refine Or.inl ⟨tried, htried, hcalls, none, ?_,
            Or.inr (Or.inr fun port socket hfree => ?_)⟩
          · simp only [WebDavServer.start, hwsa, not_true_eq_false, if_false, hloop]
            rfl
          · exact absurd (hfound.mpr hfree) nofun
        · rw [hloop] at htried hcalls hfound
          refine Or.inr ⟨index, port, socket, tried, rfl, hwsa, hfound.mp rfl, htried, hcalls, ?_⟩
          simp only [WebDavServer.start, hwsa, not_true_eq_false, if_false, hloop]
          rfl

/-- A server that listens holds its socket, and its thread if there is one. -/
theorem heldByServer_listening (session : Index) (thread : Bool) (port : UInt16) (socket : ℕ) :
    heldByServer (listening session thread port socket) =
      {Resource.socket socket} + if thread then {Resource.thread} else 0 := rfl

/-- A call of `start` keeps what is held in step. -/
theorem balances_start (ports : Ports) (session : Option Index) (preferredPort : UInt16) :
    Balances (heldByServer server) (server.start ports session preferredPort).2.2
      (heldByServer (server.start ports session preferredPort).2.1) := by
  have hstop := balances_stop server
  rcases start_cases server ports session preferredPort with
    ⟨tried, htried, -, session', heq, -⟩ |
      ⟨index, port, socket, tried, -, -, -, htried, -, heq⟩
  · rw [heq]
    exact balances_append hstop htried
  · rw [heq]
    have hopened := balances_append hstop htried
    cases ports.threadStarts with
    | false =>
        have hheld := heldByServer_listening index false port socket
        simp only [Bool.false_eq_true, if_false, add_zero] at hheld ⊢
        rwa [hheld]
    | true =>
        have hheld := heldByServer_listening index true port socket
        simp only [if_true] at hheld ⊢
        rw [hheld, add_comm]
        exact balances_append hopened (Settles.take Resource.thread _)

/-- A call keeps what is held in step. -/
theorem balances_callServer (call : ServerCall) :
    Balances (heldByServer server) (callServer server call).2
      (heldByServer (callServer server call).1) := by
  cases call with
  | start ports session preferredPort => exact balances_start server ports session preferredPort
  | stop => exact balances_stop server

/-- There is one first port that is free. -/
theorem firstFree_unique {ports : Ports} {preferredPort port port' : UInt16} {socket socket' : ℕ}
    (h : FirstFree ports preferredPort port socket)
    (h' : FirstFree ports preferredPort port' socket') : port' = port ∧ socket' = socket := by
  have heq := (startLoop_eq_some_iff.mpr h).symm.trans (startLoop_eq_some_iff.mpr h')
  obtain ⟨rfl, rfl⟩ := Prod.mk.inj (Option.some.inj heq)
  exact ⟨rfl, rfl⟩

/-- Only the last call says whether a server listens. -/
theorem listensAfter_callServer (earlier : List ServerCall) (call : ServerCall) :
    (∀ expected, ListensAfter (earlier ++ [call]) expected →
      (callServer server call).1 = expected) ∧
    ((callServer server call).1.running = true →
      ListensAfter (earlier ++ [call]) (callServer server call).1) := by
  have hlast : ∀ expected, ListensAfter (earlier ++ [call]) expected →
      ∃ ports session preferredPort port socket,
        call = .start ports (some session) preferredPort ∧ ports.wsaOk = true ∧
          FirstFree ports preferredPort port socket ∧
            expected = listening session ports.threadStarts port socket := by
    intro expected h
    generalize hcalls : earlier ++ [call] = calls at h
    obtain ⟨hwsa, hfree⟩ := h
    obtain ⟨-, hcall⟩ := List.append_inj' hcalls rfl
    exact ⟨_, _, _, _, _, List.singleton_injective hcall, hwsa, hfree, rfl⟩
  cases call with
  | stop =>
      refine ⟨fun expected h => ?_, nofun⟩
      obtain ⟨ports, session, preferredPort, port, socket, hcall, -⟩ := hlast expected h
      cases hcall
  | start ports session preferredPort =>
      rcases start_cases server ports session preferredPort with
        ⟨tried, -, -, session', heq, hnot⟩ |
          ⟨index, port, socket, tried, rfl, hwsa, hfree, -, -, heq⟩
      · have hserver : (callServer server (.start ports session preferredPort)).1 =
            { WebDavServer.create with session := session' } := by rw [callServer, heq]
        rw [hserver]
        refine ⟨fun expected h => ?_, nofun⟩
        obtain ⟨ports', index, preferredPort', port, socket, hcall, hwsa, hfree, -⟩ :=
          hlast expected h
        obtain ⟨rfl, rfl, rfl⟩ := ServerCall.start.inj hcall
        rcases hnot with hnone | hfalse | hnofree
        · cases hnone
        · rw [hwsa] at hfalse
          cases hfalse
        · exact absurd hfree (hnofree port socket)
      · have hserver : (callServer server (.start ports (some index) preferredPort)).1 =
            listening index ports.threadStarts port socket := by
          rw [callServer, heq]
          cases ports.threadStarts <;> rfl
        rw [hserver]
        refine ⟨fun expected h => ?_, fun _ => .started hwsa hfree⟩
        obtain ⟨ports', index', preferredPort', port', socket', hcall, -, hfree', rfl⟩ :=
          hlast expected h
        obtain ⟨rfl, hindex, rfl⟩ := ServerCall.start.inj hcall
        obtain ⟨rfl, rfl⟩ := firstFree_unique hfree hfree'
        rw [Option.some.inj hindex]

end Calls

/-! ## Runs -/

/-- A run of calls keeps what is held in step. -/
theorem balances_runServer (calls : List ServerCall) (server : WebDavServer) :
    Balances (heldByServer server) (runServer calls server).2
      (heldByServer (runServer calls server).1) := by
  induction calls generalizing server with
  | nil => exact .nil _
  | cons call rest ih => exact balances_append (balances_callServer server call) (ih _)

/-- The last call comes after the others. -/
theorem runServer_concat (calls : List ServerCall) (call : ServerCall) (server : WebDavServer) :
    (runServer (calls ++ [call]) server).1 = (callServer (runServer calls server).1 call).1 := by
  induction calls generalizing server with
  | nil => rfl
  | cons first rest ih => exact ih _

/-- **The lifetime of a server.**  After any calls on a server it holds the socket and the thread
that its fields name and nothing else of what it opened, and destroying it gives these back; and it
runs exactly when the last call is a start for which there is a port to listen at, and then it
listens at the first one, for that session.  The calls are those that return: `stop` waits for the
thread while that is in a call of `accept` or `recv`.
SRCLINE: WebDavServer.cpp:176-245 -/
theorem runServer_balances (calls : List ServerCall) :
    Balances 0 (runServer calls .create).2 (heldByServer (runServer calls .create).1) ∧
    Balances 0 ((runServer calls .create).2 ++ (runServer calls .create).1.stop.2) 0 ∧
    (∀ expected, ListensAfter calls expected → (runServer calls .create).1 = expected) ∧
    ((runServer calls .create).1.running = true →
      ListensAfter calls (runServer calls .create).1) := by
  have hheld := balances_runServer calls .create
  refine ⟨hheld, balances_append hheld (balances_stop _), ?_⟩
  rcases List.eq_nil_or_concat calls with rfl | ⟨earlier, call, rfl⟩
  · refine ⟨fun expected h => ?_, nofun⟩
    generalize hcalls : ([] : List ServerCall) = calls at h
    obtain ⟨-, -⟩ := h
    exact absurd hcalls (by simp)
  · rw [List.concat_eq_append, runServer_concat]
    exact listensAfter_callServer _ earlier call

end Vtfs.Analysis
