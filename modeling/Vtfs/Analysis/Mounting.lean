import Vtfs.Analysis.ServerLifetimes

/-!
# What is left when the program returns

`Accounts` is what every way through `mount` keeps: what was taken and not given back is held by
the fields of the provider, or is a device; the exit code says whether the letter was mapped; and a
connection is made only to a server that listens.  The provider is destroyed on every way out of
`App::run`, and gives back all that it holds, the connection if Windows cancels it
(`balances_destroy`).
-/

set_option autoImplicit false

namespace Vtfs.Analysis

open Vtfs.Library
open Vtfs.Model
open Vtfs.Interface

/-! ## Calls that map no letter -/

section Calls

variable {ports : Ports} {calls more : List SystemCall}

/-- Calls define devices one list after the other. -/
theorem devicesOf_append (calls more : List SystemCall) :
    devicesOf (calls ++ more) = devicesOf calls + devicesOf more := by
  simp [devicesOf]

/-- Calls that map no letter define no device. -/
theorem devicesOf_eq_zero (h : ∀ call ∈ calls, mapsLetter call = false) : devicesOf calls = 0 := by
  have hnone : calls.filterMap deviceOf = [] := by
    rw [List.filterMap_eq_nil_iff]
    intro call hcall
    have hmaps := h call hcall
    cases call with
    | defineDosDevice letter target => cases hmaps
    | _ => rfl
  rw [devicesOf, hnone]
  rfl

/-- Calls make connections one list after the other. -/
theorem connectionsOf_append (calls more : List SystemCall) :
    connectionsOf (calls ++ more) = connectionsOf calls + connectionsOf more := by
  simp [connectionsOf]

/-- Nor do they make a connection. -/
theorem connectionsOf_eq_zero (h : ∀ call ∈ calls, mapsLetter call = false) :
    connectionsOf calls = 0 := by
  have hnone : calls.filterMap connectionOf = [] := by
    rw [List.filterMap_eq_nil_iff]
    intro call hcall
    have hmaps := h call hcall
    cases call with
    | addConnection letter remoteName => cases hmaps
    | _ => rfl
  rw [connectionsOf, hnone]
  rfl

/-- Calls that make no connection may come after others. -/
theorem connectsToServer_append (h : ConnectsToServer ports calls)
    (hmore : ∀ letter remoteName, .addConnection letter remoteName ∉ more) :
    ConnectsToServer ports (calls ++ more) := by
  rintro before letter remoteName ⟨after, heq⟩
  rcases List.append_eq_append_iff.mp heq with ⟨rest, hcalls, -⟩ | ⟨rest, hbefore, hrest⟩
  · exact h before letter remoteName ⟨rest, hcalls.symm⟩
  · rcases List.eq_nil_or_concat rest with rfl | ⟨front, last, rfl⟩
    · rw [List.append_nil] at hbefore
      exact h before letter remoteName (hbefore ▸ List.prefix_rfl)
    · -- the connection would be one of the other calls
      rw [List.concat_eq_append, ← List.append_assoc] at hbefore
      obtain ⟨-, hlast⟩ := List.append_inj' hbefore rfl
      refine absurd ?_ (hmore letter remoteName)
      rw [hrest, List.concat_eq_append, ← List.singleton_injective hlast]
      simp

/-- Where no call maps a letter, none connects one. -/
theorem not_mem_of_mapsLetter (h : ∀ call ∈ calls, mapsLetter call = false) (letter : UInt16)
    (remoteName : Wide) : .addConnection letter remoteName ∉ calls := fun hmem => by
  cases h _ hmem

/-- Where no call maps a letter, nothing is connected wrongly. -/
theorem connectsToServer_of_none (h : ∀ call ∈ calls, mapsLetter call = false) :
    ConnectsToServer ports calls := by
  have hnil : ConnectsToServer ports [] := fun before letter remoteName hprefix =>
    absurd (List.prefix_nil.mp hprefix) (by simp)
  exact connectsToServer_append hnil (not_mem_of_mapsLetter h)

/-- A connection to a server that listens, after calls that made none. -/
theorem connectsToServer_concat (h : ConnectsToServer ports calls) {letter port : UInt16}
    {socket : ℕ} (hfree : FirstFree ports defaultPort port socket) {held : Multiset Resource}
    (hheld : Balances 0 calls held) (hsocket : .socket socket ∈ held) (hthread : .thread ∈ held) :
    ConnectsToServer ports (calls ++ [.addConnection letter (webDavRemoteName port)]) := by
  intro before letter' remoteName hprefix
  rcases List.prefix_concat_iff.mp hprefix with heq | hcalls
  · obtain ⟨rfl, hlast⟩ := List.append_inj' heq rfl
    cases hlast
    exact ⟨port, socket, held, rfl, hfree, hheld, hsocket, hthread⟩
  · exact h before letter' remoteName hcalls

end Calls

/-! ## Destroying the provider -/

section Provider

variable (answers : WindowsAnswers) (provider : DriveProvider)

/-- The connection is given back if Windows cancels it. -/
theorem balances_cancelConnection : Balances (connectionHeld provider)
    (if provider.webDavMapped ∧ answers.cancelConnection then
      [.cancelConnection provider.mappedDriveLetter] else [])
    (if answers.cancelConnection then 0 else connectionHeld provider) := by
  unfold connectionHeld
  cases provider.webDavMapped with
  | false =>
      have hnothing : Balances 0 [] 0 := .nil 0
      simpa using hnothing
  | true =>
      cases answers.cancelConnection with
      | false => exact .nil _
      | true => exact Settles.giveBack (Resource.connection provider.mappedDriveLetter) 0

/-- All that a provider holds is given back but for a connection that is not cancelled. -/
theorem balances_destroy : Balances (heldByProvider provider) (provider.destroy answers)
    (if answers.cancelConnection then 0 else connectionHeld provider) := by
  have hconnection := balances_cancelConnection answers provider
  obtain ⟨session, namespaceHandle, webDav, webDavMapped, letter⟩ := provider
  have hvirtual : Balances (namespaceHandle.toList.map Resource.virtualization : List Resource)
      (namespaceHandle.toList.map SystemCall.stopVirtualizing) 0 := by
    cases namespaceHandle with
    | none => exact .nil 0
    | some handle => exact Settles.giveBack (Resource.virtualization handle) 0
  have hserver := balances_add_right (balances_stop webDav)
    (namespaceHandle.toList.map Resource.virtualization : List Resource)
  rw [zero_add] at hserver
  have hrest := balances_append hserver hvirtual
  have hfirst := balances_add_right hconnection
    (heldByServer webDav + (namespaceHandle.toList.map Resource.virtualization : List Resource))
  have hafter := balances_add_right hrest (if answers.cancelConnection then 0 else
    connectionHeld ⟨session, namespaceHandle, webDav, webDavMapped, letter⟩)
  rw [zero_add, add_comm] at hafter
  have hall := balances_append hfirst hafter
  rw [← List.append_assoc] at hall
  exact hall

/-- The virtualization is given back, and nothing else. -/
theorem balances_stopVirtualizing : Balances (heldByProvider provider)
    (provider.namespaceHandle.toList.map .stopVirtualizing)
    (heldByProvider { provider with namespaceHandle := none }) := by
  obtain ⟨session, namespaceHandle, webDav, webDavMapped, letter⟩ := provider
  cases namespaceHandle with
  | none => exact .nil _
  | some handle =>
      have hgive : Balances {Resource.virtualization handle} [.stopVirtualizing handle] 0 :=
        Settles.giveBack (Resource.virtualization handle) 0
      have hall := balances_add_right hgive
        (heldByProvider ⟨session, none, webDav, webDavMapped, letter⟩)
      have hheld : heldByProvider ⟨session, some handle, webDav, webDavMapped, letter⟩ =
          {Resource.virtualization handle} +
            heldByProvider ⟨session, none, webDav, webDavMapped, letter⟩ := by
        rw [add_comm]
        simp only [heldByProvider, connectionHeld, Option.toList_some, Option.toList_none,
          List.map_cons, List.map_nil, Multiset.coe_nil, Multiset.coe_singleton, add_zero,
          add_assoc]
      rw [zero_add] at hall
      rw [hheld]
      exact hall

/-- The stop of a server maps no letter. -/
theorem mapsLetter_stop (server : WebDavServer) :
    ∀ call ∈ server.stop.2, mapsLetter call = false := by
  intro call hcall
  rcases List.mem_append.mp hcall with hcall | hcall
  · obtain ⟨handle, -, rfl⟩ := List.mem_map.mp hcall
    rfl
  · split at hcall
    · rw [List.mem_singleton.mp hcall]
      rfl
    · cases hcall

/-- The end of the projection maps no letter. -/
theorem mapsLetter_stopVirtualizing (handles : List ℕ) :
    ∀ call ∈ handles.map SystemCall.stopVirtualizing, mapsLetter call = false := by
  intro call hcall
  obtain ⟨handle, -, rfl⟩ := List.mem_map.mp hcall
  rfl

/-- The destructor maps no letter. -/
theorem mapsLetter_destroy : ∀ call ∈ provider.destroy answers, mapsLetter call = false := by
  refine List.forall_mem_append.mpr ⟨List.forall_mem_append.mpr ⟨fun call hcall => ?_,
    mapsLetter_stop provider.webDav⟩, mapsLetter_stopVirtualizing _⟩
  split at hcall
  · rw [List.mem_singleton.mp hcall]
    rfl
  · cases hcall

end Provider

/-! ## Mounting -/

/-- What a call of `mount` keeps. -/
structure Accounts (ports : Ports) (mounted : Mounted) : Prop where
  balances : Balances 0 mounted.calls (heldByProvider mounted.provider + devicesOf mounted.calls)
  connection : connectionHeld mounted.provider = connectionsOf mounted.calls
  code_iff : mounted.code = some 0 ↔ mounted.calls.any mapsLetter = true
  code_le : mounted.code.getD 1 ≤ 1
  connects : ConnectsToServer ports mounted.calls

/-- A way out with an error, or an exception, before the letter is mapped. -/
theorem accounts_of_none {ports : Ports} {code : Option ℕ} {provider : DriveProvider}
    {calls : List SystemCall}
    (hcode : code ≠ some 0) (hle : code.getD 1 ≤ 1) (hmapped : provider.webDavMapped = false)
    (hbalances : Balances 0 calls (heldByProvider provider))
    (hnone : ∀ call ∈ calls, mapsLetter call = false) : Accounts ports ⟨code, provider, calls⟩ := by
  refine ⟨?_, ?_, iff_of_false hcode ?_, hle, connectsToServer_of_none hnone⟩
  · rw [devicesOf_eq_zero hnone, add_zero]
    exact hbalances
  · rw [connectionsOf_eq_zero hnone, connectionHeld, hmapped]
    rfl
  · simp only [List.any_eq_true, not_exists, not_and, Bool.not_eq_true]
    exact hnone

/-- The letter is mapped to the directory, or nothing is left of what was started. -/
theorem accounts_mapDriveLetter {ports : Ports} {answers : WindowsAnswers}
    {provider : DriveProvider} {letter : UInt16} {root : Wide} {calls : List SystemCall}
    (hmapped : provider.webDavMapped = false)
    (hbalances : Balances 0 calls (heldByProvider provider))
    (hnone : ∀ call ∈ calls, mapsLetter call = false) :
    Accounts ports { provider.mapDriveLetter answers letter root with
      calls := calls ++ (provider.mapDriveLetter answers letter root).calls } := by
  unfold DriveProvider.mapDriveLetter
  split
  · refine ⟨?_, ?_, iff_of_true rfl (by simp [mapsLetter]), Nat.zero_le _,
      connectsToServer_append (connectsToServer_of_none hnone) (by simp)⟩
    · have hdevices : devicesOf (calls ++ [.defineDosDevice letter (makeDosTarget root)]) =
          {Resource.device letter (makeDosTarget root)} := by
        rw [devicesOf_append, devicesOf_eq_zero hnone, zero_add]
        rfl
      rw [hdevices, add_comm]
      exact balances_append hbalances (Settles.take _ _)
    · rw [connectionsOf_append, connectionsOf_eq_zero hnone, connectionHeld, hmapped]
      rfl
  · exact accounts_of_none (by simp) le_rfl hmapped
      (balances_append hbalances (balances_stopVirtualizing provider))
      (List.forall_mem_append.mpr ⟨hnone, mapsLetter_stopVirtualizing _⟩)

/-! ## The fallback -/

/-- A provider of which nothing has been started. -/
def idle (session : Index) : DriveProvider :=
  { DriveProvider.create with session := some session }

/-- A provider of which the server was asked to start. -/
def withServer (session : Index) (webDav : WebDavServer) : DriveProvider :=
  { idle session with webDav }

/-- A provider with a server holds what the server does. -/
theorem heldByProvider_withServer (session : Index) (webDav : WebDavServer) :
    heldByProvider (withServer session webDav) = heldByServer webDav := by
  simp [heldByProvider, connectionHeld, withServer, idle, DriveProvider.create]

/-- The server is started, and if it runs it has a thread unless none could be made. -/
theorem startWebDavFallback_cases (answers : WindowsAnswers) (session : Index) :
    ∃ started webDav calls, (idle session).startWebDavFallback answers =
        (started, withServer session webDav, calls) ∧
      Balances 0 calls (heldByServer webDav) ∧ (∀ call ∈ calls, mapsLetter call = false) ∧
      (started ≠ .thrown → webDav.running = true → ∃ socket,
        FirstFree answers.ports defaultPort webDav.port socket ∧
          webDav = listening session true webDav.port socket) := by
  have hstart : (idle session).startWebDavFallback answers =
      ((WebDavServer.create.start answers.ports (some session) defaultPort).1,
        withServer session (WebDavServer.create.start answers.ports (some session) defaultPort).2.1,
        (WebDavServer.create.start answers.ports (some session) defaultPort).2.2) := rfl
  have hbalances := balances_start WebDavServer.create answers.ports (some session) defaultPort
  refine ⟨_, _, _, hstart, hbalances, ?_⟩
  rcases start_cases WebDavServer.create answers.ports (some session) defaultPort with
    ⟨tried, -, hnone, session', heq, -⟩ |
      ⟨index, port, socket, tried, hindex, -, hfree, -, hnone, heq⟩
  · rw [heq]
    exact ⟨List.forall_mem_append.mpr ⟨mapsLetter_stop _, hnone⟩, fun _ hrunning => by
      cases hrunning⟩
  · have hcalls : ∀ call ∈ WebDavServer.create.stop.2 ++ tried, mapsLetter call = false :=
      List.forall_mem_append.mpr ⟨mapsLetter_stop _, hnone⟩
    rw [heq]
    cases ports : answers.ports.threadStarts with
    | true =>
        refine ⟨List.forall_mem_append.mpr ⟨hcalls, ?_⟩, fun _ _ => ⟨socket, hfree, ?_⟩⟩
        · simp [mapsLetter]
        · rw [Option.some.inj hindex]
          rfl
    | false => exact ⟨hcalls, fun hthrown => absurd rfl hthrown⟩

/-- The worker that materializes files has ended. -/
theorem balances_materializeFallbackTree (answers : WindowsAnswers) (files : ℕ) :
    Balances 0 (DriveProvider.materializeFallbackTree answers files).2 0 ∧
      ∀ call ∈ (DriveProvider.materializeFallbackTree answers files).2,
        mapsLetter call = false := by
  unfold DriveProvider.materializeFallbackTree
  split
  · exact ⟨.nil 0, nofun⟩
  · split
    · exact ⟨.nil 0, nofun⟩
    · exact ⟨.taken (.returned (.nil 0)), by simp [mapsLetter]⟩

/-- What is held after the connection to a server: the connection besides. -/
theorem heldByProvider_connected (session : Index) (webDav : WebDavServer) (letter : UInt16) :
    heldByProvider { withServer session webDav with
      webDavMapped := true, mappedDriveLetter := letter } =
        Resource.connection letter ::ₘ heldByServer webDav := by
  simp [heldByProvider, connectionHeld, withServer, idle, DriveProvider.create]

/-- The letter is not connected, or it is while the server runs. -/
theorem tryMountWebDavDrive_cases (answers : WindowsAnswers) (provider : DriveProvider)
    (letter : UInt16) :
    provider.tryMountWebDavDrive answers letter = (false, provider, []) ∨
      provider.webDav.running = true ∧ provider.tryMountWebDavDrive answers letter =
        (true, { provider with webDavMapped := true, mappedDriveLetter := letter },
          [.addConnection letter (webDavRemoteName provider.webDav.port)]) := by
  unfold DriveProvider.tryMountWebDavDrive
  split
  · exact Or.inl rfl
  · rename_i hrunning
    dsimp only
    split
    · exact Or.inr ⟨by simpa using hrunning, rfl⟩
    · exact Or.inl rfl

/-- The accounts after the connection or the directory that stands in for it. -/
theorem accounts_connectOrMaterialize {answers : WindowsAnswers} {session : Index}
    {webDav : WebDavServer} {letter : UInt16} {root : Wide} {files : ℕ} {calls : List SystemCall}
    (hbalances : Balances 0 calls (heldByServer webDav))
    (hnone : ∀ call ∈ calls, mapsLetter call = false)
    (hlistening : webDav.running = true → ∃ socket,
      FirstFree answers.ports defaultPort webDav.port socket ∧
        webDav = listening session true webDav.port socket) :
    Accounts answers.ports
      { (withServer session webDav).connectOrMaterialize answers letter root files with
      calls := calls ++
        ((withServer session webDav).connectOrMaterialize answers letter root files).calls } := by
  have hheld := heldByProvider_withServer session webDav
  rcases tryMountWebDavDrive_cases answers (withServer session webDav) letter with
    htry | ⟨hrunning, htry⟩
  · obtain ⟨hworker, hworkernone⟩ := balances_materializeFallbackTree answers files
    have hbefore : Balances 0 (calls ++ (DriveProvider.materializeFallbackTree answers files).2)
        (heldByProvider (withServer session webDav)) := by
      have hafter := balances_add_right hworker (heldByServer webDav)
      rw [zero_add] at hafter
      rw [hheld]
      exact balances_append hbalances hafter
    have hcalls := List.forall_mem_append.mpr ⟨hnone, hworkernone⟩
    simp only [DriveProvider.connectOrMaterialize, htry]
    rcases hmaterialize : DriveProvider.materializeFallbackTree answers files with
      ⟨- | - | -, worker⟩
    · rw [hmaterialize] at hbefore hcalls
      exact accounts_of_none nofun le_rfl rfl hbefore hcalls
    · rw [hmaterialize] at hbefore hcalls
      exact accounts_of_none (by simp) le_rfl rfl hbefore hcalls
    · rw [hmaterialize] at hbefore hcalls
      have hmapped : Accounts answers.ports { (withServer session webDav).mapDriveLetter answers
          letter root with calls := _ } := accounts_mapDriveLetter rfl hbefore hcalls
      rw [List.append_assoc] at hmapped
      exact hmapped
  · obtain ⟨socket, hfree, hwebDav⟩ := hlistening hrunning
    have hserver : heldByServer webDav = {Resource.socket socket} + {Resource.thread} := by
      rw [hwebDav]
      rfl
    have hsocket : Resource.socket socket ∈ heldByServer webDav := by simp [hserver]
    have hthread : Resource.thread ∈ heldByServer webDav := by simp [hserver]
    simp only [DriveProvider.connectOrMaterialize, htry]
    refine ⟨?_, ?_, iff_of_true rfl (by simp [mapsLetter]), Nat.zero_le _,
      connectsToServer_concat (connectsToServer_of_none hnone) hfree hbalances hsocket hthread⟩
    · have hdevices : devicesOf (calls ++ [.addConnection letter
          (webDavRemoteName (withServer session webDav).webDav.port)]) = 0 := by
        rw [devicesOf_append, devicesOf_eq_zero hnone]
        rfl
      rw [hdevices, add_zero, heldByProvider_connected]
      exact balances_append hbalances (Settles.take _ _)
    · rw [connectionsOf_append, connectionsOf_eq_zero hnone, zero_add]
      rfl

/-- The accounts after the fallback. -/
theorem accounts_mountFallback (answers : WindowsAnswers) (session : Index) (letter : UInt16)
    (root : Wide) (files : ℕ) :
    Accounts answers.ports ((idle session).mountFallback answers letter root files) := by
  obtain ⟨started, webDav, calls, hstart, hbalances, hnone, hthread⟩ :=
    startWebDavFallback_cases answers session
  rw [DriveProvider.mountFallback, hstart]
  cases started with
  | thrown =>
      rw [← heldByProvider_withServer session webDav] at hbalances
      exact accounts_of_none nofun le_rfl rfl hbalances hnone
  | yes => exact accounts_connectOrMaterialize hbalances hnone (hthread nofun)
  | no => exact accounts_connectOrMaterialize hbalances hnone (hthread nofun)

/-- **Mounting.**  Every way through `mount` accounts for what it took. -/
theorem accounts_mount (answers : WindowsAnswers) (session : Index) (letter : UInt16)
    (root : Wide) (files : ℕ) :
    Accounts answers.ports (DriveProvider.create.mount answers session letter root files) := by
  have hfallback := accounts_mountFallback answers session letter root files
  unfold DriveProvider.mount
  dsimp only
  split
  · exact accounts_of_none (by simp) le_rfl rfl (.nil 0) nofun
  · split
    · exact hfallback
    · split
      · exact hfallback
      · refine @accounts_mapDriveLetter _ _ _ _ _ [.startVirtualizing answers.virtualization] rfl
          ?_ ?_
        · exact Settles.take (Resource.virtualization answers.virtualization) 0
        · simp [mapsLetter]

/-- **Nothing stays mounted.**  Whatever Windows answers, when `App::run` returns everything that
was taken has been given back but for a device that was defined, and for the connection of the
letter if Windows does not cancel it: the projected file system, the server and the threads are
gone, although the exit code is 0 exactly when the letter was mapped.  A letter is connected only
while the server listens at the first port that it can.  Elsewhere nothing is mounted, and the code
is 2.
SRCLINE: App.cpp:11-22, VirtualDrive.cpp:257-347, VirtualDrive.cpp:393-479 -/
theorem run_balances (config : ProgramConfig) (metadata : TorrentMetadata) :
    (∀ answers pathText, ∃ exit, App.run (.windows answers pathText) config (some metadata) = exit ∧
      Balances 0 exit.calls (leftBehind answers exit.calls) ∧
      (exit.code = 0 ↔ exit.calls.any mapsLetter = true) ∧ exit.code ≤ 1 ∧
      ConnectsToServer answers.ports exit.calls) ∧
    App.run .other config (some metadata) = { code := 2, calls := [] } := by
  refine ⟨fun answers pathText => ⟨_, rfl, ?_⟩, rfl⟩
  have haccounts := accounts_mount answers (buildIndex metadata.files) config.driveLetter.toUInt16
    (WindowsPath.append (pathText config.cacheDirectory) (wideText ".projfs-root"))
    metadata.files.length
  simp only [App.run, App.mountDrive]
  set mounted := DriveProvider.create.mount answers (buildIndex metadata.files)
    config.driveLetter.toUInt16
    (WindowsPath.append (pathText config.cacheDirectory) (wideText ".projfs-root"))
    metadata.files.length
  have hnone := mapsLetter_destroy answers mounted.provider
  have hdestroy := balances_add_right (balances_destroy answers mounted.provider)
    (devicesOf mounted.calls)
  refine ⟨?_, ?_, haccounts.code_le, ?_⟩
  · rw [leftBehind, devicesOf_append, devicesOf_eq_zero hnone, add_zero, connectionsOf_append,
      connectionsOf_eq_zero hnone, add_zero, ← haccounts.connection, add_comm]
    exact balances_append haccounts.balances hdestroy
  · have hcode : mounted.code.getD 1 = 0 ↔ mounted.code = some 0 := by
      cases mounted.code <;> simp
    have hany : (mounted.provider.destroy answers).any mapsLetter = false := by
      simpa only [List.any_eq_false, Bool.not_eq_true] using hnone
    rw [hcode, haccounts.code_iff, List.any_append, hany, Bool.or_false]
  · exact connectsToServer_append haccounts.connects (not_mem_of_mapsLetter hnone)

end Vtfs.Analysis
