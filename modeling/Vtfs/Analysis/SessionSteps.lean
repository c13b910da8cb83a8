import Vtfs.Interface.Hydration

/-!
# What an action of a session does

`next_cases` says once what an action can do; what the invariants of a session need is read off it.
Where a thread only goes on, it has claimed nothing before or after (`GoesOn`).
-/

set_option autoImplicit false

namespace Vtfs.Analysis

open Vtfs.Library
open Vtfs.Model
open Vtfs.Interface

/-- The request that a thread at this place will put into the queue. -/
def requestAt : Location → Option StreamRequest
  | .touch _ request | .evictIfNeeded _ request | .requestFileData request => some request
  | .ensureWebSeedDownload _ request | .insert _ request | .spawn _ request => request
  | _ => none

/-- A thread goes on, or returns, without a claim and with the request it has. -/
structure GoesOn (location : Location) (next : Option Location) : Prop where
  unclaimed : claimOf location = none
  claimsNothing : next.bind claimOf = none
  request : ∀ request, next.bind requestAt = some request → requestAt location = some request

/-- What the next step of a thread does. -/
inductive Proceeds (s : TorrentSession) (t : ℕ) (outside : Outside) :
    Location → TorrentSession → Prop where
  | goesOn {location : Location} {next : Option Location} : GoesOn location next →
      Proceeds s t outside location (s.moveTo t next)
  | touch (entry : FileEntry) (request : StreamRequest) :
      Proceeds s t outside (.touch entry request)
        ({ s with cacheManager := s.cacheManager.touch entry.virtualPath entry.size }.moveTo t
          (some (.evictIfNeeded entry request)))
  | evictIfNeeded (entry : FileEntry) (request : StreamRequest) :
      Proceeds s t outside (.evictIfNeeded entry request)
        ({ s with
            cacheManager := s.cacheManager.evictIfNeeded.1
            disk := removeAll outside.removes s.disk s.cacheManager.evictIfNeeded.2 }.moveTo t
          (some (.ensureWebSeedDownload entry (some request))))
  | insert (entry : FileEntry) (request : Option StreamRequest) :
      entry.virtualPath ∉ s.webSeedInFlight → Proceeds s t outside (.insert entry request)
        ({ s with webSeedInFlight := s.webSeedInFlight ++ [entry.virtualPath] }.moveTo t
          (some (.spawn entry request)))
  | spawn (entry : FileEntry) (request : Option StreamRequest) :
      s.threads outside.thread = none → Proceeds s t outside (.spawn entry request)
        ((s.moveTo outside.thread (some (.downloadFile entry))).moveTo t
          (request.map .requestFileData))
  | requestFileData (request : StreamRequest) :
      Proceeds s t outside (.requestFileData request)
        ({ s with engine := s.engine.requestFileData request }.moveTo t (some .pumpOnce))
  | pumpOnce (engine : TorrentEngine) (frames : List Bytes) :
      s.engine.pumpOnce outside.announced outside.peers = .ok (engine, frames) →
      Proceeds s t outside .pumpOnce ({ s with engine }.moveTo t none)
  | downloadFile (entry : FileEntry) :
      Proceeds s t outside (.downloadFile entry)
        ({ s with disk := (downloadOf s outside entry).2 }.moveTo t (some (.erase entry)))
  | erase (entry : FileEntry) :
      Proceeds s t outside (.erase entry)
        ({ s with webSeedInFlight :=
            s.webSeedInFlight.filter (· ≠ entry.virtualPath) }.moveTo t none)

section Steps

variable {s later : TorrentSession} {t : ℕ} {outside : Outside}

/-- A thread that is about to ask claims nothing. -/
theorem claimOf_afterwards (request : Option StreamRequest) :
    (request.map Location.requestFileData).bind claimOf = none := by
  cases request <;> rfl

/-- It is about to ask for the request. -/
theorem requestAt_afterwards (request : Option StreamRequest) :
    (request.map Location.requestFileData).bind requestAt = request := by
  cases request <;> rfl

/-- A thread without a claim may go on to ask. -/
theorem goesOn_afterwards {location : Location} (hclaim : claimOf location = none) :
    GoesOn location ((requestAt location).map .requestFileData) where
  unclaimed := hclaim
  claimsNothing := claimOf_afterwards _
  request := fun request hrequest => by rwa [requestAt_afterwards] at hrequest

/-- One step of a thread. -/
theorem proceed_cases {location : Location} (h : s.proceed t outside location = some later) :
    Proceeds s t outside location later := by
  cases location with
  | touch entry request =>
      obtain rfl := Option.some.inj h
      exact .touch entry request
  | evictIfNeeded entry request =>
      obtain rfl := Option.some.inj h
      exact .evictIfNeeded entry request
  | findFile entry =>
      simp only [TorrentSession.proceed] at h
      split at h
      · obtain rfl := Option.some.inj h
        exact .goesOn ⟨rfl, rfl, fun _ hrequest => by cases hrequest⟩
      · obtain rfl := Option.some.inj h
        exact .goesOn ⟨rfl, rfl, fun _ hrequest => by cases hrequest⟩
  | ensureWebSeedDownload entry request =>
      simp only [TorrentSession.proceed] at h
      split at h
      · obtain rfl := Option.some.inj h
        exact .goesOn (goesOn_afterwards rfl)
      · obtain rfl := Option.some.inj h
        exact .goesOn ⟨rfl, rfl, fun _ hrequest => hrequest⟩
  | insert entry request =>
      simp only [TorrentSession.proceed] at h
      split at h
      · obtain rfl := Option.some.inj h
        exact .goesOn (goesOn_afterwards rfl)
      · next hfree =>
        obtain rfl := Option.some.inj h
        exact .insert entry request hfree
  | spawn entry request =>
      simp only [TorrentSession.proceed, Option.ite_none_left_eq_some] at h
      obtain ⟨hnew, hsome⟩ := h
      obtain rfl := Option.some.inj hsome
      exact .spawn entry request (by simpa using hnew)
  | requestFileData request =>
      obtain rfl := Option.some.inj h
      exact .requestFileData request
  | pumpOnce =>
      simp only [TorrentSession.proceed] at h
      split at h
      · next engine frames hpump =>
        obtain rfl := Option.some.inj h
        exact .pumpOnce engine frames hpump
      · cases h
  | downloadFile entry =>
      obtain rfl := Option.some.inj h
      exact .downloadFile entry
  | erase entry =>
      obtain rfl := Option.some.inj h
      exact .erase entry

/-- A condition on a step is one on what the thread meets and where it is. -/
theorem atStep_proceed {location : Location} (h : s.threads t = some location)
    (P : Outside → Location → Prop) : AtStep s P (.proceed t outside) ↔ P outside location := by
  simp [AtStep, h]

/-- A call leaves the session as it is, or lets the thread go on to a place without a claim. -/
def Enters (s : TorrentSession) (t : ℕ) (later : TorrentSession) : Prop :=
  later = s ∨ ∃ location, later = s.moveTo t (some location) ∧ claimOf location = none

/-- A call of `queueRead` brings the thread into the function, or does nothing. -/
theorem enters_queueRead (entry : FileEntry) (offset : UInt64) (length : UInt32) :
    Enters s t (s.queueRead t entry offset length) := by
  unfold TorrentSession.queueRead
  split
  · exact Or.inl rfl
  · exact Or.inr ⟨_, rfl, rfl⟩

/-- So does one of `tryReadFileRange`. -/
theorem enters_tryReadFileRange (entry : FileEntry) (offset : UInt64) :
    Enters s t (s.tryReadFileRange t entry offset) := by
  unfold TorrentSession.tryReadFileRange
  split
  · exact Or.inl rfl
  · exact Or.inr ⟨_, rfl, rfl⟩

/-- What an action can do: a thread that is in no function calls one, or a thread takes its next
step. -/
theorem next_cases {a : Action} (h : s.next a = some later) :
    (∃ t, s.threads t = none ∧ Enters s t later ∧ ∀ u outside, a ≠ .proceed u outside) ∨
    ∃ t outside location, a = .proceed t outside ∧ s.threads t = some location ∧
      Proceeds s t outside location later := by
  cases a with
  | queueRead t entry offset length =>
      simp only [TorrentSession.next, Option.ite_none_left_eq_some, Option.some.injEq] at h
      obtain ⟨hnone, rfl⟩ := h
      exact Or.inl ⟨t, by simpa using hnone, enters_queueRead _ _ _, by simp⟩
  | beginStreaming t entry offset length =>
      simp only [TorrentSession.next, Option.ite_none_left_eq_some, Option.some.injEq] at h
      obtain ⟨hnone, rfl⟩ := h
      exact Or.inl ⟨t, by simpa using hnone, enters_queueRead _ _ _, by simp⟩
  | tryReadFileRange t entry offset =>
      simp only [TorrentSession.next, Option.ite_none_left_eq_some, Option.some.injEq] at h
      obtain ⟨hnone, rfl⟩ := h
      exact Or.inl ⟨t, by simpa using hnone, enters_tryReadFileRange _ _, by simp⟩
  | proceed t outside =>
      obtain ⟨location, hlocation, hproceed⟩ := Option.bind_eq_some_iff.mp h
      exact Or.inr ⟨t, outside, location, rfl, hlocation, proceed_cases hproceed⟩

end Steps

/-! ## A thread alone -/

section Alone

variable {s : TorrentSession} {t : ℕ} {outside : Outside} {entry : FileEntry}

/-- The action of a thread is its step. -/
theorem next_proceed {location : Location} {later : TorrentSession}
    (h : s.threads t = some location) (hproceed : s.proceed t outside location = some later) :
    s.next (.proceed t outside) = some later := by
  rw [TorrentSession.next, h]
  exact hproceed

/-- The thread is where it moved. -/
theorem moveTo_threads (s : TorrentSession) (t : ℕ) (location : Option Location) :
    (s.moveTo t location).threads t = location := Function.update_self _ _ _

/-- A read that no other thread interrupts leaves the cache manager of `queueRead`. -/
theorem queueRead_alone {offset : UInt64} {length : UInt32} (hnone : s.threads t = none)
    (hreads : ¬ (entry.isDirectory = true ∨ length = 0 ∨ entry.size ≤ offset)) :
    ∃ later, endOf TorrentSession.next s [.queueRead t entry offset length, .proceed t outside,
        .proceed t outside] = some later ∧
      later.cacheManager = (queueRead s.cacheManager entry offset length).1 ∧
      later.threads t =
        some (.ensureWebSeedDownload entry (some ⟨entry.index, offset, length⟩)) := by
  set request : StreamRequest := ⟨entry.index, offset, length⟩ with hrequest
  set called := s.moveTo t (some (.touch entry request)) with hcalled
  set touched := ({ called with
    cacheManager := s.cacheManager.touch entry.virtualPath entry.size } : TorrentSession).moveTo t
      (some (.evictIfNeeded entry request)) with htouched
  have hcall : s.next (.queueRead t entry offset length) = some called := by
    simp [TorrentSession.next, hnone, TorrentSession.queueRead, hreads, hcalled, hrequest]
  have htouch : called.next (.proceed t outside) = some touched :=
    next_proceed (moveTo_threads s t _) rfl
  refine ⟨_, ?_, ?_, moveTo_threads
    { touched with
      cacheManager := touched.cacheManager.evictIfNeeded.1
      disk := removeAll outside.removes s.disk touched.cacheManager.evictIfNeeded.2 } t _⟩
  · rw [endOf_cons hcall, endOf_cons htouch]
    exact endOf_cons (next_proceed (moveTo_threads _ t _) rfl) []
  · rw [Model.queueRead, if_neg hreads]
    rfl

/-- The call as a whole, with the tests in order. -/
theorem ensureWebSeedDownload_eq (s : TorrentSession) (entry : FileEntry) :
    ensureWebSeedDownload s.webSeedClient s.disk s.webSeedInFlight s.cacheDirectory entry =
      if entry.isDirectory ∨ ¬ s.webSeedClient.enabled ∨ s.hasFile entry then
        (s.webSeedInFlight, none)
      else if entry.virtualPath ∈ s.webSeedInFlight then (s.webSeedInFlight, none)
      else (s.webSeedInFlight ++ [entry.virtualPath],
        some (payloadPathFor s.cacheDirectory entry)) := by
  unfold ensureWebSeedDownload
  by_cases hwanted : entry.isDirectory = true ∨ ¬ s.webSeedClient.enabled = true
  · rw [if_pos hwanted, if_pos (or_assoc.mp (Or.inl hwanted))]
  · rw [if_neg hwanted]
    by_cases hfile : s.hasFile entry = true
    · rw [if_pos (or_assoc.mp (Or.inr hfile))]
      exact if_pos hfile
    · rw [if_neg fun h => (or_assoc.mpr h).elim hwanted hfile]
      exact if_neg hfile

/-- A thread that no other thread interrupts claims what `ensureWebSeedDownload` does, and starts a
download when this function does. -/
theorem ensureWebSeedDownload_alone {request : Option StreamRequest}
    (hat : s.threads t = some (.ensureWebSeedDownload entry request))
    (hnew : s.threads outside.thread = none) :
    ∃ n later, endOf TorrentSession.next s (List.replicate n (.proceed t outside)) = some later ∧
      later.threads t = request.map .requestFileData ∧
      later.webSeedInFlight = (ensureWebSeedDownload s.webSeedClient s.disk s.webSeedInFlight
        s.cacheDirectory entry).1 ∧
      (later.threads outside.thread = some (.downloadFile entry) ↔
        (ensureWebSeedDownload s.webSeedClient s.disk s.webSeedInFlight s.cacheDirectory entry).2 =
          some (payloadPathFor s.cacheDirectory entry)) := by
  have hne : outside.thread ≠ t := by
    rintro heq
    rw [heq, hat] at hnew
    cases hnew
  -- moving the thread does not make the other one
  have hmoves : ∀ (u : TorrentSession) location, u.threads outside.thread = none →
      (u.moveTo t location).threads outside.thread = none := fun u location hu =>
    (Function.update_of_ne hne _ _).trans hu
  rw [ensureWebSeedDownload_eq]
  by_cases hnothing : entry.isDirectory = true ∨ ¬ s.webSeedClient.enabled = true ∨
      s.hasFile entry = true
  · have hensure : s.next (.proceed t outside) =
        some (s.moveTo t (request.map .requestFileData)) :=
      next_proceed hat (by rw [TorrentSession.proceed, if_pos hnothing])
    rw [if_pos hnothing]
    exact ⟨1, _, endOf_cons hensure [], moveTo_threads _ _ _, rfl,
      iff_of_false (by simp [hmoves s _ hnew]) (by simp)⟩
  set absent := s.moveTo t (some (.insert entry request)) with habsent
  have hensure : s.next (.proceed t outside) = some absent :=
    next_proceed hat (by rw [TorrentSession.proceed, if_neg hnothing])
  rw [if_neg hnothing]
  by_cases hin : entry.virtualPath ∈ s.webSeedInFlight
  · have hinsert : absent.next (.proceed t outside) =
        some (absent.moveTo t (request.map .requestFileData)) :=
      next_proceed (moveTo_threads s t _) (if_pos hin)
    rw [if_pos hin]
    exact ⟨2, _, (endOf_cons hensure _).trans (endOf_cons hinsert []), moveTo_threads _ _ _, rfl,
      iff_of_false (by simp [hmoves absent _ (hmoves s _ hnew)]) (by simp)⟩
  set inserted := ({ absent with
    webSeedInFlight := s.webSeedInFlight ++ [entry.virtualPath] } : TorrentSession).moveTo t
      (some (.spawn entry request)) with hinserted
  have hinsert : absent.next (.proceed t outside) = some inserted :=
    next_proceed (moveTo_threads s t _) (if_neg hin)
  have hfree : inserted.threads outside.thread = none := hmoves _ _ (hmoves s _ hnew)
  have hspawn : inserted.next (.proceed t outside) =
      some ((inserted.moveTo outside.thread (some (.downloadFile entry))).moveTo t
        (request.map .requestFileData)) :=
    next_proceed (moveTo_threads _ t _) (if_neg (by simp [hfree]))
  rw [if_neg hin]
  refine ⟨3, _, (endOf_cons hensure _).trans ((endOf_cons hinsert _).trans (endOf_cons hspawn [])),
    moveTo_threads _ _ _, rfl, iff_of_true ?_ rfl⟩
  exact (Function.update_of_ne hne _ _).trans (moveTo_threads _ _ _)

end Alone

end Vtfs.Analysis
