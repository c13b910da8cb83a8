import Vtfs.Interface.SessionRuns
import Vtfs.Analysis.Hydration

/-!
# Where threads go

`GoesTo` is the flow of control of a thread, with what it looks at where the flow branches
(`proceed_goesTo`); a thread that makes another one is the only one that changes two places.  A
call takes a thread that is in no function to one of two places (`call_cases`).
-/

set_option autoImplicit false

namespace Vtfs.Analysis

open Vtfs.Library
open Vtfs.Model
open Vtfs.Interface

/-! ## One step -/

/-- Where the next step of a thread leads it. -/
inductive GoesTo (s : TorrentSession) : Location → Option Location → Prop
  | touch (entry : FileEntry) (request : StreamRequest) :
      GoesTo s (.touch entry request) (some (.evictIfNeeded entry request))
  | evictIfNeeded (entry : FileEntry) (request : StreamRequest) :
      GoesTo s (.evictIfNeeded entry request)
        (some (.ensureWebSeedDownload entry (some request)))
  | found (entry : FileEntry) : s.hasFile entry = true → GoesTo s (.findFile entry) none
  | missing (entry : FileEntry) :
      GoesTo s (.findFile entry) (some (.ensureWebSeedDownload entry none))
  | unneeded (entry : FileEntry) (request : Option StreamRequest) :
      entry.isDirectory = true ∨ ¬ s.webSeedClient.enabled = true ∨ s.hasFile entry = true →
      GoesTo s (.ensureWebSeedDownload entry request) (request.map .requestFileData)
  | needed (entry : FileEntry) (request : Option StreamRequest) :
      GoesTo s (.ensureWebSeedDownload entry request) (some (.insert entry request))
  | taken (entry : FileEntry) (request : Option StreamRequest) :
      entry.virtualPath ∈ s.webSeedInFlight →
      GoesTo s (.insert entry request) (request.map .requestFileData)
  | claims (entry : FileEntry) (request : Option StreamRequest) :
      GoesTo s (.insert entry request) (some (.spawn entry request))
  | spawn (entry : FileEntry) (request : Option StreamRequest) :
      GoesTo s (.spawn entry request) (request.map .requestFileData)
  | requestFileData (request : StreamRequest) :
      GoesTo s (.requestFileData request) (some .pumpOnce)
  | pumpOnce : GoesTo s .pumpOnce none
  | downloadFile (entry : FileEntry) : GoesTo s (.downloadFile entry) (some (.erase entry))
  | erase (entry : FileEntry) : GoesTo s (.erase entry) none

/-- The threads after a step: the one that took it has moved on, and a new one may be there. -/
inductive ThreadsAfter (s : TorrentSession) (t : ℕ) (outside : Outside) (next : Option Location) :
    Location → (ℕ → Option Location) → Prop
  | alone {location : Location} : (∀ entry request, location ≠ .spawn entry request) →
      ThreadsAfter s t outside next location (Function.update s.threads t next)
  | made (entry : FileEntry) (request : Option StreamRequest) : s.threads outside.thread = none →
      ThreadsAfter s t outside next (.spawn entry request)
        (Function.update (Function.update s.threads outside.thread (some (.downloadFile entry))) t
          next)

/-- Other threads stay where they are. -/
theorem moveTo_threads_of_ne (s : TorrentSession) {t u : ℕ} (h : u ≠ t)
    (location : Option Location) : (s.moveTo t location).threads u = s.threads u :=
  Function.update_of_ne h _ _

section Steps

variable {s later : TorrentSession} {t : ℕ} {outside : Outside} {location : Location}

/-- A step leads a thread on, and may start another one. -/
theorem proceed_goesTo (h : s.proceed t outside location = some later) :
    ∃ next, GoesTo s location next ∧ ThreadsAfter s t outside next location later.threads := by
  cases location with
  | touch entry request =>
      obtain rfl := Option.some.inj h
      exact ⟨_, .touch entry request, .alone (by simp)⟩
  | evictIfNeeded entry request =>
      obtain rfl := Option.some.inj h
      exact ⟨_, .evictIfNeeded entry request, .alone (by simp)⟩
  | findFile entry =>
      simp only [TorrentSession.proceed] at h
      split at h
      · next hfile =>
        obtain rfl := Option.some.inj h
        exact ⟨_, .found entry hfile, .alone (by simp)⟩
      · obtain rfl := Option.some.inj h
        exact ⟨_, .missing entry, .alone (by simp)⟩
  | ensureWebSeedDownload entry request =>
      simp only [TorrentSession.proceed] at h
      split at h
      · next hunneeded =>
        obtain rfl := Option.some.inj h
        exact ⟨_, .unneeded entry request hunneeded, .alone (by simp)⟩
      · obtain rfl := Option.some.inj h
        exact ⟨_, .needed entry request, .alone (by simp)⟩
  | insert entry request =>
      simp only [TorrentSession.proceed] at h
      split at h
      · next htaken =>
        obtain rfl := Option.some.inj h
        exact ⟨_, .taken entry request htaken, .alone (by simp)⟩
      · obtain rfl := Option.some.inj h
        exact ⟨_, .claims entry request, .alone (by simp)⟩
  | spawn entry request =>
      simp only [TorrentSession.proceed, Option.ite_none_left_eq_some] at h
      obtain ⟨hnew, hsome⟩ := h
      obtain rfl := Option.some.inj hsome
      exact ⟨_, .spawn entry request, .made entry request (by simpa using hnew)⟩
  | requestFileData request =>
      obtain rfl := Option.some.inj h
      exact ⟨_, .requestFileData request, .alone (by simp)⟩
  | pumpOnce =>
      simp only [TorrentSession.proceed] at h
      split at h
      · obtain rfl := Option.some.inj h
        exact ⟨_, .pumpOnce, .alone (by simp)⟩
      · cases h
  | downloadFile entry =>
      obtain rfl := Option.some.inj h
      exact ⟨_, .downloadFile entry, .alone (by simp)⟩
  | erase entry =>
      obtain rfl := Option.some.inj h
      exact ⟨_, .erase entry, .alone (by simp)⟩

end Steps

/-! ## Calls -/

/-- The entry that a function is called on. -/
def calledOn : Action → Option FileEntry
  | .queueRead _ entry _ _ | .beginStreaming _ entry _ _ | .tryReadFileRange _ entry _ => some entry
  | .proceed _ _ => none

/-- A call is on an entry of the index. -/
theorem isEntry_of_calledOn {σ : Type} {files : List TorrentFileRecord} {s : σ} {a : Action}
    {entry : FileEntry} (h : CallsOnEntries files s a) (hcalled : calledOn a = some entry) :
    IsEntry (buildIndex files) entry := by
  cases a with
  | proceed t outside => cases hcalled
  | queueRead | beginStreaming | tryReadFileRange =>
      obtain rfl := Option.some.inj hcalled
      exact h

/-- Where a call takes a thread first. -/
inductive Begins (entry : FileEntry) : Location → Prop
  | touch (offset : UInt64) (length : UInt32) :
      Begins entry (.touch entry ⟨entry.index, offset, length⟩)
  | findFile : Begins entry (.findFile entry)

/-- The call of a thread that is in no function. -/
structure Calls (s : TorrentSession) (a : Action) (t : ℕ) (entry : FileEntry)
    (location : Location) : Prop where
  called : calledOn a = some entry
  idle : s.threads t = none
  file : entry.isDirectory = false
  begins : Begins entry location

section Calls

variable {s later : TorrentSession} {t : ℕ} {a : Action} {entry : FileEntry}

/-- A call of `queueRead` does nothing, or begins in one of its functions. -/
theorem calls_queueRead {offset : UInt64} {length : UInt32} (hcalled : calledOn a = some entry)
    (hidle : s.threads t = none) :
    s.queueRead t entry offset length = s ∨ ∃ location, Calls s a t entry location ∧
      s.queueRead t entry offset length = s.moveTo t (some location) := by
  unfold TorrentSession.queueRead
  split
  · exact Or.inl rfl
  · next hreads =>
    simp only [not_or, Bool.not_eq_true] at hreads
    exact Or.inr ⟨_, ⟨hcalled, hidle, hreads.1, .touch offset length⟩, rfl⟩

/-- A call changes nothing, or takes its thread to the first place. -/
theorem call_cases (h : s.next a = some later) (hcall : ¬ IsStep a) :
    later = s ∨ ∃ t entry location, Calls s a t entry location ∧
      later = s.moveTo t (some location) := by
  cases a with
  | proceed t outside => exact absurd ⟨t, outside, rfl⟩ hcall
  | queueRead t entry offset length =>
      simp only [TorrentSession.next, Option.ite_none_left_eq_some, Option.some.injEq] at h
      obtain ⟨hidle, rfl⟩ := h
      rcases calls_queueRead (a := .queueRead t entry offset length) rfl (by simpa using hidle)
        with hsame | ⟨location, hcalls, hlater⟩
      · exact Or.inl hsame
      · exact Or.inr ⟨t, entry, location, hcalls, hlater⟩
  | beginStreaming t entry offset length =>
      simp only [TorrentSession.next, Option.ite_none_left_eq_some, Option.some.injEq] at h
      obtain ⟨hidle, rfl⟩ := h
      rcases calls_queueRead (a := .beginStreaming t entry offset length) rfl
        (by simpa using hidle) with hsame | ⟨location, hcalls, hlater⟩
      · exact Or.inl hsame
      · exact Or.inr ⟨t, entry, location, hcalls, hlater⟩
  | tryReadFileRange t entry offset =>
      simp only [TorrentSession.next, Option.ite_none_left_eq_some, Option.some.injEq] at h
      obtain ⟨hidle, rfl⟩ := h
      unfold TorrentSession.tryReadFileRange
      split
      · exact Or.inl rfl
      · next hreads =>
        simp only [not_or, Bool.not_eq_true] at hreads
        exact Or.inr ⟨t, entry, _, ⟨rfl, by simpa using hidle, hreads.1, .findFile⟩, rfl⟩

end Calls

/-! ## Entries -/

/-- The entry of a thread at this place. -/
def entryAt : Location → Option FileEntry
  | .touch entry _ | .evictIfNeeded entry _ | .findFile entry | .ensureWebSeedDownload entry _
  | .insert entry _ | .spawn entry _ | .downloadFile entry | .erase entry => some entry
  | .requestFileData _ | .pumpOnce => none

/-- The entries of all threads are files of the index. -/
def EntriesOf (files : List TorrentFileRecord) (s : TorrentSession) : Prop :=
  ∀ t entry, (s.threads t).bind entryAt = some entry → IsFileEntry (buildIndex files) entry

section Entries

variable {files : List TorrentFileRecord} {s later : TorrentSession}

/-- A thread that is about to ask is at no entry. -/
theorem entryAt_afterwards (request : Option StreamRequest) :
    (request.map Location.requestFileData).bind entryAt = none := by
  cases request <;> rfl

/-- A thread goes on with its entry, or with none. -/
theorem GoesTo.entry {location : Location} {next : Option Location} (h : GoesTo s location next)
    {entry : FileEntry} (hnext : next.bind entryAt = some entry) :
    entryAt location = some entry := by
  cases h with
  | unneeded | taken | spawn =>
      rw [entryAt_afterwards] at hnext
      cases hnext
  | found | requestFileData | pumpOnce | erase => cases hnext
  | touch | evictIfNeeded | missing | needed | claims | downloadFile => exact hnext

/-- The invariant is kept by a move of one thread. -/
theorem entriesOf_moves (h : EntriesOf files s) {t : ℕ} {next : Option Location}
    (hthreads : later.threads = Function.update s.threads t next)
    (hnext : ∀ entry, next.bind entryAt = some entry → IsFileEntry (buildIndex files) entry) :
    EntriesOf files later := by
  intro u entry hu
  rw [hthreads] at hu
  by_cases hut : u = t
  · subst hut
    exact hnext entry (by simpa using hu)
  · exact h u entry (by simpa [hut] using hu)

/-- The invariant is kept by every action. -/
theorem entriesOf_next {a : Action} (h : EntriesOf files s) (hguard : CallsOnEntries files s a)
    (hnext : s.next a = some later) : EntriesOf files later := by
  by_cases hstep : IsStep a
  · obtain ⟨t, outside, rfl⟩ := hstep
    obtain ⟨location, hlocation, hproceed⟩ := Option.bind_eq_some_iff.mp hnext
    obtain ⟨next, hgoes, hthreads⟩ := proceed_goesTo hproceed
    have hentry : ∀ entry, entryAt location = some entry → IsFileEntry (buildIndex files) entry :=
      fun entry hentry => h t entry (by rw [hlocation]; exact hentry)
    generalize hafter : later.threads = threads at hthreads
    cases hthreads with
    | alone => exact entriesOf_moves h hafter fun entry hnext => hentry entry (hgoes.entry hnext)
    | made entry request hnew =>
        have hmade : EntriesOf files (s.moveTo outside.thread (some (.downloadFile entry))) :=
          entriesOf_moves h rfl hentry
        exact entriesOf_moves hmade hafter fun other hnext => hentry other (hgoes.entry hnext)
  · rcases call_cases hnext hstep with rfl | ⟨t, entry, location, hcalls, rfl⟩
    · exact h
    · refine entriesOf_moves h rfl fun other hother => ?_
      have hsame : other = entry := by
        cases hcalls.begins with
        | touch | findFile => exact (Option.some.inj hother).symm
      rw [hsame]
      exact ⟨hcalls.file, isEntry_of_calledOn hguard hcalls.called⟩

/-- At the start no thread is at an entry. -/
theorem entriesOf_start (config : Config) (metadata : TorrentMetadata) (disk : Disk) :
    EntriesOf files (TorrentSession.start config metadata disk) := by
  intro t entry hentry
  cases hentry

end Entries

end Vtfs.Analysis
