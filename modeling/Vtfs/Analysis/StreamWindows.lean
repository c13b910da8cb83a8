import Vtfs.Interface.StreamWindows
import Vtfs.Analysis.Hydration
import Vtfs.Analysis.PayloadPaths
import Vtfs.Analysis.StreamRequests

/-!
# Windows stay within files

A request is made from an entry and a window in it, waits in its thread until the engine takes it,
and then in the queue; `FitsFile` holds of it all the way (`RequestsFit`).
-/

set_option autoImplicit false

namespace Vtfs.Analysis

open Vtfs.Library
open Vtfs.Model
open Vtfs.Interface

/-! ## The window -/

/-- What is wanted of a file. -/
def desiredWindow (length : UInt32) : UInt32 :=
  if length = 0 then initialStreamWindow else max length sequentialReadAheadWindow

/-- The window, without any wrap. -/
theorem clampStreamWindow_toNat {entry : FileEntry} {offset : UInt64} (length : UInt32)
    (hoffset : offset < entry.size) : (clampStreamWindow entry offset length).toNat =
      min (entry.size.toNat - offset.toNat) (desiredWindow length).toNat := by
  have hremaining : (entry.size - offset).toNat = entry.size.toNat - offset.toNat :=
    UInt64.toNat_sub_of_le _ _ (UInt64.le_of_lt hoffset)
  have hwindow : clampStreamWindow entry offset length =
      (min (entry.size - offset) (desiredWindow length).toUInt64).toUInt32 := by
    rw [clampStreamWindow, if_neg (UInt64.not_le.mpr hoffset)]
    rfl
  have hdesired := (desiredWindow length).toNat_lt
  rw [hwindow, UInt64.toNat_toUInt32, toNat_min_uInt64, hremaining, UInt32.toNat_toUInt64]
  exact Nat.mod_eq_of_lt (lt_of_le_of_lt (Nat.min_le_right _ _) hdesired)

/-- A file of the index with its window is a request that fits. -/
theorem fitsFile_of_isEntry {files : List TorrentFileRecord} (hfew : files.length < 2 ^ 31)
    {entry : FileEntry} (hentry : IsEntry (buildIndex files) entry)
    (hfile : entry.isDirectory = false) {offset : UInt64} (hoffset : offset < entry.size)
    {length : UInt32} (hlength : clampStreamWindow entry offset length ≠ 0) :
    FitsFile files ⟨entry.index, offset, clampStreamWindow entry offset length⟩ := by
  obtain ⟨⟨record, i⟩, hrecord, rfl⟩ := exists_entryOf ⟨hfile, hentry⟩
  have hget : files[i]? = some record := List.mem_zipIdx_iff_getElem?.mp hrecord
  have hi : i < files.length := (List.getElem?_eq_some_iff.mp hget).1
  have hindex : (entryOf (record, i)).index.toInt = i :=
    Int32.toInt_ofNat_of_lt (hi.trans hfew)
  have hsize : (entryOf (record, i)).size = record.size := rfl
  have hwindow := clampStreamWindow_toNat length hoffset
  have hlt := UInt64.lt_iff_toNat_lt.mp hoffset
  rw [hsize] at hwindow hlt
  refine ⟨?_, ?_, record, ?_, ?_⟩
  · simp only [hindex]
    exact Int.natCast_nonneg i
  · exact Nat.pos_of_ne_zero fun hzero => hlength (UInt32.toNat_inj.mp hzero)
  · simp only [hindex, Int.toNat_natCast, hget]
  · simp only [hwindow]
    omega

/-! ## One action -/

/-- The requests in the queue, and those that threads will put there, fit. -/
structure RequestsFit (files : List TorrentFileRecord) (s : TorrentSession) : Prop where
  queued : ∀ request ∈ s.engine.requests, FitsFile files request
  wanted : ∀ t request, (s.threads t).bind requestAt = some request → FitsFile files request

section Steps

variable {files : List TorrentFileRecord} {s later : TorrentSession}

/-- A thread moves, with a request that fits or with none. -/
theorem requestsFit_of_moves (h : RequestsFit files s) {t : ℕ} {next : Option Location}
    (hthreads : later.threads = Function.update s.threads t next)
    (hqueued : ∀ request ∈ later.engine.requests, FitsFile files request)
    (hnext : ∀ request, next.bind requestAt = some request → FitsFile files request) :
    RequestsFit files later := by
  refine ⟨hqueued, fun u request hu => ?_⟩
  rw [hthreads] at hu
  by_cases hut : u = t
  · subst hut
    exact hnext request (by simpa using hu)
  · exact h.wanted u request (by simpa [hut] using hu)

/-- The queue after `pumpOnce` has no other requests. -/
theorem pumpOnce_requests_subset {engine after : TorrentEngine}
    {announced : Option (List TrackerPeer)} {network : PeerNetwork} {frames : List Bytes}
    (h : engine.pumpOnce announced network = .ok (after, frames)) :
    after.requests ⊆ engine.requests := by
  by_cases hrunning : engine.running = true
  · rw [pumpOnce_of_running hrunning] at h
    obtain ⟨-, -, ⟨hsame, -⟩ | ⟨connection, front, block, -, hrequests, -⟩⟩ := serveFront_cases h
    · rw [hsame]
      exact List.Subset.refl _
    · have hqueue : engine.requests = front :: after.requests := hrequests
      rw [hqueue]
      exact List.subset_cons_self _ _
  · rw [TorrentEngine.pumpOnce, if_pos hrunning] at h
    obtain ⟨rfl, -⟩ := Prod.mk.inj (Except.ok.inj h)
    exact List.Subset.refl _

/-- The invariant is kept by every step of a thread. -/
theorem requestsFit_proceeds {t : ℕ} {outside : Outside} {location : Location}
    (h : RequestsFit files s) (hlocation : s.threads t = some location)
    (hproceeds : Proceeds s t outside location later) : RequestsFit files later := by
  have hwanted : ∀ request, requestAt location = some request → FitsFile files request :=
    fun request hrequest => h.wanted t request (by rw [hlocation]; exact hrequest)
  have hnone : ∀ request, (none : Option StreamRequest) = some request → FitsFile files request :=
    fun _ hrequest => by cases hrequest
  cases hproceeds with
  | goesOn hgoesOn =>
      refine requestsFit_of_moves h rfl h.queued ?_
      exact fun request hrequest => hwanted request (hgoesOn.request _ hrequest)
  | touch entry request => exact requestsFit_of_moves h rfl h.queued hwanted
  | evictIfNeeded entry request => exact requestsFit_of_moves h rfl h.queued hwanted
  | insert entry request hfree => exact requestsFit_of_moves h rfl h.queued hwanted
  | spawn entry request hnew =>
      have hmade : RequestsFit files
          (s.moveTo outside.thread (some (.downloadFile entry))) :=
        requestsFit_of_moves h rfl h.queued hnone
      refine requestsFit_of_moves hmade rfl h.queued ?_
      intro wanted hrequest
      rw [requestAt_afterwards] at hrequest
      exact hwanted wanted hrequest
  | requestFileData request =>
      refine requestsFit_of_moves h rfl ?_ hnone
      intro queued hqueued
      simp only [TorrentSession.moveTo, TorrentEngine.requestFileData] at hqueued
      split at hqueued
      · exact h.queued queued hqueued
      · rcases List.mem_append.mp hqueued with hold | hnew
        · exact h.queued queued hold
        · rw [List.mem_singleton.mp hnew]
          exact hwanted request rfl
  | pumpOnce engine frames hpump =>
      refine requestsFit_of_moves h rfl ?_ hnone
      exact fun request hrequest => h.queued request (pumpOnce_requests_subset hpump hrequest)
  | downloadFile entry => exact requestsFit_of_moves h rfl h.queued hnone
  | erase entry => exact requestsFit_of_moves h rfl h.queued hnone

/-- The invariant is kept by every action. -/
theorem requestsFit_next (hfew : files.length < 2 ^ 31) {a : Action} (h : RequestsFit files s)
    (hguard : StreamsEntries files s a) (hnext : s.next a = some later) :
    RequestsFit files later := by
  cases a with
  | queueRead t entry offset length => exact hguard.elim
  | beginStreaming t entry offset length =>
      simp only [TorrentSession.next, Option.ite_none_left_eq_some, Option.some.injEq] at hnext
      obtain ⟨-, rfl⟩ := hnext
      unfold TorrentSession.beginStreaming TorrentSession.queueRead
      split
      · exact h
      · next hreads =>
        simp only [not_or, Bool.not_eq_true, UInt64.not_le] at hreads
        obtain ⟨hfile, hlength, hoffset⟩ := hreads
        refine requestsFit_of_moves h rfl h.queued ?_
        intro request hrequest
        obtain rfl := Option.some.inj hrequest
        exact fitsFile_of_isEntry hfew hguard hfile hoffset hlength
  | tryReadFileRange t entry offset =>
      simp only [TorrentSession.next, Option.ite_none_left_eq_some, Option.some.injEq] at hnext
      obtain ⟨-, rfl⟩ := hnext
      unfold TorrentSession.tryReadFileRange
      split
      · exact h
      · refine requestsFit_of_moves h rfl h.queued ?_
        intro request hrequest
        cases hrequest
  | proceed t outside =>
      obtain ⟨location, hlocation, hproceed⟩ := Option.bind_eq_some_iff.mp hnext
      exact requestsFit_proceeds h hlocation (proceed_cases hproceed)

end Steps

/-! ## Runs -/

/-- **Requests fit their files.**  In every state that calls of `beginStreaming` on entries of the
index lead to, in any number of threads, every request in the queue is for bytes of the file it
names.
SRCLINE: TorrentSession.cpp:23-32, TorrentSession.cpp:117-133, TorrentEngine.cpp:37-43 -/
theorem streamRequests_fit {config : Config} {metadata : TorrentMetadata} {disk : Disk}
    {s : TorrentSession} (hfew : metadata.files.length < 2 ^ 31)
    (h : Reachable TorrentSession.next (StreamsEntries metadata.files)
      (TorrentSession.start config metadata disk) s) :
    ∀ request ∈ s.engine.requests, FitsFile metadata.files request := by
  have hfit : RequestsFit metadata.files s := by
    apply h.invariant
    · refine ⟨?_, ?_⟩
      · intro request hrequest
        cases hrequest
      · intro t request hrequest
        cases hrequest
    · intro before a after hbefore hguard hnext
      exact requestsFit_next hfew hbefore hguard hnext
  exact hfit.queued

/-- From the third byte on, all of the file is asked for. -/
theorem streamRequests_fit_oneRead : ∃ s : TorrentSession, s.engine.requests = [⟨0, 2, 3⟩] ∧
    ∀ request ∈ s.engine.requests, FitsFile onePieceMetadata.files request := by
  have hstart : Reachable TorrentSession.next (StreamsEntries onePieceMetadata.files)
      (TorrentSession.start ⟨10, bytes "/cache", []⟩ onePieceMetadata fun _ => none) _ := .start
  have hcalled := hstart.step (a := Action.beginStreaming 0 seedEntry 2 0) isEntry_seedEntry rfl
  have htouched := hcalled.step (a := Action.proceed 0 (answering 1)) trivial rfl
  have hevicted := htouched.step (a := Action.proceed 0 (answering 1)) trivial rfl
  have hensured := hevicted.step (a := Action.proceed 0 (answering 1)) trivial rfl
  have hqueued := hensured.step (a := Action.proceed 0 (answering 1)) trivial rfl
  exact ⟨_, by decide +kernel, streamRequests_fit (by decide) hqueued⟩

end Vtfs.Analysis
