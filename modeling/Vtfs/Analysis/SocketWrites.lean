import Vtfs.Interface.ResponseFraming

/-!
# What goes out on a socket

What goes out of a vector is a beginning of it, all of it exactly when the loop says so
(`sendAll_cases`).  So what goes out of an answer is a beginning of the answer that the server
makes for a client that takes everything, when all calls come back
(`respondOnWire_beginningOf`): an interruption leaves bytes out at the end, and nowhere else.  A
vector is sent whole when each call of `send` takes something (`sendAll_of_positive`).
-/

set_option autoImplicit false

namespace Vtfs.Analysis

open Vtfs.Library
open Vtfs.Model
open Vtfs.Interface

/-! ## One vector -/

/-- All of a vector goes out, or less than all of it. -/
theorem sendAll_cases (data : Bytes) (results : List ℤ) :
    ((sendAll data results).1 = true ∧ (sendAll data results).2.1 = data) ∨
      ((sendAll data results).1 = false ∧ ∃ rest, rest ≠ [] ∧
        data = (sendAll data results).2.1 ++ rest) := by
  induction results generalizing data with
  | nil =>
      cases data with
      | nil => exact Or.inl ⟨rfl, rfl⟩
      | cons c cs => exact Or.inr ⟨rfl, c :: cs, by simp, rfl⟩
  | cons result results ih =>
      cases data with
      | nil => exact Or.inl ⟨rfl, rfl⟩
      | cons c cs =>
          rw [sendAll]
          by_cases hfails : result ≤ 0
          · rw [if_pos hfails]
            exact Or.inr ⟨rfl, c :: cs, by simp, rfl⟩
          · rw [if_neg hfails]
            have hsplit := List.take_append_drop result.toNat (c :: cs)
            rcases ih ((c :: cs).drop result.toNat) with ⟨hsent, hall⟩ | ⟨hsent, rest, hne, hout⟩
            · refine Or.inl ⟨hsent, ?_⟩
              simp only [hall, hsplit]
            · refine Or.inr ⟨hsent, rest, hne, ?_⟩
              simp only [List.append_assoc, ← hout, hsplit]

/-- So it is with a frame on a connection. -/
theorem sendOnWire_cases (connection : PeerConnection) (results : List ℤ) (frame : Bytes)
    (hne : frame ≠ []) :
    ((connection.sendOnWire results frame).1 = true ∧
        (connection.sendOnWire results frame).2.1 = frame) ∨
      ((connection.sendOnWire results frame).1 = false ∧ ∃ rest, rest ≠ [] ∧
        frame = (connection.sendOnWire results frame).2.1 ++ rest) := by
  unfold PeerConnection.sendOnWire
  split
  · exact Or.inr ⟨rfl, frame, hne, rfl⟩
  · exact sendAll_cases frame results

/-- A vector is sent when each call takes something and there are calls enough; and then there
are as many left as there are bytes after it. -/
theorem sendAll_of_positive {data : Bytes} {results : List ℤ}
    (htakes : ∀ result ∈ results, 0 < result) (henough : data.length ≤ results.length) :
    (sendAll data results).1 = true ∧ (∀ result ∈ (sendAll data results).2.2, 0 < result) ∧
      results.length ≤ data.length + (sendAll data results).2.2.length := by
  induction results generalizing data with
  | nil =>
      obtain rfl := List.length_eq_zero_iff.mp (Nat.le_zero.mp henough)
      exact ⟨rfl, htakes, Nat.le_refl _⟩
  | cons result results ih =>
      cases data with
      | nil => exact ⟨rfl, htakes, by simp [sendAll]⟩
      | cons c cs =>
          obtain ⟨hfirst, hrest⟩ := List.forall_mem_cons.mp htakes
          rw [sendAll, if_neg (not_le.mpr hfirst)]
          -- the first call takes one byte at least
          have hfewer : ((c :: cs).drop result.toNat).length ≤ cs.length := by
            rw [List.length_drop, List.length_cons]
            omega
          simp only [List.length_cons] at henough ⊢
          obtain ⟨hsent, hleft, hcalls⟩ := ih hrest (hfewer.trans (by omega))
          refine ⟨hsent, hleft, ?_⟩
          show _ ≤ _ + (sendAll ((c :: cs).drop result.toNat) results).2.2.length
          omega

/-! ## Answers -/

section Beginnings

variable {met : Interruptions} {text first : Bytes}

/-- What is left after a vector does not interrupt what is left of the answer. -/
theorem uninterrupted_after (h : Uninterrupted met (first ++ text).length) :
    Uninterrupted { met with results := (sendAll first met.results).2.2 } text.length := by
  have henough := h.enough
  rw [List.length_append] at henough
  have hroom : first.length ≤ met.results.length := by omega
  obtain ⟨-, htakes, hleft⟩ := sendAll_of_positive h.takes hroom
  exact ⟨h.reads, h.streams, htakes, by simp only; omega⟩

/-- A vector of the answer that is not sent interrupts it. -/
theorem not_uninterrupted_of_send (hfails : (sendAll first met.results).1 = false)
    (hfront : first <+: text) : ¬ Uninterrupted met text.length := by
  intro h
  have hsent := (sendAll_of_positive h.takes (hfront.length_le.trans h.enough)).1
  rw [hfails] at hsent
  cases hsent

/-- What is sent after all of a first part goes on with the text. -/
theorem beginningOf_after {rest : Answered}
    (h : BeginningOf { met with results := (sendAll first met.results).2.2 } text rest) :
    BeginningOf met (first ++ text) (rest.after first) where
  front := (List.prefix_append_right_inj first).mpr h.front
  all hfinished := congrArg (first ++ ·) (h.all hfinished)
  finished hnothing := h.finished (uninterrupted_after hnothing)

/-- When nothing more is to be sent, what went out is all. -/
theorem beginningOf_self : BeginningOf met text ⟨text, .finished⟩ :=
  ⟨List.prefix_rfl, fun _ => rfl, fun _ => rfl⟩

/-- When a call does not come back, what went out is a beginning. -/
theorem beginningOf_terminated (h : ∀ length, ¬ Uninterrupted met length) :
    BeginningOf met text ⟨[], .terminated⟩ :=
  ⟨List.nil_prefix, fun hfinished => (by cases hfinished), fun hnothing => absurd hnothing (h _)⟩

/-- When a vector is not sent whole, what went out of it is a beginning. -/
theorem beginningOf_sendFailed (hfails : (sendAll first met.results).1 = false)
    (hfront : first <+: text) :
    BeginningOf met text ⟨(sendAll first met.results).2.1, .sendFailed⟩ := by
  refine ⟨?_, fun hfinished => (by cases hfinished),
    fun hnothing => absurd hnothing (not_uninterrupted_of_send hfails hfront)⟩
  rcases sendAll_cases first met.results with ⟨hsent, -⟩ | ⟨-, rest, -, hout⟩
  · rw [hfails] at hsent
    cases hsent
  · exact (show _ <+: first from ⟨rest, hout.symm⟩).trans hfront

/-- A vector that is the last one of an answer. -/
theorem beginningOf_replyOnWire (met : Interruptions) (response : Bytes) :
    BeginningOf met response (replyOnWire met response) := by
  unfold replyOnWire
  rcases sendAll_cases response met.results with ⟨hsent, hout⟩ | ⟨hsent, -⟩
  · simp only [hsent, if_true, hout]
    exact beginningOf_self
  · simp only [hsent, Bool.false_eq_true, if_false]
    exact beginningOf_sendFailed hsent List.prefix_rfl

end Beginnings

section Files

variable (s : ServedFiles) (met : Interruptions) (cacheDirectory : Bytes) (entry : FileEntry)

/-- While all calls come back, the attempts are those that were made anyway. -/
theorem attemptLoop_of_onWire {position : UInt64} {wanted : UInt32} {left made : ℕ}
    {last : FileRead} {outcome : FileRead × ℕ}
    (h : attemptLoopOnWire s met cacheDirectory entry position wanted left made last =
      some outcome) :
    attemptLoop s cacheDirectory entry position wanted left made last = outcome := by
  induction left generalizing made last with
  | zero => exact Option.some.inj h
  | succ left ih =>
      rw [attemptLoopOnWire] at h
      rw [attemptLoop]
      split at h
      · cases h
      simp only at h ⊢
      split at h
      · rename_i hdata
        rw [if_pos hdata]
        exact Option.some.inj h
      rename_i hdata
      rw [if_neg hdata]
      split at h
      · rename_i hempty
        rw [if_pos hempty]
        exact Option.some.inj h
      rename_i hempty
      rw [if_neg hempty]
      split at h
      · cases h
      · exact ih h

/-- The attempts come to an end when all calls come back. -/
theorem attemptLoopOnWire_ne_none (hreads : ∀ attempt, met.reads attempt = true)
    (hstreams : ∀ attempt, met.streams attempt = true) (position : UInt64) (wanted : UInt32)
    (left made : ℕ) (last : FileRead) :
    attemptLoopOnWire s met cacheDirectory entry position wanted left made last ≠ none := by
  have hback : comesBack entry position true = true := Bool.or_true _
  induction left generalizing made last with
  | zero => exact Option.some_ne_none _
  | succ left ih =>
      rw [attemptLoopOnWire, hreads, hstreams, if_neg (not_not.mpr hback)]
      simp only
      split
      · exact Option.some_ne_none _
      split
      · exact Option.some_ne_none _
      exact ih (made + 1) _

/-- The body goes out from its beginning. -/
theorem sendLoopOnWire_beginningOf {stop : UInt64} {fuel : ℕ} {position : UInt64} {made sent : ℕ}
    {chunks : List Bytes} (results : List ℤ)
    (h : sendLoop s.unhindered cacheDirectory entry stop fuel position made sent = some chunks) :
    ∃ answered, sendLoopOnWire s met cacheDirectory entry stop fuel position made results =
      some answered ∧ BeginningOf { met with results } chunks.flatten answered := by
  induction fuel generalizing position made sent chunks results with
  | zero => cases h
  | succ fuel ih =>
      rw [sendLoop] at h
      rw [sendLoopOnWire]
      split at h
      · rename_i hdone
        refine ⟨_, if_pos hdone, ?_⟩
        rw [← Option.some.inj h]
        exact beginningOf_self
      rename_i hleft
      rw [if_neg hleft]
      simp only at h ⊢
      cases hattempts : attemptLoopOnWire s met cacheDirectory entry position
          (min chunkLimit (stop - position + 1)).toUInt32 attemptLimit made ⟨false, [], false⟩ with
      | none => exact ⟨_, rfl, beginningOf_terminated fun _ hnothing =>
          attemptLoopOnWire_ne_none s met cacheDirectory entry hnothing.reads hnothing.streams _ _
            _ _ _ hattempts⟩
      | some outcome =>
          obtain ⟨read, made'⟩ := outcome
          have hread := attemptLoop_of_onWire s met cacheDirectory entry hattempts
          simp only [ServedFiles.unhindered, hread] at h ⊢
          split at h
          · rename_i hnothing
            refine ⟨_, if_pos hnothing, ?_⟩
            rw [← Option.some.inj h]
            exact beginningOf_self
          rename_i hsomething
          rw [if_neg hsomething]
          simp only [not_true_eq_false, if_false, Option.map_eq_some_iff] at h
          obtain ⟨more, hmore, rfl⟩ := h
          rw [List.flatten_cons]
          rcases sendAll_cases read.data results with ⟨hsent, hout⟩ | ⟨hsent, -⟩
          · obtain ⟨answered, hanswered, hbegins⟩ := ih (sendAll read.data results).2.2 hmore
            refine ⟨answered.after read.data, ?_, beginningOf_after hbegins⟩
            simp only [hsent, not_true_eq_false, if_false, hout, hanswered, Option.map_some]
          · exact ⟨_, if_pos (by simp [hsent]),
              beginningOf_sendFailed hsent (List.prefix_append _ _)⟩

/-- The headers go out, and then the body. -/
theorem serveFileOnWire_beginningOf {request : Request} {fuel : ℕ} {sent : List Bytes}
    (h : serveFile s.unhindered cacheDirectory entry request fuel = some sent) :
    ∃ answered, serveFileOnWire s met cacheDirectory entry request fuel = some answered ∧
      BeginningOf met sent.flatten answered := by
  unfold serveFile at h
  unfold serveFileOnWire
  simp only at h ⊢
  generalize (rangeOf request entry.size).getD (0, if entry.size = 0 then 0 else entry.size - 1) =
    bounds at h ⊢
  generalize headersOut (rangeOf request entry.size).isSome bounds.1 bounds.2 entry.size
    (if entry.size = 0 then 0 else bounds.2 - bounds.1 + 1) = headers at h ⊢
  simp only [ServedFiles.unhindered, not_true_eq_false, if_false] at h
  split
  · rename_i hthrows
    refine ⟨_, rfl, beginningOf_terminated fun _ hnothing => hthrows ?_⟩
    simp [comesBack, hnothing.streams 0]
  -- the headers begin the text, whatever follows
  have hheaders : headers <+: sent.flatten := by
    split at h
    · rw [← Option.some.inj h]
      simp
    · obtain ⟨chunks, -, rfl⟩ := Option.map_eq_some_iff.mp h
      exact List.prefix_append _ _
  rcases sendAll_cases headers met.results with ⟨hsent, hout⟩ | ⟨hsent, -⟩
  swap
  · exact ⟨_, if_pos (by simp [hsent]), beginningOf_sendFailed hsent hheaders⟩
  simp only [hsent, not_true_eq_false, if_false, hout]
  split at h
  · rename_i hhead
    refine ⟨_, if_pos hhead, ?_⟩
    rw [← Option.some.inj h, List.flatten_singleton]
    exact beginningOf_self
  rename_i hbody
  rw [if_neg hbody]
  obtain ⟨chunks, hchunks, rfl⟩ := Option.map_eq_some_iff.mp h
  obtain ⟨answered, hanswered, hbegins⟩ := sendLoopOnWire_beginningOf s met cacheDirectory entry
    (sendAll headers met.results).2.2 hchunks
  refine ⟨answered.after headers, by rw [hanswered]; rfl, ?_⟩
  rw [List.flatten_cons]
  exact beginningOf_after hbegins

end Files

variable (s : ServedFiles) (met : Interruptions) (cacheDirectory : Bytes) {index : Index}
  {fuel : ℕ} {sent : List Bytes}

/-- **What goes out of an answer** is a beginning of the answer to a client that takes everything,
when all calls come back; and it is all of that when nothing interrupts it.
SRCLINE: WebDavServer.cpp:135-150, WebDavServer.cpp:306-412 -/
theorem respondOnWire_beginningOf {request : Request}
    (h : respond s.unhindered cacheDirectory index request fuel = some sent) :
    ∃ answered, respondOnWire s met cacheDirectory index request fuel = some answered ∧
      BeginningOf met sent.flatten answered := by
  have hreply : ∀ text, some (if s.unhindered.sendAll 0 then [text] else []) = some sent →
      BeginningOf met sent.flatten (replyOnWire met text) := by
    rintro text heq
    rw [← Option.some.inj heq]
    simpa [ServedFiles.unhindered] using beginningOf_replyOnWire met text
  unfold respond at h
  unfold respondOnWire
  simp only at h
  split at h
  · rename_i hoptions
    exact ⟨_, if_pos hoptions, hreply _ h⟩
  rename_i hoptions
  rw [if_neg hoptions]
  cases hentry : entryFor index request.line with
  | none =>
      rw [hentry] at h
      exact ⟨_, rfl, hreply _ h⟩
  | some entry =>
      rw [hentry] at h
      simp only at h ⊢
      split at h
      · rename_i hpropfind
        exact ⟨_, if_pos hpropfind, hreply _ h⟩
      rename_i hpropfind
      rw [if_neg hpropfind]
      split at h
      · rename_i hdirectory
        exact ⟨_, if_pos hdirectory, hreply _ h⟩
      rename_i hdirectory
      rw [if_neg hdirectory]
      exact serveFileOnWire_beginningOf s met cacheDirectory entry h

end Vtfs.Analysis
