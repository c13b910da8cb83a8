import Vtfs.Analysis.BencodeMachine

/-!
# The parser stays inside its input

`peek` and `get` read `input_[pos_]` unchecked, and `parseString` adds a length from the input to
the cursor, in 64 bits.  Wherever a run is stopped, the cursor is not past the end, every byte was
read before the end, and every `substr` started at the end or before it (`parser_stays_inside`).

Each control point has a condition under which it is safe (`Ready`): where a byte is read without
a look at the end, an earlier statement has looked there, and nothing has moved the cursor since.
The cursor goes forward only past a byte that was there, which `++pos_` does without wrapping, and
goes anywhere else only to the end of a string, which was compared with the size of the input after
it had wrapped.
-/

set_option autoImplicit false

namespace Vtfs.Analysis

open Vtfs.Library
open Vtfs.Library.Fueled
open Vtfs.Model
open Vtfs.Model.BencodeMachine

/-! ## The invariant -/

/-- The bytes that the event reads are in an input of that size. -/
def EventInside (size : ℕ) : Event → Prop
  | .peek pos => pos < size
  | .get pos => pos < size
  | .substr start => start ≤ size
  | .returned _ _ _ => True

/-- The cursor is not past the end, and so far nothing was read outside the input. -/
structure CursorInside (size : ℕ) (s : ParserState) : Prop where
  cursor : s.pos ≤ size
  reads : ∀ e ∈ s.trace, EventInside size e

namespace CursorInside

variable {size pos : ℕ} {s : ParserState}

/-- An event inside the input may be recorded. -/
theorem log {e : Event} (h : CursorInside size s) (he : EventInside size e) :
    CursorInside size (s.log e) := by
  refine ⟨h.cursor, ?_⟩
  intro e' he'
  rcases List.mem_cons.mp he' with rfl | hmem
  · exact he
  · exact h.reads e' hmem

/-- The cursor may move to a place inside the input. -/
theorem moved (h : CursorInside size s) (hpos : pos ≤ size) :
    CursorInside size { s with pos := pos } :=
  ⟨hpos, h.reads⟩

/-- The returns of the member functions read nothing. -/
theorem of_withoutReturns (h : CursorInside size (withoutReturns s)) : CursorInside size s := by
  refine ⟨h.cursor, ?_⟩
  intro e he
  cases e with
  | peek p => exact h.reads _ (List.mem_filter.mpr ⟨he, rfl⟩)
  | get p => exact h.reads _ (List.mem_filter.mpr ⟨he, rfl⟩)
  | substr p => exact h.reads _ (List.mem_filter.mpr ⟨he, rfl⟩)
  | returned callee entry exit => trivial

end CursorInside

/-! ## The operations on the cursor -/

/-- From a cursor inside the input that meets `P` the operation reads inside the input, and it
returns with `Q` of the value and the cursor. -/
def Guarded {α : Type} (size : ℕ) (P : ℕ → Prop) (x : Parser α) (Q : α → ℕ → Prop) : Prop :=
  Triple (CursorInside size) (fun s => P s.pos) x fun a s => Q a s.pos

section Rules

variable {α β : Type} {size : ℕ} {P : ℕ → Prop} {Q : α → ℕ → Prop} {R : β → ℕ → Prop}

/-- A value keeps what is known of the cursor. -/
theorem Guarded.pure {a : α} (h : ∀ p, P p → Q a p) : Guarded size P (Pure.pure a) Q :=
  Triple.pure fun s _ hp => h s.pos hp

/-- An exception reads nothing. -/
theorem Guarded.throwing (what : String) : Guarded size P (throwRuntime what : Parser α) Q :=
  Triple.throwing _

/-- The rule of sequence, with what is known of the cursor between the parts. -/
theorem Guarded.bind {x : Parser α} {f : α → Parser β} (hx : Guarded size P x Q)
    (hf : ∀ a, Guarded size (Q a) (f a) R) : Guarded size P (x >>= f) R :=
  Triple.bind hx hf

/-- The rule of choice: each branch knows how the test came out. -/
theorem Guarded.ite {c : Prop} [Decidable c] {x y : Parser α} (hx : c → Guarded size P x Q)
    (hy : ¬ c → Guarded size P y Q) : Guarded size P (if c then x else y) Q :=
  Triple.ite hx hy

end Rules

section Operations

variable {α : Type} {input : StringView} {P R : ℕ → Prop} {Q : α → ℕ → Prop}

/-- The position is where the cursor is. -/
theorem guarded_position :
    Guarded input.bytes.length P position fun start p => start = p ∧ P p := by
  refine fun s hs hp => ⟨hs, ?_⟩
  rintro a t ⟨⟩
  exact ⟨rfl, hp⟩

/-- A look needs a byte at the cursor. -/
theorem guarded_peek (hP : ∀ p, P p → p < input.bytes.length) :
    Guarded input.bytes.length P (peek input) fun _ => P := by
  refine fun s hs hp => ⟨hs.log (hP _ hp), ?_⟩
  rintro a t ⟨⟩
  exact hp

/-- Taking a byte needs one at the cursor, and goes one further. -/
theorem guarded_get (hP : ∀ p, P p → p < input.bytes.length) :
    Guarded input.bytes.length P (Model.get input) fun _ _ => True := by
  refine fun s hs hp => ⟨?_, fun _ _ _ => trivial⟩
  have hlt : s.pos < input.bytes.length := hP _ hp
  exact (hs.moved hlt).log hlt

/-- A step of the cursor needs a byte at the cursor. -/
theorem guarded_advance (hP : ∀ p, P p → p < input.bytes.length ∧ R (p + 1)) :
    Guarded input.bytes.length P advance fun _ => R := by
  refine fun s hs hp => ⟨hs.moved (hP _ hp).1, ?_⟩
  rintro a t ⟨⟩
  exact (hP _ hp).2

/-- A skip needs the place to be inside, in 64 bits. -/
theorem guarded_skip {count : ℕ}
    (hP : ∀ p, P p → (p + count) % sizeLimit ≤ input.bytes.length) :
    Guarded input.bytes.length P (skip count) fun _ _ => True :=
  fun _ hs hp => ⟨hs.moved (hP _ hp), fun _ _ _ => trivial⟩

/-- A part of the text needs its start to be inside. -/
theorem guarded_substr {start count : ℕ}
    (hP : ∀ p, p ≤ input.bytes.length → P p → start ≤ input.bytes.length ∧ R p) :
    Guarded input.bytes.length P (substr input start count) fun _ => R := by
  intro s hs hp
  obtain ⟨hle, hr⟩ := hP _ hs.cursor hp
  unfold substr
  rw [if_neg (not_lt.mpr hle)]
  refine ⟨hs.log hle, ?_⟩
  rintro a t ⟨⟩
  exact hr

/-- `eof` tells whether there is a byte at the cursor. -/
theorem guarded_unlessEof {x y : Parser α} (hend : Guarded input.bytes.length P x Q)
    (hbyte : Guarded input.bytes.length (fun p => P p ∧ p < input.bytes.length) y Q) :
    Guarded input.bytes.length P
      (eof input >>= fun ended => if ended = true then x else y) Q := by
  intro s hs hp
  simp only [bind_apply, eof, decide_eq_true_eq]
  by_cases hpos : input.bytes.length ≤ s.pos
  · rw [if_pos hpos]
    exact hend s hs hp
  · rw [if_neg hpos]
    exact hbyte s hs ⟨hp, not_le.mp hpos⟩

end Operations

/-! ## The pieces of the member functions -/

section Pieces

variable {input : StringView} {P : ℕ → Prop}

/-- A round of a loop passes a byte that is there. -/
theorem guarded_scanRound {stop : UInt8} {again after : Progress} {Q : Progress → ℕ → Prop}
    (hafter : ∀ p, P p → Q after p) (hagain : ∀ p, P p → Q again (p + 1)) :
    Guarded input.bytes.length P (scanRound input stop again after) Q := by
  refine guarded_unlessEof (Guarded.pure fun p hp => hafter p hp) ?_
  refine Guarded.bind (guarded_peek fun p hp => hp.2) fun c => ?_
  refine Guarded.ite (fun _ => Guarded.pure fun p hp => hafter p hp.1) fun _ => ?_
  exact Guarded.bind (guarded_advance fun p hp => ⟨hp.2, hagain p hp.1⟩) fun _ =>
    Guarded.pure fun p hp => hp

/-- A token starts where the loop began, and a byte is at the cursor behind it. -/
theorem guarded_tokenFrom {what : String} {start : ℕ} (hP : ∀ p, P p → start ≤ p) :
    Guarded input.bytes.length P (tokenFrom input what start) fun _ p =>
      p < input.bytes.length := by
  refine guarded_unlessEof (Guarded.throwing what) ?_
  refine Guarded.bind guarded_position fun stop => guarded_substr fun p hend hp => ?_
  exact ⟨(hP p hp.2.1).trans hend, hp.2.2⟩

/-- The reading of a length reads nothing of the input. -/
theorem guarded_lengthOf (token : Bytes) :
    Guarded input.bytes.length P (lengthOf token) fun _ => P := by
  unfold lengthOf
  split
  · exact Guarded.ite (fun _ => Guarded.pure fun _ hp => hp) fun _ => Guarded.throwing _
  · exact Guarded.throwing _

/-- The reading of an integer needs a byte at the cursor, its end. -/
theorem guarded_integerOf (token : Bytes) (hP : ∀ p, P p → p < input.bytes.length) :
    Guarded input.bytes.length P (integerOf input token) fun _ _ => True := by
  refine Guarded.bind (guarded_get hP) fun c => ?_
  split
  · exact Guarded.ite (fun _ => Guarded.pure fun _ _ => trivial) fun _ => Guarded.throwing _
  · exact Guarded.throwing _

/-- The end of the string was compared as `skip` computes it. -/
theorem guarded_stringOf (length : ℕ) :
    Guarded input.bytes.length P (stringOf input length) fun _ _ => True := by
  refine Guarded.bind guarded_position fun pos => ?_
  refine Guarded.ite (fun _ => Guarded.throwing _) fun hfits => ?_
  refine Guarded.bind (guarded_substr (R := fun p => pos = p) fun p hend hp =>
    ⟨hp.1.le.trans hend, hp.1⟩) fun output => ?_
  refine Guarded.bind (guarded_skip ?_) fun _ => Guarded.pure fun _ _ => trivial
  rintro p rfl
  exact not_lt.mp hfits

/-- A round of the loop of a list or a dictionary looks at the end before it reads. -/
theorem guarded_loopRound {α : Type} {what : String} {done : α} {next : Parser α}
    {Q : α → ℕ → Prop} (hdone : ∀ p, Q done p)
    (hnext : Guarded input.bytes.length (fun p => P p ∧ p < input.bytes.length) next Q) :
    Guarded input.bytes.length P (loopRound input what done next) Q := by
  refine guarded_unlessEof (Guarded.throwing what) ?_
  refine Guarded.bind (guarded_peek fun p hp => hp.2) fun c => ?_
  refine Guarded.ite (fun _ => ?_) fun _ => hnext
  exact Guarded.bind (guarded_get fun p hp => hp.2) fun _ => Guarded.pure fun p _ => hdone p

end Pieces

/-! ## The control points -/

/-- What is known of the cursor at a control point: where a byte is read at once there is one, and
a token begins before the cursor. -/
def Ready (size : ℕ) : Control → ℕ → Prop
  | .parseInteger, p => p < size
  | .integerLoop start, p => start ≤ p
  | .integerToken start, p => start ≤ p
  | .integerEnd _, p => p < size
  | .stringLoop _ lenStart, p => lenStart ≤ p
  | .stringToken _ lenStart, p => lenStart ≤ p
  | .stringColon _ _, p => p < size
  | .parseList, p => p < size
  | .parseDictionary, p => p < size
  | .parseValue, _ => True
  | .parseString _, _ => True
  | .stringBytes _ _, _ => True
  | .listLoop _, _ => True
  | .dictionaryLoop _, _ => True
  | .finish _, _ => True

/-- The same of a parser that may have ended. -/
def ProgressReady (size : ℕ) : Progress → ℕ → Prop
  | .active control _, p => Ready size control p
  | .returned _, _ => True
  | .threw _, _ => True

/-- A caller that goes on with a value is ready. -/
theorem ready_resume (size : ℕ) (callers : List Caller) (value : BencodeValue) (p : ℕ) :
    ProgressReady size (resume callers value) p := by
  cases callers with
  | nil => trivial
  | cons caller callers => cases caller <;> trivial

/-- So is one that goes on with a string. -/
theorem ready_resumeString (size : ℕ) (callers : List Caller) (text : Bytes) (use : StringUse)
    (p : ℕ) : ProgressReady size (resumeString callers text use) p := by
  cases use with
  | value => exact ready_resume size callers _ p
  | key dictionary => trivial

section Control

variable {input : StringView}

/-- What is done at a control point stays inside the input, and leads to a control point that is
ready. -/
theorem guarded_act (callers : List Caller) (control : Control) :
    Guarded input.bytes.length (Ready input.bytes.length control) (act input callers control)
      (ProgressReady input.bytes.length) := by
  cases control with
  | parseValue =>
      refine guarded_unlessEof (Guarded.throwing _) ?_
      refine Guarded.bind (guarded_peek fun p hp => hp.2) fun ch => ?_
      refine Guarded.ite (fun _ => Guarded.pure fun p hp => hp.2) fun _ => ?_
      refine Guarded.ite (fun _ => Guarded.pure fun p hp => hp.2) fun _ => ?_
      refine Guarded.ite (fun _ => Guarded.pure fun p hp => hp.2) fun _ => ?_
      exact Guarded.ite (fun _ => Guarded.pure fun p _ => trivial) fun _ => Guarded.throwing _
  | parseInteger =>
      refine Guarded.bind (guarded_get fun p hp => hp) fun c => ?_
      exact Guarded.bind guarded_position fun start => Guarded.pure fun p hp => hp.1.le
  | integerLoop start =>
      exact guarded_scanRound (fun p hp => hp) fun p hp => Nat.le_succ_of_le hp
  | integerToken start =>
      exact Guarded.bind (guarded_tokenFrom fun p hp => hp) fun token => Guarded.pure fun p hp => hp
  | integerEnd token =>
      exact Guarded.bind (guarded_integerOf token fun p hp => hp) fun value =>
        Guarded.pure fun p _ => ready_resume _ callers _ p
  | parseString use =>
      exact Guarded.bind guarded_position fun lenStart => Guarded.pure fun p hp => hp.1.le
  | stringLoop use lenStart =>
      exact guarded_scanRound (fun p hp => hp) fun p hp => Nat.le_succ_of_le hp
  | stringToken use lenStart =>
      refine Guarded.bind (guarded_tokenFrom fun p hp => hp) fun token => ?_
      exact Guarded.bind (guarded_lengthOf token) fun length => Guarded.pure fun p hp => hp
  | stringColon use length =>
      exact Guarded.bind (guarded_get fun p hp => hp) fun c => Guarded.pure fun p _ => trivial
  | stringBytes use length =>
      exact Guarded.bind (guarded_stringOf length) fun output =>
        Guarded.pure fun p _ => ready_resumeString _ callers output use p
  | parseList =>
      exact Guarded.bind (guarded_get fun p hp => hp) fun c => Guarded.pure fun p _ => trivial
  | listLoop items =>
      exact guarded_loopRound (ready_resume _ callers _) (Guarded.pure fun p _ => trivial)
  | parseDictionary =>
      exact Guarded.bind (guarded_get fun p hp => hp) fun c => Guarded.pure fun p _ => trivial
  | dictionaryLoop dictionary =>
      exact guarded_loopRound (ready_resume _ callers _) (Guarded.pure fun p _ => trivial)
  | finish value =>
      exact guarded_unlessEof (Guarded.pure fun p _ => trivial) (Guarded.throwing _)

end Control

/-! ## Runs -/

section Runs

variable {input : StringView}

/-- The machine has stayed inside the input, and may go on. -/
structure Safe (input : StringView) (m : Machine) : Prop where
  inside : CursorInside input.bytes.length m.state
  ready : ProgressReady input.bytes.length m.progress m.state.pos

/-- The machine starts inside the input. -/
theorem safe_start : Safe input start :=
  ⟨⟨Nat.zero_le _, nofun⟩, trivial⟩

/-- A step stays inside the input. -/
theorem Safe.step {m : Machine} (h : Safe input m) : Safe input (step input m) := by
  obtain ⟨progress, s⟩ := m
  cases progress with
  | active control callers =>
      have hact := guarded_act callers control s h.inside h.ready
      have hfree : TraceFree (act input callers control) := traceFree_act callers control
      have hends := hfree.ends s
      cases hrun : act input callers control s with
      | value next t =>
          rw [hrun] at hact
          simp only [BencodeMachine.step, hrun]
          exact ⟨hact.1, hact.2 next t rfl⟩
      | thrown e t =>
          rw [hrun] at hact
          simp only [BencodeMachine.step, hrun]
          exact ⟨hact.1, trivial⟩
      | running t => simp [hrun] at hends
  | returned value => exact h
  | threw e => exact h

/-- So do any number of steps. -/
theorem safe_iterate (n : ℕ) : Safe input ((BencodeMachine.step input)^[n] start) :=
  Function.Iterate.rec (Safe input) safe_start (fun _ => Safe.step) n

/-- Where the parser is when its fuel is spent, or when it has ended, the machine comes too. -/
theorem state_mem_iterate (fuel : ℕ) :
    ∃ n, ((BencodeMachine.step input)^[n] start).state =
      withoutReturns (parse input fuel).state := by
  refine (simulates_parse fuel).exists_view (fun _ _ => rfl) (fun _ _ => rfl) ?_
  rintro t m ⟨control, callers, rfl⟩
  rfl

/-- **The parser stays inside its input.**  However far a run has come, the cursor is not past the
end, and nothing was read outside: after every number of steps, and with every amount of fuel. -/
theorem parser_stays_inside (input : StringView) :
    (∀ n, CursorInside input.bytes.length ((BencodeMachine.step input)^[n] start).state) ∧
      ∀ fuel, CursorInside input.bytes.length (parse input fuel).state := by
  refine ⟨fun n => (safe_iterate n).inside, fun fuel => ?_⟩
  obtain ⟨n, hn⟩ := @state_mem_iterate input fuel
  have hinside := (@safe_iterate input n).inside
  rw [hn] at hinside
  exact hinside.of_withoutReturns

end Runs

end Vtfs.Analysis
