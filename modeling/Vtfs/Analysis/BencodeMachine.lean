import Vtfs.Library.Machines
import Vtfs.Model.BencodeMachine
import Vtfs.Analysis.BencodeAdequacy

/-!
# The machine carries out the parser

Each member function is carried out by the machine from the control point at which it is called,
with the same reads and the same cursor (`simulates_scanLoop`, `simulates_parseInteger`,
`simulates_parseString`); the recursive ones follow by induction on the fuel, since every call and
every round of a loop takes a step (`carriesOut_loopRound`).  The trace of the machine has no
returns, which `withoutReturns` leaves out of the trace of the parser.
-/

set_option autoImplicit false

namespace Vtfs.Analysis

open Vtfs.Library
open Vtfs.Library.Fueled
open Vtfs.Library.Machines
open Vtfs.Library.Decimal (fromCharsSigned fromCharsUnsigned isDigit)
open Vtfs.Model
open Vtfs.Model.BencodeMachine

/-! ## What the machine shows -/

/-- The event is a read of the input. -/
def isRead : Event → Bool
  | .returned _ _ _ => false
  | _ => true

/-- The state with the reads only. -/
def withoutReturns (s : ParserState) : ParserState := ⟨s.pos, s.trace.filter isRead⟩

/-- The machine as the driver of the parser. -/
def driver (input : StringView) : Driver Exception ParserState Machine where
  next := step input
  threw e s := ⟨.threw e, withoutReturns s⟩
  Busy s m := ∃ control callers, m = ⟨.active control callers, withoutReturns s⟩

/-! ## Operations that do not look at the trace -/

/-- The outcome with the reads only. -/
def readsOf {α : Type} : Outcome Exception ParserState α → Outcome Exception ParserState α
  | .value a t => .value a (withoutReturns t)
  | .thrown e t => .thrown e (withoutReturns t)
  | .running t => .running (withoutReturns t)

/-- The operation ends, logs reads only, and does the same whatever was logged before. -/
structure TraceFree {α : Type} (x : Parser α) : Prop where
  ends : ∀ s, (x s).Ended
  reads : ∀ s, x (withoutReturns s) = readsOf (x s)

section TraceFree

variable {α β : Type} (input : StringView)

/-- A value alone does not look at the trace. -/
theorem traceFree_pure (a : α) : TraceFree (pure a : Parser α) := ⟨fun _ => trivial, fun _ => rfl⟩

/-- An exception does not. -/
theorem traceFree_throwRuntime (what : String) : TraceFree (throwRuntime what : Parser α) :=
  ⟨fun _ => trivial, fun _ => rfl⟩

/-- The test for the end does not. -/
theorem traceFree_eof : TraceFree (eof input) := ⟨fun _ => trivial, fun _ => rfl⟩

/-- A look at a character records itself, whatever the trace is. -/
theorem traceFree_peek : TraceFree (peek input) := ⟨fun _ => trivial, fun _ => rfl⟩

/-- So does taking a character. -/
theorem traceFree_get : TraceFree (Model.get input) := ⟨fun _ => trivial, fun _ => rfl⟩

/-- The position does not look at the trace. -/
theorem traceFree_position : TraceFree position := ⟨fun _ => trivial, fun _ => rfl⟩

/-- Going one position further does not. -/
theorem traceFree_advance : TraceFree advance := ⟨fun _ => trivial, fun _ => rfl⟩

/-- Skipping does not. -/
theorem traceFree_skip (count : ℕ) : TraceFree (skip count) := ⟨fun _ => trivial, fun _ => rfl⟩

/-- Taking a part of the text records itself, whatever the trace is. -/
theorem traceFree_substr (start count : ℕ) : TraceFree (substr input start count) := by
  constructor
  · intro s
    unfold substr
    split <;> trivial
  · intro s
    unfold substr
    split <;> rfl

variable {input}

/-- A sequence of two that do not look at the trace does not. -/
theorem TraceFree.bind {x : Parser α} {f : α → Parser β} (hx : TraceFree x)
    (hf : ∀ a, TraceFree (f a)) : TraceFree (x >>= f) := by
  constructor
  · intro s
    have hends := hx.ends s
    rw [bind_apply]
    cases hxs : x s with
    | value a t => exact (hf a).ends t
    | thrown e t => trivial
    | running t => simp [hxs] at hends
  · intro s
    rw [bind_apply, bind_apply, hx.reads s]
    cases x s with
    | value a t => exact (hf a).reads t
    | thrown e t => rfl
    | running t => rfl

/-- A choice between two that do not look at the trace does not. -/
theorem TraceFree.ite {c : Prop} [Decidable c] {x y : Parser α} (hx : TraceFree x)
    (hy : TraceFree y) : TraceFree (if c then x else y) := by
  split
  · exact hx
  · exact hy

/-- A round of a scan does not. -/
theorem traceFree_scanRound (stop : UInt8) (again after : Progress) :
    TraceFree (scanRound input stop again after) :=
  (traceFree_eof input).bind fun _ => (traceFree_pure _).ite ((traceFree_peek input).bind fun _ =>
    (traceFree_pure _).ite (traceFree_advance.bind fun _ => traceFree_pure _))

/-- Taking the token does not. -/
theorem traceFree_tokenFrom (what : String) (start : ℕ) : TraceFree (tokenFrom input what start) :=
  (traceFree_eof input).bind fun _ => (traceFree_throwRuntime what).ite
    (traceFree_position.bind fun _ => traceFree_substr input _ _)

/-- The reading of an integer does not. -/
theorem traceFree_integerOf (token : Bytes) : TraceFree (integerOf input token) := by
  refine (traceFree_get input).bind fun _ => ?_
  split
  · exact (traceFree_pure _).ite (traceFree_throwRuntime _)
  · exact traceFree_throwRuntime _

/-- The reading of a length does not. -/
theorem traceFree_lengthOf (token : Bytes) : TraceFree (lengthOf token) := by
  unfold lengthOf
  split
  · exact (traceFree_pure _).ite (traceFree_throwRuntime _)
  · exact traceFree_throwRuntime _

/-- The text of a string is taken without a look at the trace. -/
theorem traceFree_stringOf (length : ℕ) : TraceFree (stringOf input length) :=
  traceFree_position.bind fun _ => (traceFree_throwRuntime _).ite
    ((traceFree_substr input _ _).bind fun _ => (traceFree_skip length).bind fun _ =>
      traceFree_pure _)

/-- A round of a loop does not look at the trace if what it goes on with does not. -/
theorem traceFree_loopRound {what : String} (done : α) {next : Parser α} (h : TraceFree next) :
    TraceFree (loopRound input what done next) :=
  (traceFree_eof input).bind fun _ => (traceFree_throwRuntime what).ite
    ((traceFree_peek input).bind fun _ =>
      ((traceFree_get input).bind fun _ => traceFree_pure done).ite h)

/-- So no control point looks at the trace. -/
theorem traceFree_act (callers : List Caller) (control : Control) :
    TraceFree (act input callers control) := by
  cases control with
  | parseValue =>
      exact (traceFree_eof input).bind fun _ => (traceFree_throwRuntime _).ite
        ((traceFree_peek input).bind fun _ => (traceFree_pure _).ite ((traceFree_pure _).ite
          ((traceFree_pure _).ite ((traceFree_pure _).ite (traceFree_throwRuntime _)))))
  | parseInteger =>
      exact (traceFree_get input).bind fun _ => traceFree_position.bind fun _ => traceFree_pure _
  | integerLoop start => exact traceFree_scanRound _ _ _
  | integerToken start => exact (traceFree_tokenFrom _ start).bind fun _ => traceFree_pure _
  | integerEnd token => exact (traceFree_integerOf token).bind fun _ => traceFree_pure _
  | parseString use => exact traceFree_position.bind fun _ => traceFree_pure _
  | stringLoop use lenStart => exact traceFree_scanRound _ _ _
  | stringToken use lenStart =>
      exact (traceFree_tokenFrom _ lenStart).bind fun token =>
        (traceFree_lengthOf token).bind fun _ => traceFree_pure _
  | stringColon use length => exact (traceFree_get input).bind fun _ => traceFree_pure _
  | stringBytes use length => exact (traceFree_stringOf length).bind fun _ => traceFree_pure _
  | parseList => exact (traceFree_get input).bind fun _ => traceFree_pure _
  | listLoop items => exact traceFree_loopRound _ (traceFree_pure _)
  | parseDictionary => exact (traceFree_get input).bind fun _ => traceFree_pure _
  | dictionaryLoop dictionary => exact traceFree_loopRound _ (traceFree_pure _)
  | finish value =>
      exact (traceFree_eof input).bind fun _ => (traceFree_pure _).ite (traceFree_throwRuntime _)

end TraceFree

/-! ## Functions without recursion -/

section Steps

variable {input : StringView} {callers : List Caller} {control : Control} {fuel : ℕ}

/-- Where its control point gives a progress, the machine makes it. -/
theorem step_value {s t : ParserState} {progress : Progress}
    (h : act input callers control s = .value progress t) :
    step input ⟨.active control callers, withoutReturns s⟩ = ⟨progress, withoutReturns t⟩ := by
  have hfree : TraceFree (act input callers control) := traceFree_act callers control
  have hreads := hfree.reads s
  rw [h] at hreads
  simp only [step, hreads, readsOf]

/-- Where its control point throws, the machine has thrown. -/
theorem step_thrown {s t : ParserState} {e : Exception}
    (h : act input callers control s = .thrown e t) :
    step input ⟨.active control callers, withoutReturns s⟩ = ⟨.threw e, withoutReturns t⟩ := by
  have hfree : TraceFree (act input callers control) := traceFree_act callers control
  have hreads := hfree.reads s
  rw [h] at hreads
  simp only [step, hreads, readsOf]

/-- Where a control point does an operation and goes on, the machine carries it out. -/
theorem simulates_act {α : Type} {x : Parser α} {k : α → Progress}
    (hact : act input callers control = x >>= fun a => pure (k a)) (s : ParserState) :
    Simulates (driver input) fuel ⟨.active control callers, withoutReturns s⟩
      (fun a t => ⟨k a, withoutReturns t⟩) (x s) := by
  have hfree : TraceFree (act input callers control) := traceFree_act callers control
  have hends := hfree.ends s
  have hrun : act input callers control s = (x >>= fun a => pure (k a)) s := by rw [hact]
  rw [bind_apply] at hrun
  cases hx : x s with
  | value a t =>
      rw [hx] at hrun
      exact .of_step (step_value hrun) (.value rfl)
  | thrown e t =>
      rw [hx] at hrun
      exact .of_step (step_thrown hrun) (.thrown rfl)
  | running t =>
      rw [hx] at hrun
      simp [hrun] at hends

/-- The return of a member function is no step of the machine. -/
theorem simulates_member {α : Type} {m : Machine} {next : α → Progress} {callee : Member}
    {body : Parser α} {s : ParserState}
    (h : Simulates (driver input) fuel m (fun a t => ⟨next a, withoutReturns t⟩) (body s)) :
    Simulates (driver input) fuel m (fun a t => ⟨next a, withoutReturns t⟩)
      (member callee body s) := by
  unfold member
  cases hbody : body s with
  | value a t => rwa [hbody] at h
  | thrown e t => rwa [hbody] at h
  | running t => rwa [hbody] at h

/-- A loop to the next stop byte, at a control point that does a round of it. -/
theorem simulates_scanLoop {stop : UInt8} {p : Progress}
    (hround : act input callers control =
      scanRound input stop (.active control callers) p)
    (unread : Bytes) (s : ParserState) (h : input.bytes.drop s.pos = unread) :
    Simulates (driver input) fuel ⟨.active control callers, withoutReturns s⟩
      (fun _ t => ⟨p, withoutReturns t⟩) (scanLoop input stop unread s) := by
  induction unread generalizing s with
  | nil =>
      have hend : input.bytes.length ≤ s.pos := List.drop_eq_nil_iff.mp h
      have hact : act input callers control s = .value p s := by
        rw [hround]
        simp only [scanRound, bind_apply, eof, hend, decide_true, if_true, pure_apply]
      exact .of_step (step_value hact) (.value rfl)
  | cons c rest ih =>
      have hchar := getElem?_of_drop h
      have hlt : s.pos < input.bytes.length := (List.getElem?_eq_some_iff.mp hchar).1
      have hpeek : input.bytes.getD s.pos 0 = c := by simp [List.getD, hchar]
      by_cases hc : c = stop
      · have hrun : scanLoop input stop (c :: rest) s = .value () (s.log (.peek s.pos)) := by
          simp only [scanLoop, bind_apply, eof, peek, hpeek, hc, decide_eq_true_eq,
            not_le.mpr hlt, if_false, if_true, pure_apply]
        have hact : act input callers control s = .value p (s.log (.peek s.pos)) := by
          rw [hround]
          simp only [scanRound, bind_apply, eof, peek, hpeek, hc, decide_eq_true_eq,
            not_le.mpr hlt, if_false, if_true, pure_apply]
        rw [hrun]
        exact .of_step (step_value hact) (.value rfl)
      · have hrun : scanLoop input stop (c :: rest) s =
            scanLoop input stop rest { s.log (.peek s.pos) with pos := s.pos + 1 } := by
          simp only [scanLoop, bind_apply, eof, peek, advance, hpeek, hc, decide_eq_true_eq,
            not_le.mpr hlt, if_false, ParserState.log_pos]
        have hact : act input callers control s =
            .value (.active control callers) { s.log (.peek s.pos) with pos := s.pos + 1 } := by
          rw [hround]
          simp only [scanRound, bind_apply, eof, peek, advance, hpeek, hc, decide_eq_true_eq,
            not_le.mpr hlt, if_false, pure_apply, ParserState.log_pos]
        rw [hrun]
        exact .of_step (step_value hact) (ih _ (drop_of_cons h))

/-- The parser of integers, cut where the machine stops. -/
theorem parseInteger_eq : parseInteger input = member .parseInteger
    ((Model.get input >>= fun _ => position) >>= fun start => scan input (byte 'e') >>= fun _ =>
      tokenFrom input "Unterminated integer." start >>= fun token => integerOf input token) := by
  unfold parseInteger
  congr 1
  funext s
  simp only [bind_apply, Model.get, position]
  cases scan input (byte 'e') ({ s with pos := s.pos + 1 }.log (.get s.pos)) with
  | value a t =>
      simp only [tokenFrom, bind_apply, eof, position, decide_eq_true_eq, apply_ite_apply]
      split
      · rfl
      · cases substr input (s.pos + 1) (t.pos - (s.pos + 1)) t <;> rfl
  | thrown e t => rfl
  | running t => rfl

/-- The machine carries out the parser of integers. -/
theorem simulates_parseInteger (s : ParserState) :
    Simulates (driver input) fuel ⟨.active .parseInteger callers, withoutReturns s⟩
      (fun i t => ⟨resume callers (.integer i), withoutReturns t⟩) (parseInteger input s) := by
  rw [parseInteger_eq]
  refine simulates_member (Simulates.bind (simulates_act
    (k := fun start => .active (.integerLoop start) callers) rfl s) fun start t _ => ?_)
  refine Simulates.bind (simulates_scanLoop (p := .active (.integerToken start) callers)
    rfl _ t rfl) fun _ u _ => ?_
  exact Simulates.bind (simulates_act (k := fun token => .active (.integerEnd token) callers)
    rfl u) fun token w _ => simulates_act rfl w

/-- The parser of strings, cut where the machine stops. -/
theorem parseString_eq : parseString input = member .parseString
    (position >>= fun lenStart => scan input (byte ':') >>= fun _ =>
      (tokenFrom input "Invalid string length header." lenStart >>= fun token => lengthOf token) >>=
        fun length => Model.get input >>= fun _ => stringOf input length) := by
  unfold parseString
  congr 1
  funext s
  simp only [bind_apply, position]
  cases scan input (byte ':') s with
  | value a t =>
      simp only [tokenFrom, bind_apply, eof, position, decide_eq_true_eq, apply_ite_apply]
      split
      · rfl
      · cases substr input s.pos (t.pos - s.pos) t with
        | value token u =>
            dsimp only [lengthOf]
            cases fromCharsUnsigned sizeLimit token with
            | none => rfl
            | some pair =>
                obtain ⟨length, consumed⟩ := pair
                by_cases hwhole : consumed = token.length
                · simp only [hwhole, if_true]
                  rfl
                · simp only [hwhole, if_false]
                  rfl
        | thrown e u => rfl
        | running u => rfl
  | thrown e t => rfl
  | running t => rfl

/-- The machine carries out the parser of strings, for each use of the string. -/
theorem simulates_parseString (use : StringUse) (s : ParserState) :
    Simulates (driver input) fuel ⟨.active (.parseString use) callers, withoutReturns s⟩
      (fun text t => ⟨resumeString callers text use, withoutReturns t⟩) (parseString input s) := by
  rw [parseString_eq]
  refine simulates_member (Simulates.bind (simulates_act
    (k := fun lenStart => .active (.stringLoop use lenStart) callers) rfl s) fun lenStart t _ => ?_)
  refine Simulates.bind (simulates_scanLoop
    (p := .active (.stringToken use lenStart) callers) rfl _ t rfl) fun _ u _ => ?_
  refine Simulates.bind (simulates_act
    (k := fun length => .active (.stringColon use length) callers) (bind_bind _ _ _).symm u)
    fun length w _ => ?_
  exact Simulates.bind (simulates_act (k := fun _ => .active (.stringBytes use length) callers)
    rfl w) fun _ x _ => simulates_act rfl x

end Steps

/-! ## The recursive functions -/

section Recursion

variable {input : StringView}

/-- The machine, called with `callers` on the stack, carries out the function. -/
def CarriesOut {α : Type} (input : StringView) (fuel : ℕ) (control : Control)
    (next : List Caller → α → Progress) (x : Parser α) : Prop :=
  ∀ callers s, Simulates (driver input) fuel ⟨.active control callers, withoutReturns s⟩
    (fun a t => ⟨next callers a, withoutReturns t⟩) (x s)

/-- The recursive functions with fuel `n` are carried out, in at least `n` steps if they stall. -/
structure AllCarriedOut (input : StringView) (n : ℕ) : Prop where
  value : CarriesOut input n .parseValue resume (parseValue input n)
  list : CarriesOut input n .parseList (fun callers items => resume callers (.list items))
    (parseList input n)
  listLoop : ∀ acc, CarriesOut input n (.listLoop acc)
    (fun callers items => resume callers (.list items)) (parseListLoop input n acc)
  dictionary : CarriesOut input n .parseDictionary
    (fun callers entries => resume callers (.dictionary entries)) (parseDictionary input n)
  dictionaryLoop : ∀ acc, CarriesOut input n (.dictionaryLoop acc)
    (fun callers entries => resume callers (.dictionary entries)) (parseDictionaryLoop input n acc)

/-- Without fuel there is nothing to carry out. -/
theorem carriesOut_stalled {α : Type} (control : Control) (next : List Caller → α → Progress) :
    CarriesOut input 0 control next (stalled : Parser α) :=
  fun callers _ => .stalled ⟨control, callers, rfl⟩

/-- What `parseValue` does at the first character, by the character. -/
theorem act_parseValue {callers : List Caller} {s : ParserState} {c : UInt8}
    (h : input.bytes[s.pos]? = some c) : act input callers .parseValue s =
      (if c = byte 'i' then pure (.active .parseInteger callers)
      else if c = byte 'l' then pure (.active .parseList callers)
      else if c = byte 'd' then pure (.active .parseDictionary callers)
      else if isDigit c then pure (.active (.parseString .value) callers)
      else throwRuntime "Invalid bencode token.") (s.log (.peek s.pos)) := by
  have hlt : s.pos < input.bytes.length := (List.getElem?_eq_some_iff.mp h).1
  simp only [act, bind_apply, eof, decide_eq_true_eq, not_le.mpr hlt, if_false,
    peek_of_getElem? input h]

/-- The step for values. -/
theorem carriesOut_parseValue {n : ℕ} (ih : AllCarriedOut input n) :
    CarriesOut input (n + 1) .parseValue resume (parseValue input (n + 1)) := by
  intro callers s
  rcases eof_or_getElem? input s.pos with hend | ⟨hlt, c, hc⟩
  · have hrun : parseValue input (n + 1) s =
        .thrown (.runtimeError "Unexpected end of input.") s := by
      simp only [parseValue, member, bind_apply, eof, decide_eq_true_eq, hend, if_true,
        throwRuntime, throwing_apply]
    have hact : act input callers .parseValue s =
        .thrown (.runtimeError "Unexpected end of input.") s := by
      simp only [act, bind_apply, eof, decide_eq_true_eq, hend, if_true, throwRuntime,
        throwing_apply]
    rw [hrun]
    exact .of_step (step_thrown hact) (.thrown rfl)
  · have hact := @act_parseValue input callers s c hc
    rw [parseValue_dispatch input hc, dispatch]
    refine simulates_member ?_
    by_cases hi : c = byte 'i'
    · rw [if_pos hi] at hact ⊢
      exact .of_next (step_value hact) (Simulates.bind (simulates_parseInteger _)
        fun v t _ => .value rfl)
    rw [if_neg hi] at hact ⊢
    by_cases hl : c = byte 'l'
    · rw [if_pos hl] at hact ⊢
      exact .of_next (step_value hact) (Simulates.bind (ih.list callers _)
        fun v t _ => .value rfl)
    rw [if_neg hl] at hact ⊢
    by_cases hd : c = byte 'd'
    · rw [if_pos hd] at hact ⊢
      exact .of_next (step_value hact) (Simulates.bind (ih.dictionary callers _)
        fun v t _ => .value rfl)
    rw [if_neg hd] at hact ⊢
    by_cases hdigit : isDigit c = true
    · rw [if_pos hdigit] at hact ⊢
      exact .of_next (step_value hact) (Simulates.bind (simulates_parseString .value _)
        fun v t _ => .value rfl)
    · rw [if_neg hdigit] at hact ⊢
      exact .of_step (step_thrown hact) (.thrown rfl)

/-- The step for lists. -/
theorem carriesOut_parseList {n : ℕ} (ih : AllCarriedOut input n) :
    CarriesOut input (n + 1) .parseList (fun callers items => resume callers (.list items))
      (parseList input (n + 1)) := by
  intro callers s
  let entered : ParserState := { s with pos := s.pos + 1 }.log (.get s.pos)
  have hact : act input callers .parseList s = .value (.active (.listLoop []) callers) entered :=
    rfl
  have hloop := ih.listLoop [] callers entered
  exact simulates_member (.of_next (step_value hact) hloop)

/-- The step for dictionaries. -/
theorem carriesOut_parseDictionary {n : ℕ} (ih : AllCarriedOut input n) :
    CarriesOut input (n + 1) .parseDictionary
      (fun callers entries => resume callers (.dictionary entries))
      (parseDictionary input (n + 1)) := by
  intro callers s
  let entered : ParserState := { s with pos := s.pos + 1 }.log (.get s.pos)
  have hact : act input callers .parseDictionary s =
      .value (.active (.dictionaryLoop []) callers) entered := rfl
  have hloop := ih.dictionaryLoop [] callers entered
  exact simulates_member (.of_next (step_value hact) hloop)

/-- A control point that does a round of a loop. -/
theorem carriesOut_loopRound {α : Type} {n : ℕ} {control : Control} {what : String} {done : α}
    {x : Parser α} {next : List Caller → α → Progress} (again : List Caller → Progress)
    (hact : ∀ callers, act input callers control =
      loopRound input what (next callers done) (pure (again callers)))
    (hx : ∀ callers s, Simulates (driver input) n ⟨again callers, withoutReturns s⟩
      (fun a t => ⟨next callers a, withoutReturns t⟩) (x s)) :
    CarriesOut input (n + 1) control next (loopRound input what done x) := by
  intro callers s
  have hround := congrFun (hact callers) s
  rcases eof_or_getElem? input s.pos with hend | ⟨hlt, c, hc⟩
  · rw [loopRound_end input what _ _ hend] at hround ⊢
    exact .of_step (step_thrown hround) (.thrown rfl)
  by_cases he : c = byte 'e'
  · subst he
    rw [loopRound_close input what _ _ hc] at hround ⊢
    exact .of_step (step_value hround) (.value rfl)
  · rw [loopRound_next input what _ _ hc he] at hround ⊢
    exact .of_next (step_value hround) (hx callers _)

/-- The step for the loop over a list. -/
theorem carriesOut_listLoop {n : ℕ} (ih : AllCarriedOut input n) (acc : List BencodeValue) :
    CarriesOut input (n + 1) (.listLoop acc) (fun callers items => resume callers (.list items))
      (parseListLoop input (n + 1) acc) := by
  rw [parseListLoop_succ]
  refine carriesOut_loopRound (fun callers => .active .parseValue (.list acc :: callers))
    (fun callers => rfl) fun callers s => ?_
  exact Simulates.bind (ih.value _ s) fun item t _ => ih.listLoop _ callers t

/-- The step for the loop over a dictionary. -/
theorem carriesOut_dictionaryLoop {n : ℕ} (ih : AllCarriedOut input n) (acc : BencodeDictionary) :
    CarriesOut input (n + 1) (.dictionaryLoop acc)
      (fun callers entries => resume callers (.dictionary entries))
      (parseDictionaryLoop input (n + 1) acc) := by
  rw [parseDictionaryLoop_succ]
  refine carriesOut_loopRound (fun callers => .active (.parseString (.key acc)) callers)
    (fun callers => rfl) fun callers s => ?_
  refine Simulates.bind (simulates_parseString (.key acc) s) fun key t _ => ?_
  exact Simulates.bind (ih.value (.dictionary acc key :: callers) t)
    fun child u _ => ih.dictionaryLoop _ callers u

/-- The machine carries out all of the parser, with any fuel. -/
theorem allCarriedOut (n : ℕ) : AllCarriedOut input n := by
  induction n with
  | zero =>
      exact ⟨carriesOut_stalled _ _, carriesOut_stalled _ _, fun _ => carriesOut_stalled _ _,
        carriesOut_stalled _ _, fun _ => carriesOut_stalled _ _⟩
  | succ n ih =>
      exact ⟨carriesOut_parseValue ih, carriesOut_parseList ih, carriesOut_listLoop ih,
        carriesOut_parseDictionary ih, carriesOut_dictionaryLoop ih⟩

end Recursion

/-! ## The root -/

section Root

variable {input : StringView}

/-- **The machine carries out the parser.** -/
theorem simulates_parse (fuel : ℕ) :
    Simulates (driver input) fuel start (fun v t => ⟨.returned v, withoutReturns t⟩)
      (parse input fuel) := by
  refine Simulates.bind ((allCarriedOut fuel).value [] parserStart) fun v t _ => ?_
  have hact : ∀ s, act input [] (.finish v) s =
      (if input.bytes.length ≤ s.pos then pure (.returned v)
        else throwRuntime "Trailing bytes after bencode root value.") s := by
    intro s
    simp only [act, bind_apply, eof, decide_eq_true_eq]
  by_cases hend : input.bytes.length ≤ t.pos
  · have hrun := hact t
    rw [if_pos hend] at hrun
    simp only [bind_apply, eof, decide_eq_true_eq, hend, if_true, pure_apply]
    exact .of_step (step_value hrun) (.value rfl)
  · have hrun := hact t
    rw [if_neg hend] at hrun
    simp only [bind_apply, eof, decide_eq_true_eq, hend, if_false, throwRuntime, throwing_apply]
    exact .of_step (step_thrown hrun) (.thrown rfl)

end Root

end Vtfs.Analysis
