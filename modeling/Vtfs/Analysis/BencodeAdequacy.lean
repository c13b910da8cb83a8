import Vtfs.Interface.BencodeReading

/-!
# The parser computes the reading relation

One lemma describes each member function without recursion (`scan_spec`, `parseInteger_spec`,
`parseString_spec`): it returns exactly when the relation holds, and otherwise throws.  From
these, by induction on the fuel, what the recursive functions return is read
(`parseValue_sound`), and by induction on the reading, whatever is read is returned with enough
fuel (`Reads.parseValue_complete`).
-/

set_option autoImplicit false

namespace Vtfs.Analysis

open Vtfs.Library
open Vtfs.Library.Fueled
open Vtfs.Library.Decimal (fromCharsSigned fromCharsUnsigned isDigit value)
open Vtfs.Model
open Vtfs.Interface

/-! ## The trace -/

/-- No event of the list is a return of a member function. -/
def Quiet (events : List Event) : Prop :=
  ∀ callee entry exit, Event.returned callee entry exit ∉ events

/-- No events are quiet. -/
@[simp] theorem quiet_nil : Quiet [] := fun _ _ _ => List.not_mem_nil

/-- A look at a character is quiet. -/
theorem Quiet.peek {events : List Event} (h : Quiet events) (p : ℕ) :
    Quiet (.peek p :: events) := fun c a b => by simpa using h c a b

/-- Taking a character is quiet. -/
theorem Quiet.get {events : List Event} (h : Quiet events) (p : ℕ) :
    Quiet (.get p :: events) := fun c a b => by simpa using h c a b

/-- Taking a part of the text is quiet. -/
theorem Quiet.substr {events : List Event} (h : Quiet events) (p : ℕ) :
    Quiet (.substr p :: events) := fun c a b => by simpa using h c a b

/-- Quiet events after quiet events are quiet. -/
theorem Quiet.append {events events' : List Event} (h : Quiet events) (h' : Quiet events') :
    Quiet (events ++ events') := fun c a b => by
  rw [List.mem_append, not_or]
  exact ⟨h c a b, h' c a b⟩

section Steps

variable (input : StringView)

/-! ## Functions without recursion -/

/-- The scan stops at the next stop byte or at the end. -/
theorem scanLoop_spec (stop : UInt8) (unread : Bytes) (p : ℕ) (trace : List Event)
    (h : input.bytes.drop p = unread) :
    ∃ events, Quiet events ∧ scanLoop input stop unread ⟨p, trace⟩ =
      .value () ⟨p + (upTo stop unread).length, events ++ trace⟩ := by
  induction unread generalizing p trace with
  | nil => exact ⟨[], quiet_nil, by simp [scanLoop, upTo]⟩
  | cons c rest ih =>
      have hlt : p < input.bytes.length := by
        by_contra hge
        rw [List.drop_eq_nil_of_le (not_lt.mp hge)] at h
        simp at h
      have hchar : input.bytes.getD p 0 = c := by
        have h0 : (input.bytes.drop p)[0]? = some c := by rw [h]; rfl
        simp only [List.getElem?_drop, Nat.add_zero] at h0
        simp [List.getD, h0]
      have hrest : input.bytes.drop (p + 1) = rest := by
        rw [← List.drop_drop, h]; rfl
      by_cases hc : c = stop
      · refine ⟨[.peek p], Quiet.peek quiet_nil p, ?_⟩
        simp only [scanLoop, bind_apply, eof, peek, hchar, hc, decide_eq_true_eq,
          not_le.mpr hlt, if_false, if_true]
        simp [upTo, ParserState.log]
      · obtain ⟨events, hquiet, hrun⟩ := ih (p + 1) (.peek p :: trace) hrest
        refine ⟨events ++ [.peek p], hquiet.append (Quiet.peek quiet_nil p), ?_⟩
        have hscan : (upTo stop (c :: rest)).length = (upTo stop rest).length + 1 := by
          simp [upTo, hc]
        simp only [scanLoop, bind_apply, eof, peek, advance, hchar, hc, ParserState.log,
          decide_eq_true_eq, not_le.mpr hlt, if_false, hrun, hscan, List.append_assoc,
          List.singleton_append]
        congr 2
        omega

/-- A scan goes up to the first stop, or to the end, and returns from no string. -/
theorem scan_spec (stop : UInt8) (s : ParserState) :
    ∃ events, Quiet events ∧ scan input stop s =
      .value () ⟨s.pos + (upTo stop (input.bytes.drop s.pos)).length, events ++ s.trace⟩ :=
  scanLoop_spec input stop _ s.pos s.trace rfl

/-- Where there is a stop, a scan ends at it, within the text. -/
theorem scan_found {stop : UInt8} {s : ParserState} {token rest : Bytes}
    (h : input.bytes.drop s.pos = token ++ stop :: rest) (hstop : stop ∉ token) :
    s.pos + token.length < input.bytes.length ∧
    ∃ events, Quiet events ∧ scan input stop s =
      .value () ⟨s.pos + token.length, events ++ s.trace⟩ := by
  refine ⟨?_, ?_⟩
  · have hlen := congrArg List.length h
    simp only [List.length_drop, List.length_append, List.length_cons] at hlen
    omega
  · obtain ⟨events, hquiet, hscan⟩ := scan_spec input stop s
    rw [h, upTo_append hstop] at hscan
    exact ⟨events, hquiet, hscan⟩

/-- Where there is none, a scan ends at the end of the text. -/
theorem scan_missing {stop : UInt8} {s : ParserState} (h : stop ∉ input.bytes.drop s.pos) :
    ∃ events p, Quiet events ∧ input.bytes.length ≤ p ∧ scan input stop s =
      .value () ⟨p, events ++ s.trace⟩ := by
  obtain ⟨events, hquiet, hscan⟩ := scan_spec input stop s
  refine ⟨events, _, hquiet, ?_, hscan⟩
  have hall : upTo stop (input.bytes.drop s.pos) = input.bytes.drop s.pos := by
    apply List.takeWhile_eq_self_iff.mpr
    intro c hc
    have hne : c ≠ stop := fun heq => h (heq ▸ hc)
    simpa using hne
  rw [hall, List.length_drop]
  omega

/-- What was scanned is the token. -/
theorem take_token {p : ℕ} {token rest : Bytes} {stop : UInt8}
    (h : input.bytes.drop p = token ++ stop :: rest) :
    (input.bytes.drop p).take (p + token.length - p) = token := by
  rw [h, Nat.add_sub_cancel_left, List.take_left]

/-- What the relation reads as a string is returned, with the cursor behind it. -/
theorem parseString_of_reads {s : ParserState} {text : Bytes} {q : ℕ}
    (h : ReadsString input.bytes s.pos text q) :
    ∃ events, Quiet events ∧ parseString input s =
      .value text ⟨q, .returned .parseString s.pos q :: (events ++ s.trace)⟩ := by
  obtain ⟨token, hheader, hq, hle, htext⟩ := h
  obtain ⟨rest, hrest⟩ := hheader.split
  obtain ⟨hlt, events, hquiet, hscan⟩ := scan_found input hrest hheader.colon_not_mem
  have hchars : fromCharsUnsigned sizeLimit token = some (value token, token.length) :=
    Decimal.fromCharsUnsigned_eq_iff.mpr ⟨hheader.nonempty, hheader.digits, rfl, hheader.fits⟩
  have hend := hheader.headerEnd_le
  rw [hq] at hle
  unfold headerEnd at hle hend htext hq
  refine ⟨[.substr (s.pos + token.length + 1), .get (s.pos + token.length),
    .substr s.pos] ++ events, ?_, ?_⟩
  · exact ((Quiet.substr quiet_nil _).get _ |>.substr _).append hquiet
  · have hstart : ¬ input.bytes.length < s.pos := by omega
    simp only [parseString, member, bind_apply, position, hscan, eof, decide_eq_true_eq,
      not_le.mpr hlt, if_false, substr, hstart, take_token input hrest, hchars, if_true, Model.get,
      ParserState.log, not_lt.mpr hle, not_lt.mpr hend, skip, pure_apply]
    rw [← hq, ← htext]
    simp

/-- Where no string is read, an exception is thrown. -/
theorem parseString_throws {s : ParserState}
    (h : ∀ text q, ¬ ReadsString input.bytes s.pos text q) :
    ∃ e p events, Quiet events ∧ parseString input s = .thrown e ⟨p, events ++ s.trace⟩ := by
  by_cases hstop : byte ':' ∈ input.bytes.drop s.pos
  · obtain ⟨rest, hrest⟩ := exists_upTo_append hstop
    obtain ⟨hlt, events, hquiet, hscan⟩ :=
      scan_found input hrest (stop_not_mem_upTo (byte ':') _)
    generalize htoken : upTo (byte ':') (input.bytes.drop s.pos) = token at *
    have hstart : ¬ input.bytes.length < s.pos := by omega
    -- the token is a whole number below the limit, or it is rejected
    by_cases hwhole : ∃ L, fromCharsUnsigned sizeLimit token = some (L, token.length)
    · obtain ⟨L, hchars⟩ := hwhole
      obtain ⟨hne, hdigits, hvalue, hfits⟩ := Decimal.fromCharsUnsigned_eq_iff.mp hchars
      have hheader : HeaderAt input.bytes s.pos token :=
        ⟨⟨rest, hrest⟩, hne, hdigits, hvalue ▸ hfits⟩
      have hover : input.bytes.length < (s.pos + token.length + 1 + L) % sizeLimit := by
        by_contra hle
        exact h _ _ ⟨token, hheader, rfl, by unfold headerEnd; rw [hvalue]; omega, rfl⟩
      refine ⟨.runtimeError "String exceeds input size.", s.pos + token.length + 1,
        [.get (s.pos + token.length), .substr s.pos] ++ events, ?_, ?_⟩
      · exact ((Quiet.substr quiet_nil _).get _).append hquiet
      · simp only [parseString, member, bind_apply, position, hscan, eof, decide_eq_true_eq,
          not_le.mpr hlt, if_false, substr, hstart, take_token input hrest, hchars, if_true,
          Model.get, ParserState.log, hover, throwRuntime, throwing_apply]
        simp
    · refine ⟨.runtimeError "Invalid string length.", s.pos + token.length,
        [.substr s.pos] ++ events, (Quiet.substr quiet_nil _).append hquiet, ?_⟩
      simp only [parseString, member, bind_apply, position, hscan, eof, decide_eq_true_eq,
        not_le.mpr hlt, if_false, substr, hstart, take_token input hrest, ParserState.log]
      cases hchars : fromCharsUnsigned sizeLimit token with
      | none => simp [throwRuntime]
      | some pair =>
          obtain ⟨L, n⟩ := pair
          have hn : ¬ n = token.length := fun heq => hwhole ⟨L, heq ▸ hchars⟩
          simp [hn, throwRuntime]
  · obtain ⟨events, p, hquiet, hp, hscan⟩ := scan_missing input hstop
    refine ⟨.runtimeError "Invalid string length header.", p, events, hquiet, ?_⟩
    simp only [parseString, member, bind_apply, position, hscan, eof, decide_eq_true_eq, hp,
      if_true, throwRuntime, throwing_apply]

/-- What the relation reads as an integer is returned, with the cursor behind it. -/
theorem parseInteger_of_reads {s : ParserState} {i : Int64} {q : ℕ}
    (h : ReadsInteger input.bytes s.pos i q) :
    ∃ events, Quiet events ∧ parseInteger input s =
      .value i ⟨q, .returned .parseInteger s.pos q :: (events ++ s.trace)⟩ := by
  obtain ⟨token, rest, v, hrest, hstop, hchars, rfl, rfl⟩ := h
  obtain ⟨hlt, events, hquiet, hscan⟩ :=
    scan_found input (s := ⟨s.pos + 1, .get s.pos :: s.trace⟩) hrest hstop
  simp only at hlt hscan
  refine ⟨[.get (s.pos + 1 + token.length), .substr (s.pos + 1)] ++ (events ++ [.get s.pos]),
    ?_, ?_⟩
  · exact ((Quiet.substr quiet_nil _).get _).append (hquiet.append (Quiet.get quiet_nil _))
  · have hstart : ¬ input.bytes.length < s.pos + 1 := by omega
    simp only [parseInteger, member, bind_apply, Model.get, ParserState.log, position, hscan, eof,
      decide_eq_true_eq, not_le.mpr hlt, if_false, substr, hstart, take_token input hrest, hchars,
      if_true, pure_apply]
    simp

/-- Where no integer is read, an exception is thrown. -/
theorem parseInteger_throws {s : ParserState}
    (h : ∀ i q, ¬ ReadsInteger input.bytes s.pos i q) :
    ∃ e p events, Quiet events ∧ parseInteger input s = .thrown e ⟨p, events ++ s.trace⟩ := by
  by_cases hstop : byte 'e' ∈ input.bytes.drop (s.pos + 1)
  · obtain ⟨rest, hrest⟩ := exists_upTo_append hstop
    have hfree := stop_not_mem_upTo (byte 'e') (input.bytes.drop (s.pos + 1))
    obtain ⟨hlt, events, hquiet, hscan⟩ :=
      scan_found input (s := ⟨s.pos + 1, .get s.pos :: s.trace⟩) hrest hfree
    generalize htoken : upTo (byte 'e') (input.bytes.drop (s.pos + 1)) = token at *
    simp only at hlt hscan
    have hstart : ¬ input.bytes.length < s.pos + 1 := by omega
    refine ⟨.runtimeError "Invalid integer value.", s.pos + 1 + token.length + 1,
      [.get (s.pos + 1 + token.length), .substr (s.pos + 1)] ++ (events ++ [.get s.pos]), ?_, ?_⟩
    · exact ((Quiet.substr quiet_nil _).get _).append (hquiet.append (Quiet.get quiet_nil _))
    · simp only [parseInteger, member, bind_apply, Model.get, ParserState.log, position, hscan, eof,
        decide_eq_true_eq, not_le.mpr hlt, if_false, substr, hstart, take_token input hrest]
      cases hchars : fromCharsSigned (2 ^ 63) token with
      | none => simp [throwRuntime]
      | some pair =>
          obtain ⟨v, n⟩ := pair
          have hn : ¬ n = token.length := fun heq =>
            h _ _ ⟨token, rest, v, hrest, hfree, heq ▸ hchars, rfl, rfl⟩
          simp [hn, throwRuntime]
  · obtain ⟨events, p, hquiet, hp, hscan⟩ :=
      scan_missing input (s := ⟨s.pos + 1, .get s.pos :: s.trace⟩) hstop
    refine ⟨.runtimeError "Unterminated integer.", p, events ++ [.get s.pos],
      hquiet.append (Quiet.get quiet_nil _), ?_⟩
    simp only at hscan
    simp only [parseInteger, member, bind_apply, Model.get, ParserState.log, position, hscan, eof,
      decide_eq_true_eq, hp, if_true, throwRuntime, throwing_apply]
    simp

/-! ## One step of the recursive functions -/

/-- A member function returns what its body does, and its return is recorded. -/
theorem member_eq_value_iff {α : Type} {callee : Member} {body : Parser α} {s t : ParserState}
    {a : α} : member callee body s = .value a t ↔
      ∃ u, body s = .value a u ∧ t = u.log (.returned callee s.pos u.pos) := by
  unfold member
  cases body s with
  | value b u =>
      simp only [Outcome.value.injEq]
      constructor
      · rintro ⟨rfl, rfl⟩
        exact ⟨u, ⟨rfl, rfl⟩, rfl⟩
      · rintro ⟨v, ⟨rfl, rfl⟩, rfl⟩
        exact ⟨rfl, rfl⟩
  | thrown e u => simp
  | running u => simp

/-- A look gives the character at the cursor. -/
theorem peek_of_getElem? {s : ParserState} {c : UInt8} (h : input.bytes[s.pos]? = some c) :
    peek input s = .value c (s.log (.peek s.pos)) := by
  simp [peek, List.getD, h]

/-- The cursor is at the end, or there is a character at it. -/
theorem eof_or_getElem? (p : ℕ) :
    input.bytes.length ≤ p ∨ (p < input.bytes.length ∧ ∃ c, input.bytes[p]? = some c) := by
  rcases Nat.lt_or_ge p input.bytes.length with hlt | hge
  · exact Or.inr ⟨hlt, _, List.getElem?_eq_getElem hlt⟩
  · exact Or.inl hge

/-- The body of `parseValue` past the check for the end, by the character at the cursor. -/
def dispatch (n : ℕ) (c : UInt8) : Parser BencodeValue :=
  if c = byte 'i' then do let v ← parseInteger input; pure (.integer v)
  else if c = byte 'l' then do let v ← parseList input n; pure (.list v)
  else if c = byte 'd' then do let v ← parseDictionary input n; pure (.dictionary v)
  else if isDigit c then do let v ← parseString input; pure (.string v)
  else throwRuntime "Invalid bencode token."

/-- At a digit a string is parsed. -/
theorem dispatch_of_digit {n : ℕ} {c : UInt8} (hdigit : isDigit c = true) :
    dispatch input n c = parseString input >>= fun text => pure (.string text) := by
  have hi : c ≠ byte 'i' := fun h => absurd (h ▸ hdigit) (by decide)
  have hl : c ≠ byte 'l' := fun h => absurd (h ▸ hdigit) (by decide)
  have hd : c ≠ byte 'd' := fun h => absurd (h ▸ hdigit) (by decide)
  rw [dispatch, if_neg hi, if_neg hl, if_neg hd, if_pos hdigit]

/-- A value is parsed by what its first character begins. -/
theorem parseValue_dispatch {n : ℕ} {s : ParserState} {c : UInt8}
    (h : input.bytes[s.pos]? = some c) :
    parseValue input (n + 1) s =
      member .parseValue (dispatch input n c) (s.log (.peek s.pos)) := by
  have hlt : s.pos < input.bytes.length := (List.getElem?_eq_some_iff.mp h).1
  simp only [parseValue, member, bind_apply, eof, decide_eq_true_eq, not_le.mpr hlt, if_false,
    peek_of_getElem? input h, ParserState.log_pos, dispatch]

/-- What `parseValue` does, by the character at the cursor. -/
theorem parseValue_cases (n : ℕ) (s : ParserState) :
    (input.bytes.length ≤ s.pos ∧
      parseValue input (n + 1) s = .thrown (.runtimeError "Unexpected end of input.") s) ∨
    (input.bytes[s.pos]? = some (byte 'i') ∧ parseValue input (n + 1) s =
      member .parseValue (do let v ← parseInteger input; pure (.integer v))
        (s.log (.peek s.pos))) ∨
    (input.bytes[s.pos]? = some (byte 'l') ∧ parseValue input (n + 1) s =
      member .parseValue (do let v ← parseList input n; pure (.list v))
        (s.log (.peek s.pos))) ∨
    (input.bytes[s.pos]? = some (byte 'd') ∧ parseValue input (n + 1) s =
      member .parseValue (do let v ← parseDictionary input n; pure (.dictionary v))
        (s.log (.peek s.pos))) ∨
    (∃ c, input.bytes[s.pos]? = some c ∧ isDigit c = true ∧ parseValue input (n + 1) s =
      member .parseValue (do let v ← parseString input; pure (.string v))
        (s.log (.peek s.pos))) ∨
    (∃ c, input.bytes[s.pos]? = some c ∧ c ≠ byte 'i' ∧ c ≠ byte 'l' ∧ c ≠ byte 'd' ∧
      isDigit c = false ∧ parseValue input (n + 1) s =
      .thrown (.runtimeError "Invalid bencode token.") (s.log (.peek s.pos))) := by
  rcases eof_or_getElem? input s.pos with heof | ⟨hlt, c, hc⟩
  · refine Or.inl ⟨heof, ?_⟩
    simp only [parseValue, member, bind_apply, eof, decide_eq_true_eq, heof, if_true,
      throwRuntime, throwing_apply]
  · rw [parseValue_dispatch input hc, dispatch]
    by_cases hi : c = byte 'i'
    · exact Or.inr (Or.inl ⟨hi ▸ hc, by rw [if_pos hi]⟩)
    by_cases hl : c = byte 'l'
    · exact Or.inr (Or.inr (Or.inl ⟨hl ▸ hc, by rw [if_neg hi, if_pos hl]⟩))
    by_cases hd : c = byte 'd'
    · exact Or.inr (Or.inr (Or.inr (Or.inl ⟨hd ▸ hc, by rw [if_neg hi, if_neg hl, if_pos hd]⟩)))
    rw [if_neg hi, if_neg hl, if_neg hd]
    cases hdigit : isDigit c with
    | true => exact Or.inr (Or.inr (Or.inr (Or.inr (Or.inl ⟨c, hc, hdigit, rfl⟩))))
    | false => exact Or.inr (Or.inr (Or.inr (Or.inr (Or.inr ⟨c, hc, hi, hl, hd, hdigit, rfl⟩))))

/-- One round of the loop of `parseList` or of `parseDictionary`, which ends at the letter `e`. -/
def loopRound {α : Type} (what : String) (done : α) (next : Parser α) : Parser α := do
  if ← eof input then throwRuntime what
  else if (← peek input) = byte 'e' then do
    let _ ← Model.get input
    pure done
  else next

section LoopRound

variable {α : Type} (what : String) (done : α) (next : Parser α) {s : ParserState}

/-- At the end of the text a round throws. -/
theorem loopRound_end (h : input.bytes.length ≤ s.pos) :
    loopRound input what done next s = .thrown (.runtimeError what) s := by
  simp only [loopRound, bind_apply, eof, decide_eq_true_eq, h, if_true, throwRuntime,
    throwing_apply]

/-- At an `e` a round returns what there is. -/
theorem loopRound_close (h : input.bytes[s.pos]? = some (byte 'e')) :
    loopRound input what done next s =
      .value done ⟨s.pos + 1, [.get s.pos, .peek s.pos] ++ s.trace⟩ := by
  have hlt : s.pos < input.bytes.length := (List.getElem?_eq_some_iff.mp h).1
  simp only [loopRound, bind_apply, eof, decide_eq_true_eq, not_le.mpr hlt, if_false,
    peek_of_getElem? input h, if_true, Model.get, pure_apply]
  rfl

/-- At any other character a round goes on. -/
theorem loopRound_next {c : UInt8} (h : input.bytes[s.pos]? = some c) (he : c ≠ byte 'e') :
    loopRound input what done next s = next (s.log (.peek s.pos)) := by
  have hlt : s.pos < input.bytes.length := (List.getElem?_eq_some_iff.mp h).1
  simp only [loopRound, bind_apply, eof, decide_eq_true_eq, not_le.mpr hlt, if_false,
    peek_of_getElem? input h, he]

/-- These are the three cases of a round. -/
theorem loopRound_cases (s : ParserState) :
    (input.bytes.length ≤ s.pos ∧
      loopRound input what done next s = .thrown (.runtimeError what) s) ∨
    (input.bytes[s.pos]? = some (byte 'e') ∧ s.pos < input.bytes.length ∧
      loopRound input what done next s =
      .value done ⟨s.pos + 1, [.get s.pos, .peek s.pos] ++ s.trace⟩) ∨
    (∃ c, input.bytes[s.pos]? = some c ∧ c ≠ byte 'e' ∧ s.pos < input.bytes.length ∧
      loopRound input what done next s = next (s.log (.peek s.pos))) := by
  rcases eof_or_getElem? input s.pos with heof | ⟨hlt, c, hc⟩
  · exact Or.inl ⟨heof, loopRound_end input what done next heof⟩
  by_cases he : c = byte 'e'
  · subst he
    exact Or.inr (Or.inl ⟨hc, hlt, loopRound_close input what done next hc⟩)
  · exact Or.inr (Or.inr ⟨c, hc, he, hlt, loopRound_next input what done next hc he⟩)

end LoopRound

/-- The loop over a list as rounds. -/
theorem parseListLoop_succ (n : ℕ) (list : List BencodeValue) :
    parseListLoop input (n + 1) list = loopRound input "Unterminated list." list
      (do let item ← parseValue input n
          parseListLoop input n (list ++ [item])) := by
  rw [parseListLoop]
  rfl

/-- The loop over a dictionary as rounds. -/
theorem parseDictionaryLoop_succ (n : ℕ) (dictionary : BencodeDictionary) :
    parseDictionaryLoop input (n + 1) dictionary =
      loopRound input "Unterminated dictionary." dictionary
        (do let key ← parseString input
            let child ← parseValue input n
            parseDictionaryLoop input n (SortedMap.emplace dictionary key child)) := by
  rw [parseDictionaryLoop]
  rfl

/-- What one round of the loop of `parseList` does. -/
theorem parseListLoop_cases (n : ℕ) (list : List BencodeValue) (s : ParserState) :
    (input.bytes.length ≤ s.pos ∧
      parseListLoop input (n + 1) list s = .thrown (.runtimeError "Unterminated list.") s) ∨
    (input.bytes[s.pos]? = some (byte 'e') ∧ s.pos < input.bytes.length ∧
      parseListLoop input (n + 1) list s =
      .value list ⟨s.pos + 1, [.get s.pos, .peek s.pos] ++ s.trace⟩) ∨
    (∃ c, input.bytes[s.pos]? = some c ∧ c ≠ byte 'e' ∧ s.pos < input.bytes.length ∧
      parseListLoop input (n + 1) list s =
      (do let item ← parseValue input n
          parseListLoop input n (list ++ [item])) (s.log (.peek s.pos))) := by
  rw [parseListLoop_succ]
  exact loopRound_cases input _ list _ s

/-- What one round of the loop of `parseDictionary` does. -/
theorem parseDictionaryLoop_cases (n : ℕ) (dictionary : BencodeDictionary) (s : ParserState) :
    (input.bytes.length ≤ s.pos ∧ parseDictionaryLoop input (n + 1) dictionary s =
      .thrown (.runtimeError "Unterminated dictionary.") s) ∨
    (input.bytes[s.pos]? = some (byte 'e') ∧ s.pos < input.bytes.length ∧
      parseDictionaryLoop input (n + 1) dictionary s =
      .value dictionary ⟨s.pos + 1, [.get s.pos, .peek s.pos] ++ s.trace⟩) ∨
    (∃ c, input.bytes[s.pos]? = some c ∧ c ≠ byte 'e' ∧ s.pos < input.bytes.length ∧
      parseDictionaryLoop input (n + 1) dictionary s =
      (do let key ← parseString input
          let child ← parseValue input n
          parseDictionaryLoop input n (SortedMap.emplace dictionary key child))
        (s.log (.peek s.pos))) := by
  rw [parseDictionaryLoop_succ]
  exact loopRound_cases input _ dictionary _ s

/-- A list is parsed by the loop over it, behind its first character. -/
theorem parseList_apply (n : ℕ) (s : ParserState) :
    parseList input (n + 1) s = member .parseList
      (do let _ ← Model.get input; parseListLoop input n []) s := rfl

/-- A dictionary is parsed by the loop over it, behind its first character. -/
theorem parseDictionary_apply (n : ℕ) (s : ParserState) :
    parseDictionary input (n + 1) s = member .parseDictionary
      (do let _ ← Model.get input; parseDictionaryLoop input n []) s := rfl

end Steps

/-! ## What is returned is read -/

section Sound

variable (input : StringView)

/-- A string that is returned is read by the relation. -/
theorem reads_of_parseString {s t : ParserState} {text : Bytes}
    (h : parseString input s = .value text t) : ReadsString input.bytes s.pos text t.pos := by
  by_cases hread : ∃ text q, ReadsString input.bytes s.pos text q
  · obtain ⟨text', q, hread⟩ := hread
    obtain ⟨events, -, hrun⟩ := parseString_of_reads input hread
    rw [hrun] at h
    cases h
    exact hread
  · obtain ⟨e, p, events, -, hrun⟩ := parseString_throws input (s := s) (by simpa using hread)
    simp [hrun] at h

/-- An integer that is returned is read by the relation. -/
theorem reads_of_parseInteger {s t : ParserState} {i : Int64}
    (h : parseInteger input s = .value i t) : ReadsInteger input.bytes s.pos i t.pos := by
  by_cases hread : ∃ i q, ReadsInteger input.bytes s.pos i q
  · obtain ⟨i', q, hread⟩ := hread
    obtain ⟨events, -, hrun⟩ := parseInteger_of_reads input hread
    rw [hrun] at h
    cases h
    exact hread
  · obtain ⟨e, p, events, -, hrun⟩ := parseInteger_throws input (s := s) (by simpa using hread)
    simp [hrun] at h

/-- The recursive functions with fuel `n` return only what is read. -/
structure Sound (n : ℕ) : Prop where
  value : ∀ s v t, parseValue input n s = .value v t → Reads input.bytes s.pos v t.pos
  list : ∀ s items t, parseList input n s = .value items t →
    ReadsItems input.bytes (s.pos + 1) items t.pos
  listLoop : ∀ s acc items t, parseListLoop input n acc s = .value items t →
    ∃ rest, items = acc ++ rest ∧ ReadsItems input.bytes s.pos rest t.pos
  dictionary : ∀ s entries t, parseDictionary input n s = .value entries t →
    ∃ read, entries = SortedMap.emplaceAll [] read ∧
      ReadsEntries input.bytes (s.pos + 1) read t.pos
  dictionaryLoop : ∀ s acc entries t, parseDictionaryLoop input n acc s = .value entries t →
    ∃ read, entries = SortedMap.emplaceAll acc read ∧ ReadsEntries input.bytes s.pos read t.pos

/-- Without fuel nothing is returned. -/
theorem sound_zero : Sound input 0 where
  value s v t h := by simp [parseValue] at h
  list s items t h := by simp [parseList] at h
  listLoop s acc items t h := by simp [parseListLoop] at h
  dictionary s entries t h := by simp [parseDictionary] at h
  dictionaryLoop s acc entries t h := by simp [parseDictionaryLoop] at h

/-- The step for values. -/
theorem sound_parseValue {n : ℕ} (ih : Sound input n) (s : ParserState) (v : BencodeValue)
    (t : ParserState) (h : parseValue input (n + 1) s = .value v t) :
    Reads input.bytes s.pos v t.pos := by
  rcases parseValue_cases input n s with ⟨-, hrun⟩ | ⟨hc, hrun⟩ | ⟨hc, hrun⟩ | ⟨hc, hrun⟩ |
    ⟨c, hc, -, hrun⟩ | ⟨c, -, -, -, -, -, hrun⟩
  · simp [hrun] at h
  · rw [hrun, member_eq_value_iff] at h
    obtain ⟨u, hbody, rfl⟩ := h
    obtain ⟨i, w, hi, hret⟩ := bind_eq_value_iff.mp hbody
    cases hret
    have hread := reads_of_parseInteger input hi
    exact .integer hc hread
  · rw [hrun, member_eq_value_iff] at h
    obtain ⟨u, hbody, rfl⟩ := h
    obtain ⟨items, w, hitems, hret⟩ := bind_eq_value_iff.mp hbody
    cases hret
    have hread := ih.list _ _ _ hitems
    exact .list hc hread
  · rw [hrun, member_eq_value_iff] at h
    obtain ⟨u, hbody, rfl⟩ := h
    obtain ⟨entries, w, hentries, hret⟩ := bind_eq_value_iff.mp hbody
    cases hret
    obtain ⟨read, rfl, hread⟩ := ih.dictionary _ _ _ hentries
    exact .dictionary hc hread
  · rw [hrun, member_eq_value_iff] at h
    obtain ⟨u, hbody, rfl⟩ := h
    obtain ⟨text, w, htext, hret⟩ := bind_eq_value_iff.mp hbody
    cases hret
    have hread := reads_of_parseString input htext
    exact .string hread
  · simp [hrun] at h

/-- The step for the loop over a list. -/
theorem sound_parseListLoop {n : ℕ} (ih : Sound input n) (s : ParserState)
    (acc items : List BencodeValue) (t : ParserState)
    (h : parseListLoop input (n + 1) acc s = .value items t) :
    ∃ rest, items = acc ++ rest ∧ ReadsItems input.bytes s.pos rest t.pos := by
  rcases parseListLoop_cases input n acc s with ⟨-, hrun⟩ | ⟨hc, -, hrun⟩ | ⟨c, -, -, -, hrun⟩
  · simp [hrun] at h
  · rw [hrun] at h
    cases h
    exact ⟨[], by simp, .close hc⟩
  · rw [hrun] at h
    obtain ⟨item, u, hitem, hloop⟩ := bind_eq_value_iff.mp h
    obtain ⟨rest, rfl, hrest⟩ := ih.listLoop _ _ _ _ hloop
    have hread := ih.value _ _ _ hitem
    exact ⟨item :: rest, by simp, .item hread hrest⟩

/-- The step for the loop over a dictionary. -/
theorem sound_parseDictionaryLoop {n : ℕ} (ih : Sound input n) (s : ParserState)
    (acc entries : BencodeDictionary) (t : ParserState)
    (h : parseDictionaryLoop input (n + 1) acc s = .value entries t) :
    ∃ read, entries = SortedMap.emplaceAll acc read ∧
      ReadsEntries input.bytes s.pos read t.pos := by
  rcases parseDictionaryLoop_cases input n acc s with
    ⟨-, hrun⟩ | ⟨hc, -, hrun⟩ | ⟨c, -, -, -, hrun⟩
  · simp [hrun] at h
  · rw [hrun] at h
    cases h
    exact ⟨[], rfl, .close hc⟩
  · rw [hrun] at h
    obtain ⟨key, u, hkey, hafterKey⟩ := bind_eq_value_iff.mp h
    obtain ⟨child, w, hchild, hloop⟩ := bind_eq_value_iff.mp hafterKey
    obtain ⟨read, rfl, hread⟩ := ih.dictionaryLoop _ _ _ _ hloop
    have hkeyRead := reads_of_parseString input hkey
    have hchildRead := ih.value _ _ _ hchild
    exact ⟨(key, child) :: read, rfl, .entry hkeyRead hchildRead hread⟩

/-- Whatever is returned, with any fuel, is read by the relation. -/
theorem sound (n : ℕ) : Sound input n := by
  induction n with
  | zero => exact sound_zero input
  | succ n ih =>
      refine ⟨sound_parseValue input ih, fun s items t h => ?_, sound_parseListLoop input ih,
        fun s entries t h => ?_, sound_parseDictionaryLoop input ih⟩
      · rw [parseList_apply, member_eq_value_iff] at h
        obtain ⟨u, hbody, rfl⟩ := h
        obtain ⟨c, w, hget, hloop⟩ := bind_eq_value_iff.mp hbody
        cases hget
        obtain ⟨rest, rfl, hrest⟩ := ih.listLoop _ _ _ _ hloop
        exact hrest
      · rw [parseDictionary_apply, member_eq_value_iff] at h
        obtain ⟨u, hbody, rfl⟩ := h
        obtain ⟨c, w, hget, hloop⟩ := bind_eq_value_iff.mp hbody
        cases hget
        exact ih.dictionaryLoop _ _ _ _ hloop

end Sound

/-! ## What is read is returned -/

section Complete

variable {input : StringView}

/-- With enough fuel, a function called at `p` returns `a` and leaves the cursor at `q`. -/
def Returns {α : Type} (x : ℕ → Parser α) (p : ℕ) (a : α) (q : ℕ) : Prop :=
  ∃ n, ∀ m, n ≤ m → ∀ s : ParserState, s.pos = p → ∃ t, x m s = .value a t ∧ t.pos = q

/-- Returning is an outcome that comes of enough fuel. -/
theorem returns_iff {α : Type} {x : ℕ → Parser α} {p q : ℕ} {a : α} :
    Returns x p a q ↔
      Eventually (·.pos = p) x fun outcome => ∃ t, outcome = .value a t ∧ t.pos = q := Iff.rfl

/-- A member function returns what its body does. -/
theorem returns_member {α : Type} (callee : Member) {x : ℕ → Parser α} {p q : ℕ} {a : α}
    (h : Returns x p a q) : Returns (fun n => member callee (x n)) p a q := by
  refine returns_iff.mpr ((returns_iff.mp h).imp ?_)
  rintro m s ⟨t, hrun, ht⟩
  exact ⟨_, member_eq_value_iff.mpr ⟨t, hrun, rfl⟩, ht⟩

/-- A sequence returns when its parts do, one from where the other ended. -/
theorem returns_bind {α β : Type} {x : ℕ → Parser α} {f : ℕ → α → Parser β} {p q r : ℕ} {a : α}
    {b : β} (hx : Returns x p a q) (hf : Returns (fun n => f n a) q b r) :
    Returns (fun n => x n >>= f n) p b r :=
  returns_iff.mpr ((returns_iff.mp hx).bind (returns_iff.mp hf))

/-- A value alone is returned at the cursor. -/
theorem returns_pure {α : Type} (a : α) (p : ℕ) : Returns (fun _ => pure a) p a p :=
  ⟨0, fun _ _ s hs => ⟨s, rfl, hs⟩⟩

/-- Taking a character returns it, one position further. -/
theorem returns_get (p : ℕ) :
    Returns (fun _ => Model.get input) p (input.bytes.getD p 0) (p + 1) :=
  ⟨0, fun _ _ s hs =>
    ⟨{ s with pos := s.pos + 1 }.log (.get s.pos), by subst hs; rfl, by simp [hs]⟩⟩

/-- What the relation reads as a string is returned. -/
theorem returns_parseString {p q : ℕ} {text : Bytes} (h : ReadsString input.bytes p text q) :
    Returns (fun _ => parseString input) p text q := by
  refine ⟨0, ?_⟩
  intro _ _ s hs
  obtain ⟨events, -, hrun⟩ := parseString_of_reads input (hs ▸ h)
  exact ⟨_, hrun, rfl⟩

/-- What the relation reads as an integer is returned. -/
theorem returns_parseInteger {p q : ℕ} {i : Int64} (h : ReadsInteger input.bytes p i q) :
    Returns (fun _ => parseInteger input) p i q := by
  refine ⟨0, ?_⟩
  intro _ _ s hs
  obtain ⟨events, -, hrun⟩ := parseInteger_of_reads input (hs ▸ h)
  exact ⟨_, hrun, rfl⟩

/-- A step that takes one unit of fuel may come before. -/
theorem returns_of_step {α : Type} {x y : ℕ → Parser α} {p q : ℕ} {a : α} (h : Returns y p a q)
    (hstep : ∀ n s, s.pos = p → ∃ s', s'.pos = p ∧ x (n + 1) s = y n s') : Returns x p a q :=
  returns_iff.mpr ((returns_iff.mp h).of_step hstep)

/-- A value is returned when what its first character begins is. -/
theorem returns_parseValue {p q : ℕ} {c : UInt8} {v : BencodeValue}
    (hc : input.bytes[p]? = some c) (h : Returns (fun n => dispatch input n c) p v q) :
    Returns (parseValue input) p v q := by
  apply returns_of_step (returns_member .parseValue h)
  intro n s hs
  subst hs
  exact ⟨s.log (.peek s.pos), rfl, parseValue_dispatch input hc⟩

/-- A round over a list that does not close parses an item and goes on. -/
theorem parseListLoop_round {p : ℕ} (hfirst : ∃ c, input.bytes[p]? = some c ∧ c ≠ byte 'e')
    (acc : List BencodeValue) (n : ℕ) (s : ParserState) (hs : s.pos = p) :
    ∃ s' : ParserState, s'.pos = p ∧ parseListLoop input (n + 1) acc s =
      (do let item ← parseValue input n
          parseListLoop input n (acc ++ [item])) s' := by
  obtain ⟨c, hc, hne⟩ := hfirst
  subst hs
  refine ⟨s.log (.peek s.pos), rfl, ?_⟩
  rw [parseListLoop_succ, loopRound_next input _ _ _ hc hne]

/-- A round over a dictionary that does not close parses a key and a value and goes on. -/
theorem parseDictionaryLoop_round {p : ℕ}
    (hfirst : ∃ c, input.bytes[p]? = some c ∧ c ≠ byte 'e')
    (acc : BencodeDictionary) (n : ℕ) (s : ParserState) (hs : s.pos = p) :
    ∃ s' : ParserState, s'.pos = p ∧ parseDictionaryLoop input (n + 1) acc s =
      (do let key ← parseString input
          let child ← parseValue input n
          parseDictionaryLoop input n (SortedMap.emplace acc key child)) s' := by
  obtain ⟨c, hc, hne⟩ := hfirst
  subst hs
  refine ⟨s.log (.peek s.pos), rfl, ?_⟩
  rw [parseDictionaryLoop_succ, loopRound_next input _ _ _ hc hne]

/-- At an `e` the loop over a list returns its items. -/
theorem returns_parseListLoop_close {p : ℕ} (hc : input.bytes[p]? = some (byte 'e'))
    (acc : List BencodeValue) :
    Returns (fun n => parseListLoop input n acc) p acc (p + 1) := by
  refine ⟨1, ?_⟩
  intro m hm s hs
  obtain ⟨k, rfl⟩ : ∃ k, m = k + 1 := ⟨m - 1, by omega⟩
  subst hs
  refine ⟨⟨s.pos + 1, [.get s.pos, .peek s.pos] ++ s.trace⟩, ?_, rfl⟩
  show parseListLoop input (k + 1) acc s = _
  rw [parseListLoop_succ, loopRound_close input _ _ _ hc]

/-- With an item before it, a list is returned that is. -/
theorem returns_parseListLoop_item {p q r : ℕ} {v : BencodeValue} {acc items : List BencodeValue}
    (hfirst : ∃ c, input.bytes[p]? = some c ∧ c ≠ byte 'e')
    (hv : Returns (parseValue input) p v q)
    (hrest : Returns (fun n => parseListLoop input n (acc ++ [v])) q items r) :
    Returns (fun n => parseListLoop input n acc) p items r :=
  returns_of_step
    (returns_bind (f := fun n item => parseListLoop input n (acc ++ [item])) hv hrest)
    (parseListLoop_round hfirst acc)

/-- At an `e` the loop over a dictionary returns its entries. -/
theorem returns_parseDictionaryLoop_close {p : ℕ} (hc : input.bytes[p]? = some (byte 'e'))
    (acc : BencodeDictionary) :
    Returns (fun n => parseDictionaryLoop input n acc) p acc (p + 1) := by
  refine ⟨1, ?_⟩
  intro m hm s hs
  obtain ⟨k, rfl⟩ : ∃ k, m = k + 1 := ⟨m - 1, by omega⟩
  subst hs
  refine ⟨⟨s.pos + 1, [.get s.pos, .peek s.pos] ++ s.trace⟩, ?_, rfl⟩
  show parseDictionaryLoop input (k + 1) acc s = _
  rw [parseDictionaryLoop_succ, loopRound_close input _ _ _ hc]

/-- With an entry before it, a dictionary is returned that is. -/
theorem returns_parseDictionaryLoop_entry {p q r t : ℕ} {key : Bytes} {v : BencodeValue}
    {acc entries : BencodeDictionary}
    (hkey : ReadsString input.bytes p key q) (hv : Returns (parseValue input) q v r)
    (hrest : Returns (fun n => parseDictionaryLoop input n (SortedMap.emplace acc key v)) r
      entries t) :
    Returns (fun n => parseDictionaryLoop input n acc) p entries t := by
  have hchild := returns_bind (f := fun n child =>
    parseDictionaryLoop input n (SortedMap.emplace acc key child)) hv hrest
  exact returns_of_step (returns_bind (f := fun n key => parseValue input n >>= fun child =>
      parseDictionaryLoop input n (SortedMap.emplace acc key child))
    (returns_parseString hkey) hchild) (parseDictionaryLoop_round (Reads.string hkey).first acc)

/-- A list is returned when the loop returns its items. -/
theorem returns_parseList {p q : ℕ} {items : List BencodeValue}
    (h : Returns (fun n => parseListLoop input n []) (p + 1) items q) :
    Returns (parseList input) p items q :=
  returns_of_step (returns_member .parseList
    (returns_bind (f := fun n _ => parseListLoop input n []) (returns_get p) h))
    fun n s hs => ⟨s, hs, parseList_apply input n s⟩

/-- A dictionary is returned when the loop returns its entries. -/
theorem returns_parseDictionary {p q : ℕ} {entries : BencodeDictionary}
    (h : Returns (fun n => parseDictionaryLoop input n []) (p + 1) entries q) :
    Returns (parseDictionary input) p entries q :=
  returns_of_step (returns_member .parseDictionary
    (returns_bind (f := fun n _ => parseDictionaryLoop input n []) (returns_get p) h))
    fun n s hs => ⟨s, hs, parseDictionary_apply input n s⟩

mutual

/-- A value that is read is returned. -/
theorem returns_of_reads {p q : ℕ} {v : BencodeValue} :
    Reads input.bytes p v q → Returns (parseValue input) p v q
  | .integer hc hi => by
      apply returns_parseValue hc
      simp only [dispatch, if_true]
      exact returns_bind (f := fun _ i => pure (BencodeValue.integer i))
        (returns_parseInteger hi) (returns_pure _ _)
  | .string hs => by
      obtain ⟨token, hheader, -⟩ := id hs
      obtain ⟨c, hc, hdigit⟩ := hheader.first
      apply returns_parseValue hc
      simp only [dispatch_of_digit input hdigit]
      exact returns_bind (f := fun _ text => pure (BencodeValue.string text))
        (returns_parseString hs) (returns_pure _ _)
  | .list hc hitems => by
      have hloop := returns_of_readsItems hitems []
      apply returns_parseValue hc
      have hi : byte 'l' ≠ byte 'i' := by decide
      simp only [dispatch, hi, if_false, if_true]
      exact returns_bind (f := fun _ items => pure (BencodeValue.list items))
        (returns_parseList hloop) (returns_pure _ _)
  | .dictionary hc hentries => by
      have hloop := returns_of_readsEntries hentries []
      apply returns_parseValue hc
      have hi : byte 'd' ≠ byte 'i' := by decide
      have hl : byte 'd' ≠ byte 'l' := by decide
      simp only [dispatch, hi, hl, if_false, if_true]
      exact returns_bind (f := fun _ entries => pure (BencodeValue.dictionary entries))
        (returns_parseDictionary hloop) (returns_pure _ _)

/-- Items that the relation reads are returned by the loop, after those it had. -/
theorem returns_of_readsItems {p q : ℕ} {items : List BencodeValue} :
    ReadsItems input.bytes p items q → ∀ acc,
      Returns (fun n => parseListLoop input n acc) p (acc ++ items) q
  | .close hc => fun acc => by simpa using returns_parseListLoop_close hc acc
  | @ReadsItems.item _ _ _ _ v _ hv hrest => fun acc => by
      have htail := returns_of_readsItems hrest (acc ++ [v])
      rw [List.append_assoc, List.singleton_append] at htail
      exact returns_parseListLoop_item hv.first (returns_of_reads hv) htail

/-- Entries that the relation reads are entered by the loop into those it had. -/
theorem returns_of_readsEntries {p q : ℕ} {entries : List (Bytes × BencodeValue)} :
    ReadsEntries input.bytes p entries q → ∀ acc,
      Returns (fun n => parseDictionaryLoop input n acc) p (SortedMap.emplaceAll acc entries) q
  | .close hc => returns_parseDictionaryLoop_close hc
  | .entry hkey hv hrest => fun _ =>
      returns_parseDictionaryLoop_entry hkey (returns_of_reads hv)
        (returns_of_readsEntries hrest _)

end

/-- At one position at most one value is read, up to one position. -/
theorem reads_unique {p q q' : ℕ} {v v' : BencodeValue} (h : Reads input.bytes p v q)
    (h' : Reads input.bytes p v' q') : v = v' ∧ q = q' := by
  obtain ⟨n, hn⟩ := returns_of_reads h
  obtain ⟨n', hn'⟩ := returns_of_reads h'
  obtain ⟨t, hrun, rfl⟩ := hn (max n n') (le_max_left _ _) ⟨p, []⟩ rfl
  obtain ⟨t', hrun', rfl⟩ := hn' (max n n') (le_max_right _ _) ⟨p, []⟩ rfl
  cases hrun.symm.trans hrun'
  exact ⟨rfl, rfl⟩

end Complete

/-! ## The root -/

/-- `parse` returns a value, whatever fuel it takes. -/
def Parses (input : StringView) (v : BencodeValue) : Prop :=
  ∃ fuel s, parse input fuel = .value v s

/-- A value whose reading from the start ends at or past the end is returned with enough fuel. -/
theorem parse_of_reads {input : StringView} {v : BencodeValue} {q : ℕ}
    (hend : input.bytes.length ≤ q) (h : Reads input.bytes 0 v q) :
    ∃ fuel, ∀ m, fuel ≤ m → ∃ t, parse input m = .value v t := by
  obtain ⟨fuel, hfuel⟩ := returns_of_reads h
  refine ⟨fuel, ?_⟩
  intro m hm
  obtain ⟨t, hrun, ht⟩ := hfuel m hm parserStart rfl
  refine ⟨t, ?_⟩
  subst ht
  rw [parse, parseRoot, bind_of_value hrun]
  simp only [bind_apply, eof, decide_eq_true_eq, hend, if_true, pure_apply]

/-- `parse` returns exactly the value whose reading from the start ends at or past the end. -/
theorem parses_iff {input : StringView} {v : BencodeValue} :
    Parses input v ↔ ∃ q, input.bytes.length ≤ q ∧ Reads input.bytes 0 v q := by
  constructor
  · rintro ⟨fuel, s, hrun⟩
    obtain ⟨w, t, hvalue, hend⟩ := bind_eq_value_iff.mp hrun
    by_cases hge : input.bytes.length ≤ t.pos
    · simp only [bind_apply, eof, decide_eq_true_eq, hge, if_true, pure_apply] at hend
      cases hend
      exact ⟨s.pos, hge, (sound input fuel).value _ _ _ hvalue⟩
    · simp only [bind_apply, eof, decide_eq_true_eq, hge, if_false, throwRuntime,
        throwing_apply] at hend
      exact absurd hend (by simp)
  · rintro ⟨q, hend, hread⟩
    obtain ⟨n, hn⟩ := parse_of_reads hend hread
    exact ⟨n, hn n le_rfl⟩

/-- A text has at most one value. -/
theorem parses_unique {input : StringView} {v v' : BencodeValue} (h : Parses input v)
    (h' : Parses input v') : v = v' := by
  obtain ⟨q, -, hread⟩ := parses_iff.mp h
  obtain ⟨q', -, hread'⟩ := parses_iff.mp h'
  exact (reads_unique hread hread').1

end Vtfs.Analysis
