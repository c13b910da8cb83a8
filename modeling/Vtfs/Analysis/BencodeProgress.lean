import Vtfs.Analysis.BencodeAdequacy

/-!
# Progress and termination of the parser

The end of a string is computed in `std::size_t` (Bencode.cpp:90), so a length near `2 ^ 64`
passes the size check and takes the cursor back.  A reading that comes to no such header goes
forward (`reads_forward`); then the run ends within fuel linear in the input and every member
function that returns leaves the cursor past its entry (`goodRuns`).  A reading that does come to
one makes `parseString` return at or before its entry (`rewinds_value`).  Together these settle
exactly which inputs the parser makes progress on.
-/

set_option autoImplicit false

namespace Vtfs.Analysis

open Vtfs.Library
open Vtfs.Library.Fueled
open Vtfs.Library.Decimal (isDigit value)
open Vtfs.Model
open Vtfs.Interface

/-! ## The arithmetic of a string's end -/

section Arithmetic

variable {s : Bytes} {p q : ℕ} {text : Bytes}

/-- A string whose header does not rewind is read forward. -/
theorem readsString_forward (hsize : s.length < sizeLimit) (h : ReadsString s p text q)
    (hrewind : ¬ RewindingHeader s p) : p < q ∧ q ≤ s.length := by
  obtain ⟨token, hheader, rfl, hle, -⟩ := h
  refine ⟨?_, hle⟩
  have hend := hheader.headerEnd_le
  have hfits := hheader.fits
  by_cases hwrap : sizeLimit ≤ headerEnd p token + value token
  · have hlong : sizeLimit < token.length + 1 + value token := by
      by_contra hshort
      exact hrewind ⟨token, hheader, hwrap, not_lt.mp hshort⟩
    unfold headerEnd at *
    rw [Nat.mod_eq_sub_mod hwrap, Nat.mod_eq_of_lt (by omega)]
    omega
  · rw [Nat.mod_eq_of_lt (not_le.mp hwrap)]
    unfold headerEnd
    omega

/-- At a rewinding header a string is read, back to the header or before it. -/
theorem rewindingHeader_reads (hsize : s.length < sizeLimit) (h : RewindingHeader s p) :
    ∃ text q, ReadsString s p text q ∧ q ≤ p := by
  obtain ⟨token, hheader, hwrap, hback⟩ := h
  have hend := hheader.headerEnd_le
  have hfits := hheader.fits
  have hmod : (headerEnd p token + value token) % sizeLimit ≤ p := by
    unfold headerEnd at *
    rw [Nat.mod_eq_sub_mod hwrap, Nat.mod_eq_of_lt (by omega)]
    omega
  refine ⟨_, _, ⟨token, hheader, rfl, ?_, rfl⟩, hmod⟩
  unfold headerEnd at hend hmod ⊢
  omega

/-- Reading an integer moves forward, within the text. -/
theorem readsInteger_forward {i : Int64} (h : ReadsInteger s p i q) :
    p < q ∧ q ≤ s.length := by
  obtain ⟨token, rest, v, hrest, -, -, -, rfl⟩ := h
  have hlen := congrArg List.length hrest
  simp only [List.length_drop, List.length_append, List.length_cons] at hlen
  omega

end Arithmetic

/-! ## Readings without a rewinding header -/

section Forward

variable {s : Bytes}

mutual

/-- Reading a value without a rewinding string moves forward, within the text. -/
theorem reads_forward (hsize : s.length < sizeLimit) {p q : ℕ} {v : BencodeValue} :
    Reads s p v q → ¬ Rewinds s p → p < q ∧ q ≤ s.length
  | .integer _ hi, _ => readsInteger_forward hi
  | .string hs, hr => readsString_forward hsize hs fun h => hr (.string h)
  | .list hc hitems, hr => by
      have h := readsItems_forward hsize hitems fun h => hr (.list hc h)
      omega
  | .dictionary hc hentries, hr => by
      have h := readsEntries_forward hsize hentries fun h => hr (.dictionary hc h)
      omega

/-- So does reading items. -/
theorem readsItems_forward (hsize : s.length < sizeLimit) {p q : ℕ} {items : List BencodeValue} :
    ReadsItems s p items q → ¬ RewindsItems s p → p < q ∧ q ≤ s.length
  | .close hc, _ => by
      have := (List.getElem?_eq_some_iff.mp hc).1
      omega
  | .item hv hrest, hr => by
      have hfirst := reads_forward hsize hv fun h => hr (.here h)
      have htail := readsItems_forward hsize hrest fun h => hr (.later hv h)
      omega

/-- So does reading entries. -/
theorem readsEntries_forward (hsize : s.length < sizeLimit) {p q : ℕ}
    {entries : List (Bytes × BencodeValue)} :
    ReadsEntries s p entries q → ¬ RewindsEntries s p → p < q ∧ q ≤ s.length
  | .close hc, _ => by
      have := (List.getElem?_eq_some_iff.mp hc).1
      omega
  | .entry hkey hv hrest, hr => by
      have hk := readsString_forward hsize hkey fun h => hr (.key h)
      have hfirst := reads_forward hsize hv fun h => hr (.child hkey h)
      have htail := readsEntries_forward hsize hrest fun h => hr (.later hkey hv h)
      omega

end

end Forward

/-! ## Runs without a rewinding header -/

/-- The event is no return, or a return past the entry and inside an input of the given size. -/
def Event.Forward (size : ℕ) : Event → Prop
  | .returned _ entry exit => entry < exit ∧ exit ≤ size
  | _ => True

/-- A run from `s` has only forward events, and ends if `enough` holds. -/
structure GoodRun (size : ℕ) {α : Type} (s : ParserState) (o : Outcome Exception ParserState α)
    (enough : Prop) : Prop where
  trace : ∃ events, o.state.trace = events ++ s.trace ∧ ∀ e ∈ events, Event.Forward size e
  ended : enough → o.Ended

/-- Events that return from no string move forward. -/
theorem Quiet.forward {events : List Event} (h : Quiet events) (size : ℕ) :
    ∀ e ∈ events, Event.Forward size e := by
  intro e he
  cases e with
  | returned callee entry exit => exact absurd he (h callee entry exit)
  | peek p => trivial
  | get p => trivial
  | substr p => trivial

section GoodRun

variable {size : ℕ} {α β : Type} {enough : Prop}

/-- Events before the run are part of it. -/
theorem GoodRun.after {s t : ParserState} {o : Outcome Exception ParserState α}
    (h : GoodRun size t o enough)
    (ht : ∃ events, t.trace = events ++ s.trace ∧ ∀ e ∈ events, Event.Forward size e) :
    GoodRun size s o enough := by
  refine ⟨?_, h.ended⟩
  obtain ⟨events, htrace, hall⟩ := h.trace
  obtain ⟨events', htrace', hall'⟩ := ht
  refine ⟨events ++ events', by rw [htrace, htrace', List.append_assoc], ?_⟩
  intro e he
  rcases List.mem_append.mp he with he | he
  · exact hall e he
  · exact hall' e he

/-- An event that moves forward may come before. -/
theorem GoodRun.after_log {s : ParserState} {e : Event} {o : Outcome Exception ParserState α}
    (h : GoodRun size (s.log e) o enough) (he : Event.Forward size e) :
    GoodRun size s o enough :=
  h.after ⟨[e], rfl, by simpa using he⟩

/-- A value after events that move forward. -/
theorem GoodRun.value {s : ParserState} (a : α) (t : ParserState)
    (ht : ∃ events, t.trace = events ++ s.trace ∧ ∀ e ∈ events, Event.Forward size e) :
    GoodRun size s (.value a t) enough := ⟨ht, fun _ => trivial⟩

/-- An exception after events that move forward. -/
theorem GoodRun.thrown {s : ParserState} (e : Exception) (t : ParserState)
    (ht : ∃ events, t.trace = events ++ s.trace ∧ ∀ e ∈ events, Event.Forward size e) :
    GoodRun size s (.thrown e t : Outcome Exception ParserState α) enough := ⟨ht, fun _ => trivial⟩

/-- An exception at once. -/
theorem GoodRun.throws {s : ParserState} (e : Exception) :
    GoodRun size s (.thrown e s : Outcome Exception ParserState α) enough :=
  GoodRun.thrown e s ⟨[], rfl, by simp⟩

/-- Running out of fuel is good when there was not enough. -/
theorem GoodRun.stalled {s : ParserState} (h : ¬ enough) :
    GoodRun size s (.running s : Outcome Exception ParserState α) enough :=
  ⟨⟨[], rfl, by simp⟩, fun he => absurd he h⟩

/-- A sequence of good runs is good. -/
theorem GoodRun.bind {s : ParserState} {x : Parser α} {f : α → Parser β}
    (hx : GoodRun size s (x s) enough)
    (hf : ∀ a t, x s = .value a t → GoodRun size t (f a t) enough) :
    GoodRun size s ((x >>= f) s) enough := by
  rw [bind_apply]
  cases hxs : x s with
  | value a t =>
      rw [hxs] at hx
      exact (hf a t hxs).after hx.trace
  | thrown e t => rw [hxs] at hx; exact ⟨hx.trace, fun _ => trivial⟩
  | running t => rw [hxs] at hx; exact ⟨hx.trace, fun h => hx.ended h⟩

/-- A call that returns past its entry has a good run when its body has. -/
theorem GoodRun.member {s : ParserState} {callee : Member} {body : Parser α}
    (h : GoodRun size s (body s) enough)
    (hvalue : ∀ a t, body s = .value a t → s.pos < t.pos ∧ t.pos ≤ size) :
    GoodRun size s (member callee body s) enough := by
  unfold Model.member
  cases hbody : body s with
  | value a t =>
      rw [hbody] at h
      obtain ⟨events, htrace, hall⟩ := h.trace
      refine GoodRun.value a _ ⟨.returned callee s.pos t.pos :: events, ?_, fun e he => ?_⟩
      · exact congrArg _ htrace
      · rcases List.mem_cons.mp he with rfl | he
        · exact hvalue a t hbody
        · exact hall e he
  | thrown e t => rw [hbody] at h; exact ⟨h.trace, fun _ => trivial⟩
  | running t => rw [hbody] at h; exact ⟨h.trace, fun he => h.ended he⟩

/-- A run is good for any stronger demand on the fuel. -/
theorem GoodRun.mono {s : ParserState} {o : Outcome Exception ParserState α} {p : Prop}
    (h : GoodRun size s o enough) (himp : p → enough) : GoodRun size s o p :=
  ⟨h.trace, fun hp => h.ended (himp hp)⟩

end GoodRun

section Run

variable (input : StringView)

/-- A string whose header does not rewind makes a good run. -/
theorem parseString_goodRun {s : ParserState} {enough : Prop}
    (h : ¬ RewindingHeader input.bytes s.pos) :
    GoodRun input.bytes.length s (parseString input s) enough := by
  by_cases hread : ∃ text q, ReadsString input.bytes s.pos text q
  · obtain ⟨text, q, hread⟩ := hread
    obtain ⟨events, hquiet, hrun⟩ := parseString_of_reads input hread
    rw [hrun]
    refine GoodRun.value text _ ⟨.returned .parseString s.pos q :: events, rfl, ?_⟩
    intro e he
    rcases List.mem_cons.mp he with rfl | he
    · exact readsString_forward input.size_lt hread h
    · exact hquiet.forward _ e he
  · obtain ⟨e, p, events, hquiet, hrun⟩ := parseString_throws input (s := s) (by simpa using hread)
    rw [hrun]
    exact GoodRun.thrown e _ ⟨events, rfl, hquiet.forward _⟩

/-- An integer makes a good run. -/
theorem parseInteger_goodRun {s : ParserState} {enough : Prop} :
    GoodRun input.bytes.length s (parseInteger input s) enough := by
  by_cases hread : ∃ i q, ReadsInteger input.bytes s.pos i q
  · obtain ⟨i, q, hread⟩ := hread
    obtain ⟨events, hquiet, hrun⟩ := parseInteger_of_reads input hread
    rw [hrun]
    refine GoodRun.value i _ ⟨.returned .parseInteger s.pos q :: events, rfl, ?_⟩
    intro e he
    rcases List.mem_cons.mp he with rfl | he
    · exact readsInteger_forward hread
    · exact hquiet.forward _ e he
  · obtain ⟨e, p, events, hquiet, hrun⟩ := parseInteger_throws input (s := s) (by simpa using hread)
    rw [hrun]
    exact GoodRun.thrown e _ ⟨events, rfl, hquiet.forward _⟩

/-- The recursive functions with fuel `n`, called where no rewinding header is come to: their
events are forward, and three units of fuel for each byte that is left are enough. -/
structure GoodRuns (n : ℕ) : Prop where
  value : ∀ s, s.pos ≤ input.bytes.length → ¬ Rewinds input.bytes s.pos →
    GoodRun input.bytes.length s (parseValue input n s)
      (3 * (input.bytes.length - s.pos) + 1 ≤ n)
  list : ∀ s, s.pos < input.bytes.length → ¬ RewindsItems input.bytes (s.pos + 1) →
    GoodRun input.bytes.length s (parseList input n s)
      (3 * (input.bytes.length - (s.pos + 1)) + 3 ≤ n)
  listLoop : ∀ acc s, s.pos ≤ input.bytes.length → ¬ RewindsItems input.bytes s.pos →
    GoodRun input.bytes.length s (parseListLoop input n acc s)
      (3 * (input.bytes.length - s.pos) + 2 ≤ n)
  dictionary : ∀ s, s.pos < input.bytes.length → ¬ RewindsEntries input.bytes (s.pos + 1) →
    GoodRun input.bytes.length s (parseDictionary input n s)
      (3 * (input.bytes.length - (s.pos + 1)) + 3 ≤ n)
  dictionaryLoop : ∀ acc s, s.pos ≤ input.bytes.length → ¬ RewindsEntries input.bytes s.pos →
    GoodRun input.bytes.length s (parseDictionaryLoop input n acc s)
      (3 * (input.bytes.length - s.pos) + 2 ≤ n)

/-- Without fuel there was not enough. -/
theorem goodRuns_zero : GoodRuns input 0 where
  value s _ _ := GoodRun.stalled (by omega)
  list s _ _ := GoodRun.stalled (by omega)
  listLoop acc s _ _ := GoodRun.stalled (by omega)
  dictionary s _ _ := GoodRun.stalled (by omega)
  dictionaryLoop acc s _ _ := GoodRun.stalled (by omega)

variable {input}

/-- The part of `parseValue` behind the look at the first character: a call, the result of which
is made a value. -/
theorem goodRun_call {α : Type} {x : Parser α} {toValue : α → BencodeValue} {s : ParserState}
    {enough : Prop}
    (hx : GoodRun input.bytes.length (s.log (.peek s.pos)) (x (s.log (.peek s.pos))) enough)
    (hforward : ∀ v t, member .parseValue (x >>= fun a => pure (toValue a))
      (s.log (.peek s.pos)) = .value v t → s.pos < t.pos ∧ t.pos ≤ input.bytes.length) :
    GoodRun input.bytes.length s (member .parseValue (x >>= fun a => pure (toValue a))
      (s.log (.peek s.pos))) enough := by
  refine GoodRun.after_log (GoodRun.member (GoodRun.bind hx ?_) ?_) trivial
  · exact fun a t _ => GoodRun.value _ _ ⟨[], rfl, by simp⟩
  · exact fun v t h => hforward v (t.log (.returned .parseValue s.pos t.pos))
      (member_eq_value_iff.mpr ⟨t, h, rfl⟩)

/-- The step for values: three units of fuel for each character that is left are enough. -/
theorem goodRuns_value {n : ℕ} (ih : GoodRuns input n) (s : ParserState)
    (hr : ¬ Rewinds input.bytes s.pos) :
    GoodRun input.bytes.length s (parseValue input (n + 1) s)
      (3 * (input.bytes.length - s.pos) + 1 ≤ n + 1) := by
  have hforward : ∀ v t, parseValue input (n + 1) s = .value v t →
      s.pos < t.pos ∧ t.pos ≤ input.bytes.length := fun v t h =>
    reads_forward input.size_lt ((sound input (n + 1)).value s v t h) hr
  rcases parseValue_cases input n s with ⟨-, hrun⟩ | ⟨-, hrun⟩ | ⟨hc, hrun⟩ | ⟨hc, hrun⟩ |
    ⟨c, -, -, hrun⟩ | ⟨c, -, -, -, -, -, hrun⟩
  · rw [hrun]
    exact GoodRun.throws _
  · rw [hrun] at hforward ⊢
    exact goodRun_call (parseInteger_goodRun input) hforward
  · rw [hrun] at hforward ⊢
    have hlt := (List.getElem?_eq_some_iff.mp hc).1
    have hlist := (ih.list (s.log (.peek s.pos)) hlt fun h => hr (.list hc h)).mono
      (p := 3 * (input.bytes.length - s.pos) + 1 ≤ n + 1)
      (by simp only [ParserState.log_pos]; omega)
    exact goodRun_call hlist hforward
  · rw [hrun] at hforward ⊢
    have hlt := (List.getElem?_eq_some_iff.mp hc).1
    have hdict := (ih.dictionary (s.log (.peek s.pos)) hlt fun h => hr (.dictionary hc h)).mono
      (p := 3 * (input.bytes.length - s.pos) + 1 ≤ n + 1)
      (by simp only [ParserState.log_pos]; omega)
    exact goodRun_call hdict hforward
  · rw [hrun] at hforward ⊢
    have hstring : ¬ RewindingHeader input.bytes (s.log (.peek s.pos)).pos :=
      fun h => hr (.string h)
    exact goodRun_call (parseString_goodRun input hstring) hforward
  · rw [hrun]
    exact GoodRun.after_log (GoodRun.throws _) trivial

/-- The step for the loop over a list. -/
theorem goodRuns_listLoop {n : ℕ} (ih : GoodRuns input n) (acc : List BencodeValue)
    (s : ParserState) (hs : s.pos ≤ input.bytes.length)
    (hr : ¬ RewindsItems input.bytes s.pos) :
    GoodRun input.bytes.length s (parseListLoop input (n + 1) acc s)
      (3 * (input.bytes.length - s.pos) + 2 ≤ n + 1) := by
  rcases parseListLoop_cases input n acc s with ⟨-, hrun⟩ | ⟨-, -, hrun⟩ | ⟨c, -, -, -, hrun⟩
  · rw [hrun]
    exact GoodRun.throws _
  · rw [hrun]
    exact GoodRun.value _ _ ⟨[.get s.pos, .peek s.pos], rfl, by simp [Event.Forward]⟩
  · rw [hrun]
    have hvalue : ¬ Rewinds input.bytes s.pos := fun h => hr (.here h)
    have hitem := (ih.value (s.log (.peek s.pos)) hs hvalue).mono
      (p := 3 * (input.bytes.length - s.pos) + 2 ≤ n + 1)
      (by simp only [ParserState.log_pos]; omega)
    refine GoodRun.after_log (GoodRun.bind hitem ?_) trivial
    · -- an item was read, and the loop goes on past it
      intro item t hitem
      have hread := (sound input n).value _ _ _ hitem
      have hforward := reads_forward input.size_lt hread hvalue
      refine (ih.listLoop (acc ++ [item]) t hforward.2 fun h => hr (.later hread h)).mono ?_
      simp only [ParserState.log_pos] at hforward
      omega

/-- The step for the loop over a dictionary. -/
theorem goodRuns_dictionaryLoop {n : ℕ} (ih : GoodRuns input n) (acc : BencodeDictionary)
    (s : ParserState) (hr : ¬ RewindsEntries input.bytes s.pos) :
    GoodRun input.bytes.length s (parseDictionaryLoop input (n + 1) acc s)
      (3 * (input.bytes.length - s.pos) + 2 ≤ n + 1) := by
  rcases parseDictionaryLoop_cases input n acc s with
    ⟨-, hrun⟩ | ⟨-, -, hrun⟩ | ⟨c, -, -, -, hrun⟩
  · rw [hrun]
    exact GoodRun.throws _
  · rw [hrun]
    exact GoodRun.value _ _ ⟨[.get s.pos, .peek s.pos], rfl, by simp [Event.Forward]⟩
  · rw [hrun]
    have hheader : ¬ RewindingHeader input.bytes s.pos := fun h => hr (.key h)
    refine GoodRun.after_log (GoodRun.bind (parseString_goodRun input hheader) ?_) trivial
    -- the key was read, then its value, and the loop goes on past both
    intro key t hkey
    have hkeyRead := reads_of_parseString input hkey
    have hkeyForward := readsString_forward input.size_lt hkeyRead hheader
    have hvalue : ¬ Rewinds input.bytes t.pos := fun h => hr (.child hkeyRead h)
    simp only [ParserState.log_pos] at hkeyForward
    apply GoodRun.bind ((ih.value t hkeyForward.2 hvalue).mono (by omega))
    intro child u hchild
    have hread := (sound input n).value _ _ _ hchild
    have hforward := reads_forward input.size_lt hread hvalue
    exact (ih.dictionaryLoop _ u hforward.2 fun h => hr (.later hkeyRead hread h)).mono (by omega)

/-- All runs without a rewinding string are good. -/
theorem goodRuns (n : ℕ) : GoodRuns input n := by
  induction n with
  | zero => exact goodRuns_zero input
  | succ n ih =>
      refine ⟨fun s _ hr => goodRuns_value ih s hr, fun s hs hr => ?_, goodRuns_listLoop ih,
        fun s hs hr => ?_, fun acc s _ hr => goodRuns_dictionaryLoop ih acc s hr⟩
      · rw [parseList_apply]
        have hloop : GoodRun input.bytes.length s
            ((do let _ ← Model.get input; parseListLoop input n [] : Parser _) s)
            (3 * (input.bytes.length - (s.pos + 1)) + 2 ≤ n) :=
          (ih.listLoop [] ⟨s.pos + 1, .get s.pos :: s.trace⟩ hs hr).after
            ⟨[.get s.pos], rfl, by simp [Event.Forward]⟩
        refine (GoodRun.member hloop ?_).mono (by omega)
        intro items t h
        obtain ⟨rest, -, hrest⟩ :=
          (sound input n).listLoop ⟨s.pos + 1, .get s.pos :: s.trace⟩ _ _ _ h
        have hforward := readsItems_forward input.size_lt hrest hr
        simp only at hforward
        omega
      · rw [parseDictionary_apply]
        have hloop : GoodRun input.bytes.length s
            ((do let _ ← Model.get input; parseDictionaryLoop input n [] : Parser _) s)
            (3 * (input.bytes.length - (s.pos + 1)) + 2 ≤ n) :=
          (ih.dictionaryLoop [] ⟨s.pos + 1, .get s.pos :: s.trace⟩ hs hr).after
            ⟨[.get s.pos], rfl, by simp [Event.Forward]⟩
        refine (GoodRun.member hloop ?_).mono (by omega)
        intro entries t h
        obtain ⟨read, -, hrest⟩ :=
          (sound input n).dictionaryLoop ⟨s.pos + 1, .get s.pos :: s.trace⟩ _ _ _ h
        have hforward := readsEntries_forward input.size_lt hrest hr
        simp only at hforward
        omega

end Run

/-! ## Runs that come to a rewinding header -/

/-- The trace only grows. -/
def TraceGrows (s t : ParserState) : Prop := s.trace <:+ t.trace

instance : Std.Refl TraceGrows := ⟨fun s => List.suffix_refl s.trace⟩

instance : IsTrans ParserState TraceGrows := ⟨fun _ _ _ => List.IsSuffix.trans⟩

section Grows

variable (input : StringView)

/-- Events that are added let the trace grow. -/
theorem traceGrows_append {s : ParserState} {p : ℕ} (events : List Event) :
    TraceGrows s ⟨p, events ++ s.trace⟩ := ⟨events, rfl⟩

/-- The parser of strings only adds to the trace. -/
theorem parseString_grows : Advances TraceGrows (parseString input) := by
  intro s
  by_cases hread : ∃ text q, ReadsString input.bytes s.pos text q
  · obtain ⟨text, q, hread⟩ := hread
    obtain ⟨events, -, hrun⟩ := parseString_of_reads input hread
    rw [hrun]
    exact traceGrows_append (_ :: events)
  · obtain ⟨e, p, events, -, hrun⟩ := parseString_throws input (s := s) (by simpa using hread)
    rw [hrun]
    exact traceGrows_append events

/-- So does the parser of integers. -/
theorem parseInteger_grows : Advances TraceGrows (parseInteger input) := by
  intro s
  by_cases hread : ∃ i q, ReadsInteger input.bytes s.pos i q
  · obtain ⟨i, q, hread⟩ := hread
    obtain ⟨events, -, hrun⟩ := parseInteger_of_reads input hread
    rw [hrun]
    exact traceGrows_append (_ :: events)
  · obtain ⟨e, p, events, -, hrun⟩ := parseInteger_throws input (s := s) (by simpa using hread)
    rw [hrun]
    exact traceGrows_append events

/-- So does a member function if its body does. -/
theorem member_grows {α : Type} {callee : Member} {body : Parser α}
    (h : Advances TraceGrows body) : Advances TraceGrows (member callee body) := by
  intro s
  have hs := h s
  unfold member
  cases hbody : body s with
  | value a t => rw [hbody] at hs; exact hs.trans (List.suffix_cons _ _)
  | thrown e t => rwa [hbody] at hs
  | running t => rwa [hbody] at hs

/-- Taking a character adds to the trace. -/
theorem get_grows : Advances TraceGrows (Model.get input) := fun _ => ⟨[_], rfl⟩

/-- A look at a character adds to the trace. -/
theorem peek_grows : Advances TraceGrows (peek input) := fun _ => ⟨[_], rfl⟩

/-- The test for the end leaves the trace as it is. -/
theorem eof_grows : Advances TraceGrows (eof input) := fun s => List.suffix_refl s.trace

/-- The recursive functions only add to the trace. -/
structure AllGrow (n : ℕ) : Prop where
  value : Advances TraceGrows (parseValue input n)
  list : Advances TraceGrows (parseList input n)
  listLoop : ∀ acc, Advances TraceGrows (parseListLoop input n acc)
  dictionary : Advances TraceGrows (parseDictionary input n)
  dictionaryLoop : ∀ acc, Advances TraceGrows (parseDictionaryLoop input n acc)

/-- All of the parser only adds to the trace. -/
theorem allGrow (n : ℕ) : AllGrow input n := by
  induction n with
  | zero =>
      exact ⟨Advances.stalled, Advances.stalled, fun _ => Advances.stalled, Advances.stalled,
        fun _ => Advances.stalled⟩
  | succ n ih =>
      refine ⟨?_, ?_, ?_, ?_, ?_⟩
      · refine member_grows (Advances.bind (eof_grows input) fun b => Advances.ite
          (Advances.throwing _) (Advances.bind (peek_grows input) fun c => ?_))
        refine Advances.ite ?_ (Advances.ite ?_ (Advances.ite ?_ (Advances.ite ?_ ?_)))
        · exact Advances.bind (parseInteger_grows input) fun _ => Advances.pure _
        · exact Advances.bind ih.list fun _ => Advances.pure _
        · exact Advances.bind ih.dictionary fun _ => Advances.pure _
        · exact Advances.bind (parseString_grows input) fun _ => Advances.pure _
        · exact Advances.throwing _
      · exact member_grows (Advances.bind (get_grows input) fun _ => ih.listLoop [])
      · intro acc
        refine Advances.bind (eof_grows input) fun b => Advances.ite (Advances.throwing _)
          (Advances.bind (peek_grows input) fun c => Advances.ite ?_ ?_)
        · exact Advances.bind (get_grows input) fun _ => Advances.pure _
        · exact Advances.bind ih.value fun item => ih.listLoop _
      · exact member_grows (Advances.bind (get_grows input) fun _ => ih.dictionaryLoop [])
      · intro acc
        refine Advances.bind (eof_grows input) fun b => Advances.ite (Advances.throwing _)
          (Advances.bind (peek_grows input) fun c => Advances.ite ?_ ?_)
        · exact Advances.bind (get_grows input) fun _ => Advances.pure _
        · exact Advances.bind (parseString_grows input) fun key =>
            Advances.bind ih.value fun child => ih.dictionaryLoop _

end Grows

/-- `parseString` returned with the cursor at its entry or before it. -/
def Event.StringRewound : Event → Prop
  | .returned .parseString entry exit => exit ≤ entry
  | _ => False

section Comes

variable {input : StringView}

/-- With enough fuel, a run from `p` has a `parseString` that returned without progress. -/
def ComesBack {α : Type} (x : ℕ → Parser α) (p : ℕ) : Prop :=
  ∃ n, ∀ m, n ≤ m → ∀ s : ParserState, s.pos = p →
    ∃ e ∈ (x m s).state.trace, Event.StringRewound e

/-- Coming back is a rewound string that comes of enough fuel. -/
theorem comesBack_iff {α : Type} {x : ℕ → Parser α} {p : ℕ} :
    ComesBack x p ↔
      Eventually (·.pos = p) x fun outcome => ∃ e ∈ outcome.state.trace, Event.StringRewound e :=
  Iff.rfl

/-- A member function comes back when its body does. -/
theorem comesBack_member {α : Type} (callee : Member) {x : ℕ → Parser α} {p : ℕ}
    (h : ComesBack x p) : ComesBack (fun n => member callee (x n)) p := by
  refine comesBack_iff.mpr ((comesBack_iff.mp h).imp ?_)
  rintro m s ⟨e, he, hback⟩
  refine ⟨e, ?_, hback⟩
  simp only [member]
  cases hrun : x m s with
  | value a t => rw [hrun] at he; exact List.mem_cons_of_mem _ he
  | thrown e t => rwa [hrun] at he
  | running t => rwa [hrun] at he

/-- A sequence comes back when its first part does. -/
theorem comesBack_bind_left {α β : Type} {x : ℕ → Parser α} {f : ℕ → α → Parser β} {p : ℕ}
    (h : ComesBack x p) (hf : ∀ n a, Advances TraceGrows (f n a)) :
    ComesBack (fun n => x n >>= f n) p := by
  refine comesBack_iff.mpr ((comesBack_iff.mp h).imp ?_)
  rintro m s ⟨e, he, hback⟩
  refine ⟨e, ?_, hback⟩
  simp only [bind_apply]
  cases hrun : x m s with
  | value a t => rw [hrun] at he; exact (hf m a t).subset he
  | thrown e t => rwa [hrun] at he
  | running t => rwa [hrun] at he

/-- A sequence comes back when its second part does, after the first returned. -/
theorem comesBack_bind_right {α β : Type} {x : ℕ → Parser α} {f : ℕ → α → Parser β} {p q : ℕ}
    {a : α} (hx : Returns x p a q) (hf : ComesBack (fun n => f n a) q) :
    ComesBack (fun n => x n >>= f n) p :=
  comesBack_iff.mpr ((returns_iff.mp hx).bind (comesBack_iff.mp hf))

/-- A step that takes one unit of fuel may come before. -/
theorem comesBack_of_step {α : Type} {x y : ℕ → Parser α} {p : ℕ} (h : ComesBack y p)
    (hstep : ∀ n s, s.pos = p → ∃ s', s'.pos = p ∧ x (n + 1) s = y n s') : ComesBack x p :=
  comesBack_iff.mpr ((comesBack_iff.mp h).of_step hstep)

/-- A header that rewinds makes the string come back. -/
theorem comesBack_parseString {p : ℕ} (h : RewindingHeader input.bytes p) :
    ComesBack (fun _ => parseString input) p := by
  refine ⟨0, ?_⟩
  intro _ _ s hs
  subst hs
  obtain ⟨text, q, hread, hback⟩ := rewindingHeader_reads input.size_lt h
  obtain ⟨events, -, hrun⟩ := parseString_of_reads input hread
  exact ⟨.returned .parseString s.pos q, by simp [hrun], hback⟩

/-- A value comes back when what its first character begins does. -/
theorem comesBack_parseValue {p : ℕ} {c : UInt8} (hc : input.bytes[p]? = some c)
    (h : ComesBack (fun n => dispatch input n c) p) : ComesBack (parseValue input) p := by
  apply comesBack_of_step (comesBack_member .parseValue h)
  intro n s hs
  subst hs
  exact ⟨s.log (.peek s.pos), rfl, parseValue_dispatch input hc⟩

/-- A list comes back when the loop over it does. -/
theorem comesBack_parseList {p : ℕ} (h : ComesBack (fun n => parseListLoop input n []) (p + 1)) :
    ComesBack (parseList input) p :=
  comesBack_of_step (comesBack_member .parseList (comesBack_bind_right
    (f := fun n _ => parseListLoop input n []) (returns_get p) h))
    fun n s hs => ⟨s, hs, parseList_apply input n s⟩

/-- A dictionary comes back when the loop over it does. -/
theorem comesBack_parseDictionary {p : ℕ}
    (h : ComesBack (fun n => parseDictionaryLoop input n []) (p + 1)) :
    ComesBack (parseDictionary input) p :=
  comesBack_of_step (comesBack_member .parseDictionary (comesBack_bind_right
    (f := fun n _ => parseDictionaryLoop input n []) (returns_get p) h))
    fun n s hs => ⟨s, hs, parseDictionary_apply input n s⟩

mutual

/-- Where a reading comes to a rewinding header, so does the run. -/
theorem rewinds_value {p : ℕ} : Rewinds input.bytes p → ComesBack (parseValue input) p
  | .string hheader => by
      obtain ⟨token, hat, -⟩ := id hheader
      obtain ⟨c, hc, hdigit⟩ := hat.first
      apply comesBack_parseValue hc
      simp only [dispatch_of_digit input hdigit]
      exact comesBack_bind_left (f := fun _ text => pure (BencodeValue.string text))
        (comesBack_parseString hheader) fun _ _ => Advances.pure _
  | .list hc hitems => by
      have hloop := rewinds_items hitems []
      apply comesBack_parseValue hc
      have hi : byte 'l' ≠ byte 'i' := by decide
      simp only [dispatch, hi, if_false, if_true]
      exact comesBack_bind_left (f := fun _ items => pure (BencodeValue.list items))
        (comesBack_parseList hloop) fun _ _ => Advances.pure _
  | .dictionary hc hentries => by
      have hloop := rewinds_entries hentries []
      apply comesBack_parseValue hc
      have hi : byte 'd' ≠ byte 'i' := by decide
      have hl : byte 'd' ≠ byte 'l' := by decide
      simp only [dispatch, hi, hl, if_false, if_true]
      exact comesBack_bind_left (f := fun _ entries => pure (BencodeValue.dictionary entries))
        (comesBack_parseDictionary hloop) fun _ _ => Advances.pure _

/-- Items in which a string rewinds come back. -/
theorem rewinds_items {p : ℕ} : RewindsItems input.bytes p → ∀ acc,
    ComesBack (fun n => parseListLoop input n acc) p
  | .here h => fun acc =>
      comesBack_of_step (comesBack_bind_left
        (f := fun n item => parseListLoop input n (acc ++ [item])) (rewinds_value h)
        fun n _ => (allGrow input n).listLoop _) (parseListLoop_round h.first acc)
  | .later hv h => fun acc =>
      comesBack_of_step (comesBack_bind_right
        (f := fun n item => parseListLoop input n (acc ++ [item])) (returns_of_reads hv)
        (rewinds_items h _)) (parseListLoop_round hv.first acc)

/-- Entries in which a string rewinds come back. -/
theorem rewinds_entries {p : ℕ} : RewindsEntries input.bytes p → ∀ acc,
    ComesBack (fun n => parseDictionaryLoop input n acc) p
  | .key hheader => fun acc =>
      comesBack_of_step (comesBack_bind_left
        (f := fun n key => parseValue input n >>= fun child =>
          parseDictionaryLoop input n (SortedMap.emplace acc key child))
        (comesBack_parseString hheader)
        fun n _ => Advances.bind (allGrow input n).value
          fun _ => (allGrow input n).dictionaryLoop _)
        (parseDictionaryLoop_round (Rewinds.string hheader).first acc)
  | @RewindsEntries.child _ _ _ k hkey h => fun acc =>
      comesBack_of_step (comesBack_bind_right
        (f := fun n key => parseValue input n >>= fun child =>
          parseDictionaryLoop input n (SortedMap.emplace acc key child))
        (returns_parseString hkey)
        (comesBack_bind_left (f := fun n child =>
          parseDictionaryLoop input n (SortedMap.emplace acc k child)) (rewinds_value h)
          fun n _ => (allGrow input n).dictionaryLoop _))
        (parseDictionaryLoop_round (Reads.string hkey).first acc)
  | @RewindsEntries.later _ _ _ _ k _ hkey hv h => fun acc =>
      comesBack_of_step (comesBack_bind_right
        (f := fun n key => parseValue input n >>= fun child =>
          parseDictionaryLoop input n (SortedMap.emplace acc key child))
        (returns_parseString hkey)
        (comesBack_bind_right (f := fun n child =>
          parseDictionaryLoop input n (SortedMap.emplace acc k child)) (returns_of_reads hv)
          (rewinds_entries h _)))
        (parseDictionaryLoop_round (Reads.string hkey).first acc)

end

end Comes

/-! ## The parser makes progress exactly where no header rewinds -/

/-- `parse` ends, with a value or an exception, and every call of a member function that returns
leaves the cursor past its entry and inside the input. -/
structure ParseProgress (input : StringView) : Prop where
  ends : ∃ fuel, (parse input fuel).Ended
  forward : ∀ fuel callee entry exit, callee ≠ .parseInteger →
    Event.returned callee entry exit ∈ (parse input fuel).state.trace →
    entry < exit ∧ exit ≤ input.bytes.length

/-- The test for trailing bytes leaves no event. -/
theorem parse_trace (input : StringView) (fuel : ℕ) :
    (parse input fuel).state.trace = (parseValue input fuel parserStart).state.trace := by
  rw [parse, parseRoot, bind_apply]
  cases parseValue input fuel parserStart with
  | value v t =>
      simp only [bind_apply, eof, apply_ite_apply, throwRuntime]
      split <;> rfl
  | thrown e t => rfl
  | running t => rfl

/-- The test for trailing bytes always ends. -/
theorem parse_ended_iff (input : StringView) (fuel : ℕ) :
    (parse input fuel).Ended ↔ (parseValue input fuel parserStart).Ended := by
  rw [parse, parseRoot, bind_apply]
  cases parseValue input fuel parserStart with
  | value v t =>
      simp only [bind_apply, eof, apply_ite_apply, throwRuntime]
      split <;> simp
  | thrown e t => exact Iff.rfl
  | running t => exact Iff.rfl

/-- **Progress of the parser.**  `parse` ends with every returning call having made progress if
and only if reading the input comes to no header whose number takes the cursor back to the
header's first byte or before it.
SRCLINE: Bencode.cpp:27-124 -/
theorem parse_progress_iff (input : StringView) :
    ParseProgress input ↔ ¬ Rewinds input.bytes 0 := by
  constructor
  · intro h hrewinds
    obtain ⟨n, hn⟩ := rewinds_value hrewinds
    obtain ⟨e, he, hback⟩ := hn n le_rfl parserStart rfl
    rw [← parse_trace] at he
    cases e with
    | returned callee entry exit =>
        cases callee with
        | parseString =>
            have hlt := (h.forward n _ entry exit (by decide) he).1
            have hle : exit ≤ entry := hback
            omega
        | _ => exact hback
    | _ => exact hback
  · intro hr
    have hrun := fun fuel => (goodRuns fuel).value parserStart (Nat.zero_le _) hr
    refine ⟨⟨3 * input.bytes.length + 1, ?_⟩, ?_⟩
    · rw [parse_ended_iff]
      exact (hrun _).ended (by simp [parserStart])
    · intro fuel callee entry exit _ hmem
      rw [parse_trace] at hmem
      obtain ⟨events, htrace, hall⟩ := (hrun fuel).trace
      rw [htrace] at hmem
      have hevent : Event.returned callee entry exit ∈ events := by
        simpa [parserStart] using hmem
      exact hall _ hevent

/-! ## An input on which the parser runs forever -/

section Stuck

variable {input : StringView}

/-- A string that is read is what `parseValue` returns with any fuel but none. -/
theorem parseValue_of_readsString {p q : ℕ} {text : Bytes} (h : ReadsString input.bytes p text q)
    (n : ℕ) (s : ParserState) (hs : s.pos = p) :
    ∃ t, parseValue input (n + 1) s = .value (.string text) t ∧ t.pos = q := by
  subst hs
  obtain ⟨token, hheader, -⟩ := id h
  obtain ⟨c, hc, hdigit⟩ := hheader.first
  obtain ⟨events, -, hrun⟩ := parseString_of_reads input (s := s.log (.peek s.pos)) h
  rw [parseValue_dispatch input hc, dispatch_of_digit input hdigit]
  exact ⟨_, member_eq_value_iff.mpr ⟨_, bind_of_value hrun _, rfl⟩, rfl⟩

/-- A string that ends at its own first byte is read over and over: the loop of `parseList` does
not end with any fuel. -/
theorem parseListLoop_not_ended {p : ℕ} {text : Bytes} (h : ReadsString input.bytes p text p)
    (n : ℕ) (acc : List BencodeValue) (s : ParserState) (hs : s.pos = p) :
    ¬ (parseListLoop input n acc s).Ended := by
  induction n generalizing acc s with
  | zero => exact Outcome.not_ended_running s
  | succ n ih =>
      obtain ⟨s', hs', hrun⟩ := parseListLoop_round (Reads.string h).first acc n s hs
      rw [hrun]
      cases n with
      | zero => exact Outcome.not_ended_running s'
      | succ m =>
          obtain ⟨t, hvalue, ht⟩ := parseValue_of_readsString h m s' hs'
          rw [bind_of_value hvalue]
          exact ih _ t ht

/-- A list whose first item is such a string is never parsed to an end. -/
theorem parse_not_ended {text : Bytes} (hl : input.bytes[0]? = some (byte 'l'))
    (h : ReadsString input.bytes 1 text 1) (fuel : ℕ) : ¬ (parse input fuel).Ended := by
  rw [parse_ended_iff]
  cases fuel with
  | zero => exact Outcome.not_ended_running _
  | succ n =>
      have hi : byte 'l' ≠ byte 'i' := by decide
      rw [parseValue_dispatch input (s := parserStart) hl]
      simp only [dispatch, hi, if_false, if_true]
      cases n with
      | zero => exact id
      | succ m =>
          have hloop := parseListLoop_not_ended h m [] ⟨1, [.get 0, .peek 0]⟩ rfl
          simp only [member, bind_apply, parseList, Model.get, parserStart, ParserState.log]
          cases hrun : parseListLoop input m [] ⟨1, [.get 0, .peek 0]⟩ with
          | value items t => simp [hrun] at hloop
          | thrown e t => simp [hrun] at hloop
          | running t => exact id

end Stuck

/-- A list whose only string announces `2 ^ 64 - 21` bytes after a header that ends at 22. -/
def rewindingInput : StringView := ⟨bytes "l18446744073709551595:", by decide⟩

/-- The string in this text ends where it began. -/
theorem rewindingInput_reads : ReadsString rewindingInput.bytes 1 [] 1 := by
  refine ⟨bytes "18446744073709551595", ⟨⟨[], by decide⟩, by decide, by decide, by decide⟩,
    by decide, by decide, by decide⟩

/-- The header of `rewindingInput` takes the cursor from 1 back to 1, and the run never ends. -/
theorem parse_progress_fails :
    ¬ (∀ input : StringView, ParseProgress input) ∧
      ∀ fuel, ¬ (parse rewindingInput fuel).Ended := by
  have hnever := parse_not_ended (by decide) rewindingInput_reads
  refine ⟨fun h => ?_, hnever⟩
  obtain ⟨fuel, hended⟩ := (h rewindingInput).ends
  exact hnever fuel hended

end Vtfs.Analysis
