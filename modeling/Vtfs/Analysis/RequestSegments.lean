import Vtfs.Interface.RequestSegments
import Vtfs.Analysis.WebSeedDownloads

/-!
# What a request cut into segments is taken for

The loop over the lines of a beginning of a request comes to the lines that are whole in it
(`headersLoop_eq`), and the value of a header is that of its last line (`addHeaders_eq_some_iff`).
So the server goes by the same request exactly when the first segment has all that matters of it
(`receiveRequest_segments_iff`); the web seed client, which reads on, depends on no cuts
(`receiveLoop_eq`).
-/

set_option autoImplicit false

namespace Vtfs.Analysis

open Vtfs.Library
open Vtfs.Model
open Vtfs.Interface

/-! ## Lines -/

/-- The first line of a beginning of a text: it is there with its end, or there is none. -/
theorem cutAt_crlf_of_prefix {line rest text : Bytes} (hline : ¬ crlf <:+: line)
    (hbegins : text <+: line ++ crlf ++ rest) :
    cutAt crlf text =
      if line ++ crlf <+: text then some (line, text.drop (line ++ crlf).length) else none :=
  cutAt_of_prefix (by decide) (cutAt_crlf_append (cutAt_eq_none_iff.mpr hline) rest) hbegins

/-- The first line comes first, with its end. -/
theorem withEnds_cons (line : Bytes) (lines : List Bytes) :
    withEnds (line :: lines) = line ++ crlf ++ withEnds lines := by
  rw [withEnds, withEnds, List.flatMap_cons]

/-- What comes after the front of a beginning is a beginning of what comes after the front. -/
theorem drop_prefix_of_append {front rest text : Bytes} (h : text <+: front ++ rest) :
    text.drop front.length <+: rest := by
  have hdrop := h.drop front.length
  rwa [List.drop_left] at hdrop

/-- The lines that are within and those that are missing are all lines. -/
theorem linesWithin_append (lines : List Bytes) (text : Bytes) :
    (linesWithin lines text).1 ++ (linesWithin lines text).2 = lines := by
  induction lines generalizing text with
  | nil => rfl
  | cons line lines ih =>
      rw [linesWithin]
      split
      · rw [List.cons_append, ih]
      · rfl

/-- All lines are in the text with the empty line after them. -/
theorem linesWithin_withEnds (lines : List Bytes) (rest : Bytes) :
    linesWithin lines (withEnds lines ++ rest) = (lines, []) := by
  induction lines with
  | nil => rfl
  | cons line lines ih =>
      rw [linesWithin, withEnds_cons, List.append_assoc, if_pos (List.prefix_append _ _),
        List.drop_left, ih]

/-- The loop over a beginning of the lines goes through those that are whole in it. -/
theorem headersLoop_eq {lines : List Bytes} (rounds : ℕ) (text : Bytes) (headers : Headers)
    (hlines : ∀ line ∈ lines, line ≠ [] ∧ ¬ crlf <:+: line)
    (hbegins : text <+: withEnds lines ++ crlf) (hrounds : text.length ≤ rounds) :
    headersLoop rounds text headers = (linesWithin lines text).1.foldl addHeader headers := by
  induction lines generalizing rounds text headers with
  | nil =>
      -- of the empty line there is all or less than an end
      have hblank : text <+: [] ++ crlf ++ [] := by simpa [withEnds] using hbegins
      have hcut := cutAt_crlf_of_prefix (by decide) hblank
      cases rounds with
      | zero => rfl
      | succ rounds =>
          rw [headersLoop, hcut]
          split
          · rename_i hsome
            split at hsome
            · obtain ⟨rfl, -⟩ := Prod.mk.inj (Option.some.inj hsome)
              rfl
            · cases hsome
          · rfl
  | cons line lines ih =>
      obtain ⟨hne, hline⟩ := hlines line List.mem_cons_self
      rw [withEnds_cons, List.append_assoc] at hbegins
      have hcut := cutAt_crlf_of_prefix hline hbegins
      rw [linesWithin]
      by_cases hwhole : line ++ crlf <+: text
      · rw [if_pos hwhole] at hcut ⊢
        have hlength : 0 < (line ++ crlf).length ∧ (line ++ crlf).length ≤ text.length :=
          ⟨by simp [List.length_pos_iff.mpr hne], hwhole.length_le⟩
        obtain ⟨rounds, rfl⟩ := Nat.exists_eq_succ_of_ne_zero (n := rounds) (by omega)
        have hrest := ih rounds (text.drop (line ++ crlf).length) (addHeader headers line)
          (fun other hother => hlines other (List.mem_cons_of_mem line hother))
          (drop_prefix_of_append hbegins) (by rw [List.length_drop]; omega)
        rw [headersLoop, hcut]
        simp only [hne, if_false, List.foldl_cons]
        exact hrest
      · rw [if_neg hwhole] at hcut ⊢
        cases rounds with
        | zero => rfl
        | succ rounds =>
            rw [headersLoop, hcut]
            rfl

/-! ## Headers -/

/-- A header has the last value that the lines give it, or else what it had. -/
theorem addHeaders_apply (lines : List Bytes) (headers : Headers) (name : Bytes) :
    lines.foldl addHeader headers name =
      (lines.foldl addHeader (fun _ => none) name).or (headers name) := by
  induction lines generalizing headers with
  | nil => rfl
  | cons line lines ih =>
      rw [List.foldl_cons, List.foldl_cons, ih (addHeader headers line),
        ih (addHeader (fun _ => none) line), Option.or_assoc]
      congr 1
      unfold addHeader
      cases headerOf line with
      | none => rfl
      | some header =>
          by_cases hname : name = header.1
          · simp [hname]
          · simp [hname]

/-- The last line decides, if it has the name. -/
theorem lastFor_concat_iff {lines : List Bytes} {line name value : Bytes} :
    LastFor (lines ++ [line]) name value ↔
      headerOf line = some (name, value) ∨
        (∀ value', headerOf line ≠ some (name, value')) ∧ LastFor lines name value := by
  constructor
  · rintro ⟨before, last, after, heq, hlast, hafter⟩
    rcases List.eq_nil_or_concat after with rfl | ⟨others, other, rfl⟩
    · obtain ⟨-, hline⟩ := List.append_inj' heq rfl
      obtain ⟨rfl, -⟩ := List.cons.inj hline
      exact Or.inl hlast
    · have heq' : lines ++ [line] = (before ++ last :: others) ++ [other] := by simpa using heq
      obtain ⟨hlines, hline⟩ := List.append_inj' heq' rfl
      obtain ⟨rfl, -⟩ := List.cons.inj hline
      refine Or.inr ⟨hafter line (by simp), before, last, others, hlines, hlast, ?_⟩
      exact fun other hother => hafter other (by simp [hother])
  · rintro (hline | ⟨hline, before, last, after, rfl, hlast, hafter⟩)
    · exact ⟨lines, line, [], rfl, hline, by simp⟩
    · refine ⟨before, last, after ++ [line], by simp, hlast, fun other hother => ?_⟩
      rcases List.mem_append.mp hother with hother | hother
      · exact hafter other hother
      · rw [List.mem_singleton.mp hother]
        exact hline

/-- A header has the value that its last line gives it. -/
theorem addHeaders_eq_some_iff (lines : List Bytes) (name value : Bytes) :
    lines.foldl addHeader (fun _ => none) name = some value ↔ LastFor lines name value := by
  induction lines using List.reverseRecOn with
  | nil =>
      constructor
      · intro h
        cases h
      · rintro ⟨before, line, after, hnil, -⟩
        simp at hnil
  | append_singleton lines line ih =>
      rw [List.foldl_concat, lastFor_concat_iff, ← ih]
      cases hline : headerOf line with
      | none => simp [addHeader, hline]
      | some header =>
          obtain ⟨other, found⟩ := header
          by_cases hname : name = other
          · simp [addHeader, hline, hname]
          · simp [addHeader, hline, hname, Ne.symm hname]

/-- More lines change no header exactly when each header they give has that value already. -/
theorem addHeaders_append_eq_iff (lines more : List Bytes) :
    lines.foldl addHeader (fun _ => none) = (lines ++ more).foldl addHeader (fun _ => none) ↔
      ∀ name value, LastFor more name value → LastFor lines name value := by
  simp only [← addHeaders_eq_some_iff]
  rw [List.foldl_append, funext_iff]
  constructor
  · intro h name value hmore
    rw [h name, addHeaders_apply more, hmore, Option.some_or]
  · intro h name
    rw [addHeaders_apply more]
    cases hmore : more.foldl addHeader (fun _ => none) name with
    | none => rw [Option.none_or]
    | some value => rw [h name value hmore, Option.some_or]

/-! ## Requests -/

/-- What is taken of a beginning of a request. -/
theorem parseRequest_of_prefix {request line text : Bytes} {headerLines : List Bytes}
    (h : CompleteRequest request line headerLines) (hbegins : text <+: request) :
    parseRequest text =
      if line ++ crlf <+: text then
        some ⟨parseRequestLine line,
          (linesWithin headerLines (text.drop (line ++ crlf).length)).1.foldl addHeader
            fun _ => none⟩
      else none := by
  rw [h.text] at hbegins
  rw [parseRequest, cutAt_crlf_of_prefix h.requestLine hbegins]
  split
  · rename_i hline
    rw [Option.map_some, headersLoop_eq _ _ _ h.headerLine (drop_prefix_of_append hbegins) le_rfl]
  · rfl

/-- **A request in segments** is taken for the request in one piece exactly when its first
segment has all that matters of it.
SRCLINE: WebDavServer.cpp:263-307 -/
theorem receiveRequest_segments_iff {request line first : Bytes} {headerLines rest : List Bytes}
    (h : CompleteRequest request line headerLines) (hne : ∀ segment ∈ first :: rest, segment ≠ [])
    (hsegments : (first :: rest).flatten = request) :
    (receiveRequest (first :: rest)).map actedOn = (receiveRequest [request]).map actedOn ↔
      ReceivedAtOnce line headerLines first := by
  have hbegins : first <+: request := ⟨rest.flatten, hsegments⟩
  have hfirst : first ≠ [] := hne first List.mem_cons_self
  have hrequest : request ≠ [] := by
    rintro rfl
    exact hfirst (List.prefix_nil.mp hbegins)
  have hwhole : receiveRequest [request] =
      some ⟨parseRequestLine line, headerLines.foldl addHeader fun _ => none⟩ := by
    rw [receiveRequest, if_neg hrequest, List.take_of_length_le h.fits,
      parseRequest_of_prefix h List.prefix_rfl]
    rw [h.text, if_pos (List.prefix_append _ _), List.drop_left, linesWithin_withEnds]
  have hpart : receiveRequest (first :: rest) = parseRequest first := by
    rw [receiveRequest, if_neg hfirst, List.take_of_length_le (hbegins.length_le.trans h.fits)]
  rw [hwhole, hpart, parseRequest_of_prefix h hbegins]
  have hheaders := addHeaders_append_eq_iff
    (linesWithin headerLines (first.drop (line ++ crlf).length)).1
    (linesWithin headerLines (first.drop (line ++ crlf).length)).2
  rw [linesWithin_append] at hheaders
  by_cases hline : line ++ crlf <+: first
  · rw [if_pos hline]
    simp only [Option.map_some, actedOn, Option.some.injEq, Prod.mk.injEq, true_and]
    rw [hheaders]
    exact ⟨fun hmissing => ⟨hline, hmissing⟩, fun hreceived => hreceived.headers⟩
  · rw [if_neg hline]
    constructor
    · intro hnone
      cases hnone
    · intro hreceived
      exact absurd hreceived.requestLine hline

/-- A request for the first two bytes of a file, as far as the end of its first line, and the
rest. -/
def rangeSegments : Bytes × Bytes :=
  (bytes "GET /a HTTP/1.1\r\n", bytes "Range: bytes=0-1\r\n\r\n")

/-- The two segments make a complete request. -/
theorem completeRequest_range :
    CompleteRequest (rangeSegments.1 ++ rangeSegments.2) (bytes "GET /a HTTP/1.1")
      [bytes "Range: bytes=0-1"] where
  text := by decide
  requestLine := by decide
  headerLine := by decide
  fits := by decide

/-- A request whose last byte comes late. -/
theorem receiveRequest_segments_blankLine :
    (receiveRequest [rangeSegments.1 ++ bytes "Range: bytes=0-1\r\n\r", bytes "\n"]).map actedOn =
      (receiveRequest [rangeSegments.1 ++ rangeSegments.2]).map actedOn := by
  refine (receiveRequest_segments_iff completeRequest_range (by decide) (by decide)).mpr
    ⟨by decide, fun name value => ?_⟩
  have hmissing : (linesWithin [bytes "Range: bytes=0-1"]
      ((rangeSegments.1 ++ bytes "Range: bytes=0-1\r\n\r").drop
        (bytes "GET /a HTTP/1.1" ++ crlf).length)).2 = [] := by decide
  rw [hmissing]
  rintro ⟨before, line, after, hnil, -⟩
  simp at hnil

/-- With a cut after the first line the range is lost. -/
theorem receiveRequest_segments_fails :
    CompleteRequest (rangeSegments.1 ++ rangeSegments.2) (bytes "GET /a HTTP/1.1")
        [bytes "Range: bytes=0-1"] ∧
      rangeSegments.1 ≠ [] ∧ rangeSegments.2 ≠ [] ∧
      (receiveRequest [rangeSegments.1, rangeSegments.2]).map actedOn ≠
        (receiveRequest [rangeSegments.1 ++ rangeSegments.2]).map actedOn := by
  refine ⟨completeRequest_range, by decide, by decide, fun hsame => ?_⟩
  have hrange := congrArg (fun request => request.bind fun r => r.2.2 (bytes "range")) hsame
  revert hrange
  decide

end Vtfs.Analysis
