import Vtfs.Interface.Fetches
import Vtfs.Analysis.Crawling
import Vtfs.Analysis.RangeHeaders

/-!
# The parts of a file fit together

An answer with a part of a file says where that part begins (`part_of_announcement`).  Whatever
becomes of a connection, what is received of it are bytes of the contents at the positions that the
answer says (`part_of`); and a connection that is not disturbed covers what it asks for
(`exists_part_of_undisturbed`).  The rest is about lists (`assemble_of`, `assemble_of_covers`).
-/

set_option autoImplicit false

namespace Vtfs.Analysis

open Vtfs.Library
open Vtfs.Library.Decimal (numeral)
open Vtfs.Model
open Vtfs.Interface

/-! ## Where an answer belongs -/

/-- The line with the positions of a part. -/
def rangeLine (first last size : ℕ) : Bytes :=
  bytes "Content-Range: bytes " ++ numeral first ++ bytes "-" ++ numeral last ++ bytes "/" ++
    numeral size

/-- The value in that line. -/
def rangeValue (first last size : ℕ) : Bytes :=
  bytes "bytes " ++ (numeral first ++ byte '-' :: (numeral last ++ byte '/' :: numeral size))

/-- The line of a range is the name of the header, and the range. -/
theorem rangeLine_eq (first last size : ℕ) :
    rangeLine first last size =
      bytes "Content-Range" ++ byte ':' :: (byte ' ' :: rangeValue first last size) := by
  have hfront : bytes "Content-Range: bytes " =
      bytes "Content-Range" ++ byte ':' :: (byte ' ' :: bytes "bytes ") := rfl
  have hsigns : bytes "-" = [byte '-'] ∧ bytes "/" = [byte '/'] := ⟨rfl, rfl⟩
  rw [rangeLine, rangeValue, hfront, hsigns.1, hsigns.2]
  simp only [List.append_assoc, List.cons_append, List.nil_append]

/-- It is found under the name of the header. -/
theorem nameOf_rangeLine (first last size : ℕ) :
    nameOf (rangeLine first last size) = bytes "content-range" := by
  rw [nameOf, rangeLine_eq, upTo_append (by decide)]
  decide

/-- A digit is no blank. -/
theorem isBlank_of_isDigit {c : UInt8} (h : Decimal.isDigit c = true) :
    HttpResponse.isBlank c = false := by
  have hnot : Decimal.isDigit (byte ' ') = false ∧ Decimal.isDigit (byte '\t') = false := by decide
  have hspace : c ≠ byte ' ' := by
    rintro rfl
    rw [hnot.1] at h
    cases h
  have htab : c ≠ byte '\t' := by
    rintro rfl
    rw [hnot.2] at h
    cases h
  simp [HttpResponse.isBlank, hspace, htab]

/-- The value ends in a digit, so nothing is trimmed but the space before it. -/
theorem trimmed_rangeValue (first last size : ℕ) :
    HttpResponse.trimmed (byte ' ' :: rangeValue first last size) =
      rangeValue first last size := by
  have hfront : (byte ' ' :: rangeValue first last size).dropWhile HttpResponse.isBlank =
      rangeValue first last size := by
    rw [List.dropWhile_cons_of_pos (by decide), rangeValue]
    rfl
  have hdigit : ∀ h : rangeValue first last size ≠ [],
      HttpResponse.isBlank ((rangeValue first last size).getLast h) = false := by
    intro h
    have hlast : (rangeValue first last size).getLast h ∈ numeral size := by
      have hend : rangeValue first last size =
          (bytes "bytes " ++ (numeral first ++ byte '-' :: (numeral last ++ [byte '/']))) ++
            numeral size := by
        rw [rangeValue]
        simp only [List.append_assoc, List.cons_append, List.nil_append]
      simp only [hend]
      rw [List.getLast_append_of_ne_nil _ (Decimal.numeral_ne_nil size)]
      exact List.getLast_mem _
    exact isBlank_of_isDigit
      (List.all_eq_true.mp (Decimal.numeral_all_isDigit size) _ hlast)
  rw [HttpResponse.trimmed, hfront]
  exact List.rdropWhile_eq_self_iff.mpr fun hne => by simp [hdigit hne]

/-- The position is read off the first line with its name. -/
theorem firstPosition_of_lines {status : Bytes} {before after : List Bytes} {first last size : ℕ}
    (hstatus : IsLine status)
    (hlines : ∀ line ∈ before ++ rangeLine first last size :: after, IsLine line)
    (hbefore : ∀ line ∈ before, nameOf line ≠ bytes "content-range") (body : Bytes) :
    (⟨headerText status (before ++ rangeLine first last size :: after), body⟩ :
      HttpResponse).firstPosition = some first := by
  have hfind : (before ++ rangeLine first last size :: after).find?
      (fun line => (upTo (byte ':') line).map HttpResponse.lowerCase = bytes "content-range") =
      some (rangeLine first last size) := by
    rw [List.find?_append, List.find?_eq_none.mpr fun line hline => by
      simpa [nameOf] using hbefore line hline, Option.none_or]
    exact List.find?_cons_of_pos (by simpa [nameOf] using nameOf_rangeLine first last size)
  have hvalue : (rangeLine first last size).drop ((bytes "content-range").length + 1) =
      byte ' ' :: rangeValue first last size := by
    rw [rangeLine_eq]
    rfl
  have hdigits : upTo (byte '-') ((rangeValue first last size).drop (bytes "bytes ").length) =
      numeral first := by
    rw [rangeValue, List.drop_left]
    exact upTo_append (Decimal.not_mem_of_all_isDigit (Decimal.numeral_all_isDigit first)
      (by decide)) _
  rw [HttpResponse.firstPosition, HttpResponse.field, lines_headerText hstatus hlines,
    List.tail_cons, hfind, Option.map_some, hvalue, trimmed_rangeValue, Option.bind_some]
  simp only [hdigits]
  rw [if_pos ⟨List.prefix_append _ _, Decimal.numeral_ne_nil first,
    Decimal.numeral_all_isDigit first⟩, Decimal.value_numeral]

/-- The headers for a part say where the body belongs. -/
theorem part_of_announcement (size length : ℕ) (range : Option (ℕ × ℕ)) (body : Bytes) :
    (responseOf (announcement size length range ++ body)).bind HttpResponse.part =
      some ⟨(range.map Prod.fst).getD 0, body⟩ := by
  have hannounces := announces_fileLines size length range
  rw [announcement_eq, responseOf_responseText hannounces.first hannounces.lines,
    Option.bind_some, HttpResponse.part, HttpResponse.statusCode,
    statusLine_eq hannounces.first]
  have hfull : (pieces (byte ' ') (bytes "HTTP/1.1 200 OK"))[1]? = some (bytes "200") := rfl
  have hpartial : (pieces (byte ' ') (bytes "HTTP/1.1 206 Partial Content"))[1]? =
      some (bytes "206") := rfl
  cases range with
  | none => rw [fileLines, hfull, if_pos rfl]; rfl
  | some range =>
      have hnamed : ∀ line ∈ [bytes "Accept-Ranges: bytes",
          bytes "Content-Type: application/octet-stream", lengthLine length],
            nameOf line ≠ bytes "content-range" := by
        intro line hline
        simp only [List.mem_cons, List.not_mem_nil, or_false] at hline
        obtain rfl | rfl | rfl := hline
        · decide
        · decide
        · rw [nameOf_lengthLine]
          decide
      have hposition := @firstPosition_of_lines _ [bytes "Accept-Ranges: bytes",
        bytes "Content-Type: application/octet-stream", lengthLine length]
        [bytes "Connection: close"] range.1 range.2 size hannounces.first hannounces.lines hnamed
        body
      rw [fileLines, hpartial, if_neg (by decide), if_pos rfl]
      exact congrArg (Option.map fun first => (⟨first, body⟩ : Assembly.Part UInt8)) hposition

/-! ## What the server takes from a request -/

section Fetch

variable {fetch : Fetch}

/-- A target has no space. -/
theorem target_no_space (fetch : Fetch) : ∀ ch ∈ fetch.target, isSpace ch = false :=
  fun ch hch => by simpa using List.all_eq_true.mp fetch.word.2 ch hch

/-- The server finds the target in the first line. -/
theorem parseRequestLine_fetch (fetch : Fetch) :
    parseRequestLine (firstLine fetch.target) =
      ⟨bytes "GET", fetch.target, bytes "HTTP/1.1"⟩ := by
  have hfront : bytes "GET " = bytes "GET" ++ [byte ' '] := rfl
  have hback : bytes " HTTP/1.1" = byte ' ' :: bytes "HTTP/1.1" := rfl
  have hfixed : (bytes "GET").all (!isSpace ·) = true ∧
      (bytes "HTTP/1.1").all (!isSpace ·) = true := by decide
  have hspace : ∀ ch ∈ bytes "GET" ++ fetch.target ++ bytes "HTTP/1.1", isSpace ch = false := by
    have hall : (bytes "GET" ++ fetch.target ++ bytes "HTTP/1.1").all (!isSpace ·) = true := by
      rw [List.all_append, List.all_append, hfixed.1, hfixed.2, fetch.word.2]
      rfl
    exact fun ch hch => by simpa using List.all_eq_true.mp hall ch hch
  rw [firstLine, hfront, hback]
  simp only [List.append_assoc, List.cons_append, List.nil_append]
  exact parseRequestLine_words (by decide) fetch.word.1 (by decide) hspace

/-- What the server makes of the first segment: a request for the target, when the first line is
there, with the header lines that are. -/
theorem receiveRequest_fetch {first : Bytes} {rest : List Bytes}
    (hsegments : fetch.segments = first :: rest) :
    receiveRequest fetch.segments =
      if firstLine fetch.target ++ crlf <+: first.take receiveLimit then
        some ⟨⟨bytes "GET", fetch.target, bytes "HTTP/1.1"⟩,
          (linesWithin fetch.headerLines ((first.take receiveLimit).drop
            (firstLine fetch.target ++ crlf).length)).1.foldl addHeader fun _ => none⟩
      else none := by
  have hbegins : first.take receiveLimit <+:
      firstLine fetch.target ++ crlf ++ (withEnds fetch.headerLines ++ crlf) := by
    have harrives := fetch.arrives
    rw [hsegments, List.flatten_cons, getRequest] at harrives
    rw [firstLine, ← harrives]
    exact (List.take_prefix _ _).trans (List.prefix_append _ _)
  have hline : ¬ crlf <:+: firstLine fetch.target := by
    rintro ⟨front, rest, htext⟩
    refine return_not_mem_firstLine (target_no_space fetch) ?_
    have hmem : byte '\r' ∈ front ++ crlf ++ rest := by simp [crlf, bytes, byte]
    rwa [htext] at hmem
  have hne : first ≠ [] := fetch.nonempty first (by rw [hsegments]; exact List.mem_cons_self)
  rw [hsegments, receiveRequest, if_neg hne, parseRequest, cutAt_crlf_of_prefix hline hbegins]
  split
  · rw [Option.map_some, headersLoop_eq _ _ _ fetch.lines (drop_prefix_of_append hbegins) le_rfl,
      parseRequestLine_fetch]
  · rfl

/-! ## What is received -/

variable {entry : FileEntry} {contents : Bytes} {request : Request}

/-- A request that a connection has become is for the bytes of the file. -/
theorem forFile_of_line (h : fetch.IsFor entry contents)
    (hline : request.line = ⟨bytes "GET", fetch.target, bytes "HTTP/1.1"⟩) :
    ForFile fetch.server.index request entry := by
  have hmethod : request.line.method = bytes "GET" := by rw [hline]
  refine ⟨by rw [hmethod]; decide, by rw [hmethod]; decide, ?_, h.file⟩
  rw [entryFor, hline]
  exact h.found

/-- The bytes that were read are those of the contents. -/
theorem of_readFrom (h : fetch.IsFor entry contents) {first : ℕ} {body : Bytes}
    (hread : ReadFrom fetch.server.surroundings.toServedFiles fetch.server.cacheDirectory entry
      first body) :
    (⟨first, body⟩ : Assembly.Part UInt8).Of contents := by
  intro k c hk
  obtain ⟨attempt, payload, hpayload, hc⟩ := hread k c hk
  obtain ⟨more, rfl⟩ := h.holds attempt payload hpayload
  have hlt : first + k < payload.length := (List.getElem?_eq_some_iff.mp hc).1
  rw [List.getElem?_append_left hlt]
  exact hc

/-- What is sent for the request is a beginning of the headers and of bytes of the file, of the part
asked for when the payload is there. -/
theorem exists_answered (h : ForFile fetch.server.index request entry)
    (hrequest : receiveRequest fetch.segments = some request) :
    ∃ answered body, fetch.server.answerOnWire fetch.met fetch.segments = some answered ∧
      BeginningOf fetch.met (announcement entry.size.toNat (extentOf request entry).2
        (partOf request entry) ++ body) answered ∧
      ReadFrom fetch.server.surroundings.toServedFiles fetch.server.cacheDirectory entry
        (extentOf request entry).1 body ∧
      ∀ payload, PayloadPresent fetch.server.surroundings.toServedFiles fetch.server.cacheDirectory
        entry payload → entry.size.toNat < 2 ^ 63 → request.line.method ≠ bytes "HEAD" →
          body = slice payload (partOf request entry) := by
  obtain ⟨sent, body, hsent, htext, -, hread, -, hwhole⟩ :=
    exists_respond_file fetch.server.surroundings.toServedFiles fetch.server.cacheDirectory
      fetch.server.index request h fetch.server.enough
  obtain ⟨answered, hanswered, hbegins⟩ := respondOnWire_beginningOf _ fetch.met _ hsent
  refine ⟨answered, body, ?_, htext ▸ hbegins, hread, hwhole⟩
  rw [Upstream.answerOnWire, serveConnectionOnWire, hrequest]
  exact hanswered

/-- The first position that is asked for is the one that the headers say. -/
theorem fst_extentOf (request : Request) (entry : FileEntry) :
    (extentOf request entry).1 = ((partOf request entry).map Prod.fst).getD 0 := by
  rw [extentOf]
  cases partOf request entry <;> rfl

/-- Bytes that follow belong to the same part. -/
theorem part_append {cut : HttpResponse} {part : Assembly.Part UInt8} (h : cut.part = some part)
    (more : Bytes) :
    (⟨cut.header, cut.body ++ more⟩ : HttpResponse).part =
      some ⟨part.first, part.items ++ more⟩ := by
  have hcode : (⟨cut.header, cut.body ++ more⟩ : HttpResponse).statusCode = cut.statusCode := rfl
  have hfirst : (⟨cut.header, cut.body ++ more⟩ : HttpResponse).firstPosition =
      cut.firstPosition := rfl
  rw [HttpResponse.part] at h ⊢
  rw [hcode, hfirst]
  split at h
  · rename_i hfull
    rw [if_pos hfull, ← Option.some.inj h]
  rename_i hnot
  rw [if_neg hnot]
  split at h
  · rename_i hpartial
    obtain ⟨first, hposition, rfl⟩ := Option.map_eq_some_iff.mp h
    rw [if_pos hpartial, hposition]
    rfl
  · cases h

/-- **Bytes at their places.**  Whatever becomes of a connection, what the client takes for a part
of the file is one. -/
theorem part_of (h : fetch.IsFor entry contents) {part : Assembly.Part UInt8}
    (hpart : fetch.part = some part) : part.Of contents := by
  obtain ⟨answered, hanswered, hpart⟩ := Option.bind_eq_some_iff.mp hpart
  obtain ⟨cut, hcut, hpart⟩ := Option.bind_eq_some_iff.mp hpart
  cases hrequest : receiveRequest fetch.segments with
  | none =>
      have hnothing : responseOf (([] : Bytes).take fetch.arrived) = none := by
        rw [List.take_nil]
        decide
      rw [Upstream.answerOnWire, serveConnectionOnWire, hrequest] at hanswered
      rw [← Option.some.inj hanswered, hnothing] at hcut
      cases hcut
  | some request =>
      obtain ⟨first, rest, hsegments⟩ : ∃ first rest, fetch.segments = first :: rest := by
        cases hnil : fetch.segments with
        | nil => rw [hnil] at hrequest; cases hrequest
        | cons first rest => exact ⟨first, rest, rfl⟩
      have hforFile : ForFile fetch.server.index request entry := by
        refine forFile_of_line h ?_
        rw [receiveRequest_fetch hsegments] at hrequest
        split at hrequest
        · rw [← Option.some.inj hrequest]
        · cases hrequest
      obtain ⟨answered', body, hanswered', hbegins, hread, -⟩ := exists_answered hforFile hrequest
      obtain rfl := Option.some.inj (hanswered.symm.trans hanswered')
      -- with the bytes that did not arrive, it is a part whose bytes were all read
      obtain ⟨more, hmore⟩ := (List.take_prefix fetch.arrived answered.out).trans hbegins.front
      have hwhole := part_of_announcement entry.size.toNat (extentOf request entry).2
        (partOf request entry) body
      rw [← hmore, responseOf_append hcut, Option.bind_some, part_append hpart,
        ← fst_extentOf] at hwhole
      have hall := of_readFrom h hread
      rw [← Option.some.inj hwhole] at hall
      intro k c hk
      refine hall k c ?_
      rw [List.getElem?_append_left (List.getElem?_eq_some_iff.mp hk).1]
      exact hk

/-- The headers are those of all lines, when the request is received at once. -/
theorem headers_of_receivedAtOnce {line text name : Bytes} {headerLines : List Bytes}
    (h : ReceivedAtOnce line headerLines text) (value : Bytes) :
    (linesWithin headerLines (text.drop (line ++ crlf).length)).1.foldl addHeader
        (fun _ => none) name = some value ↔ LastFor headerLines name value := by
  have hsame := (addHeaders_append_eq_iff _ _).mpr h.headers
  rw [linesWithin_append] at hsame
  rw [hsame, addHeaders_eq_some_iff]

/-- What is asked for is in the part of the file that the server finds asked for. -/
theorem asked_in_part (hreads : ∀ value, request.headers (bytes "range") = some value ↔
      LastFor fetch.headerLines (bytes "range") value) {position : ℕ}
    (hasks : fetch.AsksFor entry position) :
    match partOf request entry with
    | none => position < entry.size.toNat
    | some (first, last) => first ≤ position ∧ position ≤ last := by
  rcases hasks with ⟨hlt, hnone⟩ | ⟨value, start, stop, hlast, hdenotes, hle, hge⟩
  · have hheader : request.headers (bytes "range") = none :=
      Option.eq_none_iff_forall_not_mem.mpr fun value hvalue =>
        hnone value ((hreads value).mp hvalue)
    rw [partOf, rangeOf, hheader]
    exact hlt
  · have hbounds : start < entry.size.toNat ∧ stop < entry.size.toNat := by
      obtain ⟨_, _, -, -, -, hinside, ⟨-, rfl⟩ | ⟨_, -, -, -, rfl⟩⟩ := denotesRange_iff.mp hdenotes
      · omega
      · omega
    have hsize := entry.size.toNat_lt
    have hstart : (UInt64.ofNat start).toNat = start :=
      UInt64.toNat_ofNat_of_lt' (hbounds.1.trans hsize)
    have hstop : (UInt64.ofNat stop).toNat = stop :=
      UInt64.toNat_ofNat_of_lt' (hbounds.2.trans hsize)
    rw [← hstart, ← hstop] at hdenotes
    rw [partOf, rangeOf, (hreads value).mpr hlast, Option.bind_some,
      parseRangeHeader_of_denotes hdenotes, Option.map_some]
    simp only [hstart, hstop]
    exact ⟨hle, hge⟩

/-- **What is asked for arrives.**  A connection that is not disturbed covers the positions that
it asks for. -/
theorem exists_part_of_undisturbed (h : fetch.IsFor entry contents)
    (hsize : entry.size.toNat < 2 ^ 63) (hcalm : fetch.Undisturbed entry contents) {position : ℕ}
    (hasks : fetch.AsksFor entry position) :
    ∃ part, fetch.part = some part ∧ part.Covers position := by
  obtain ⟨first, rest, hsegments, hreceived⟩ := hcalm.received
  set request : Request := ⟨⟨bytes "GET", fetch.target, bytes "HTTP/1.1"⟩,
    (linesWithin fetch.headerLines ((first.take receiveLimit).drop
      (firstLine fetch.target ++ crlf).length)).1.foldl addHeader fun _ => none⟩ with hrequest
  have hline : firstLine fetch.target ++ crlf <+: first.take receiveLimit := hreceived.requestLine
  have hmade : receiveRequest fetch.segments = some request := by
    rw [receiveRequest_fetch hsegments, if_pos hline]
  have hinside := @asked_in_part fetch entry request
    (fun value => headers_of_receivedAtOnce hreceived value) position hasks
  have hforFile : ForFile fetch.server.index request entry := forFile_of_line h rfl
  have hget : bytes "GET" ≠ bytes "HEAD" := by decide
  obtain ⟨answered, body, hanswered, hbegins, -, hwhole⟩ := exists_answered hforFile hmade
  have hbody : body = slice contents (partOf request entry) :=
    hwhole contents hcalm.payload hsize hget
  obtain ⟨answered', hanswered', hfinished, harrived⟩ := hcalm.whole
  obtain rfl := Option.some.inj (hanswered.symm.trans hanswered')
  have hpart : fetch.part = some ⟨((partOf request entry).map Prod.fst).getD 0,
      slice contents (partOf request entry)⟩ := by
    rw [Fetch.part, hanswered, Option.bind_some, List.take_of_length_le harrived,
      hbegins.all hfinished, part_of_announcement, hbody]
  refine ⟨_, hpart, ?_⟩
  have hslice := length_slice_partOf fetch.server.surroundings.toServedFiles
    fetch.server.cacheDirectory request hcalm.payload
  cases hpartOf : partOf request entry with
  | none =>
      rw [hpartOf] at hinside
      refine ⟨Nat.zero_le _, ?_⟩
      simpa [slice, hcalm.payload.length] using hinside
  | some range =>
      obtain ⟨start, stop⟩ := range
      rw [extentOf, hpartOf] at hslice
      rw [hpartOf] at hinside
      refine ⟨hinside.1, ?_⟩
      simp only [Option.map_some, Option.getD_some, hslice]
      have hlast := hinside.2
      omega

end Fetch

/-! ## Several connections -/

/-- **Parts fit together.**  What a client knows of a file after any connections, to whatever
servers, at whatever byte they ended and in whatever order, is as it is in the contents; and it
knows all that was asked for on a connection to a server with the whole payload that was not
disturbed.
SRCLINE: WebDavServer.cpp:152-172, WebDavServer.cpp:263-304, WebDavServer.cpp:361-412 -/
theorem fetched_fits {fetches : List Fetch} {entry : FileEntry} {contents : Bytes}
    (h : ∀ fetch ∈ fetches, fetch.IsFor entry contents) :
    (∀ position c, fetched fetches position = some c → contents[position]? = some c) ∧
    (entry.size.toNat < 2 ^ 63 → ∀ position,
      (∃ fetch ∈ fetches, fetch.Undisturbed entry contents ∧ fetch.AsksFor entry position) →
        fetched fetches position = contents[position]?) := by
  have hof : ∀ part ∈ fetches.filterMap Fetch.part, part.Of contents := by
    intro part hmem
    obtain ⟨fetch, hfetch, hpart⟩ := List.mem_filterMap.mp hmem
    exact part_of (h fetch hfetch) hpart
  refine ⟨fun position c hknown => Assembly.assemble_of hof hknown, fun hsize position hasked => ?_⟩
  obtain ⟨fetch, hfetch, hcalm, hasks⟩ := hasked
  obtain ⟨part, hpart, hcovers⟩ := exists_part_of_undisturbed (h fetch hfetch) hsize hcalm hasks
  have hmem : part ∈ fetches.filterMap Fetch.part :=
    List.mem_filterMap.mpr ⟨fetch, hfetch, hpart⟩
  exact Assembly.assemble_of_covers hof ⟨part, hmem, hcovers⟩

/-- A connection for the file of three bytes, with these results of `send` and these header lines;
all that goes out arrives. -/
def threeByteFetch (results : List ℤ) (headerLines : List Bytes)
    (h : ∀ line ∈ headerLines, line ≠ [] ∧ ¬ crlf <:+: line) : Fetch where
  server := threeByteServer
  met := ⟨results, fun _ => true, fun _ => true⟩
  arrived := 200
  target := bytes "/a/x"
  headerLines
  segments := [getRequest (bytes "/a/x") (withEnds headerLines ++ crlf)]
  word := by decide
  lines := h
  nonempty := by simp [getRequest, bytes]
  arrives := by simp

/-- This connection is for the file. -/
theorem isFor_threeByteFetch {results : List ℤ} {headerLines : List Bytes}
    (h : ∀ line ∈ headerLines, line ≠ [] ∧ ¬ crlf <:+: line) :
    (threeByteFetch results headerLines h).IsFor threeBytes [7, 8, 9] where
  found := by
    have hfound : lookup (buildIndex [⟨bytes "a/x", 3, 0⟩]) (urlDecode (bytes "/a/x")) =
        some threeBytes := by decide +kernel
    exact hfound
  file := rfl
  holds attempt payload hpayload := by
    have hcalm : calm.disk attempt (payloadPathFor (bytes "/c") threeBytes) =
        some [7, 8, 9] := by simp [calm]
    rw [← Option.some.inj (hcalm.symm.trans hpayload)]

/-- This connection is not disturbed when its request fits and its answer is sent. -/
theorem undisturbed_threeByteFetch {results : List ℤ} {headerLines : List Bytes}
    (h : ∀ line ∈ headerLines, line ≠ [] ∧ ¬ crlf <:+: line)
    (hfits : (getRequest (bytes "/a/x") (withEnds headerLines ++ crlf)).length ≤ receiveLimit)
    {size : ℕ} (hsize : size ≤ 200)
    (hwhole : (threeByteServer.answerOnWire ⟨results, fun _ => true, fun _ => true⟩
      [getRequest (bytes "/a/x") (withEnds headerLines ++ crlf)]).map
        (fun answered => (answered.ending, answered.out.length)) = some (.finished, size)) :
    (threeByteFetch results headerLines h).Undisturbed threeBytes [7, 8, 9] where
  received := by
    have hdrop : (getRequest (bytes "/a/x") (withEnds headerLines ++ crlf)).drop
        (bytes "GET " ++ bytes "/a/x" ++ bytes " HTTP/1.1" ++ crlf).length =
          withEnds headerLines ++ crlf := List.drop_left
    refine ⟨_, [], rfl, ?_⟩
    rw [List.take_of_length_le hfits]
    refine ⟨List.prefix_append _ _, fun name value hmissing => ?_⟩
    -- no line is missing
    obtain ⟨before, last, after, hlines, -⟩ := hmissing
    have hnone := (congrArg (fun text => (linesWithin headerLines text).2) hdrop).trans
      (by rw [linesWithin_withEnds])
    exact absurd (hlines.symm.trans hnone) (by simp)
  payload := ⟨fun _ => by simp [calm, threeByteFetch, threeByteServer], fun _ => rfl, rfl⟩
  whole := by
    obtain ⟨answered, hanswered, hends⟩ := Option.map_eq_some_iff.mp hwhole
    obtain ⟨hfinished, rfl⟩ := Prod.mk.inj hends
    exact ⟨answered, hanswered, hfinished, hsize⟩

/-- A connection that broke inside the file, one for the first byte, and one from the second byte
on. -/
def resumedFetches : List Fetch :=
  [threeByteFetch [100, 19, 1] [] (by simp),
    threeByteFetch [160, 1] [bytes "Range: bytes=0-0"] (by decide),
    threeByteFetch [60, 100, 2] [bytes "Range: bytes=1-"] (by decide)]

/-- A file of three bytes, after a connection that broke off. -/
theorem fetched_fits_resumed :
    (List.range 3).map (fetched resumedFetches) = [some 7, some 8, some 9] := by
  have hfor : ∀ fetch ∈ resumedFetches, fetch.IsFor threeBytes [7, 8, 9] := by
    intro fetch hfetch
    simp only [resumedFetches, List.mem_cons, List.not_mem_nil, or_false] at hfetch
    obtain rfl | rfl | rfl := hfetch
    · exact isFor_threeByteFetch (by simp)
    · exact isFor_threeByteFetch (by decide)
    · exact isFor_threeByteFetch (by decide)
  have hfirst : (threeByteFetch [160, 1] [bytes "Range: bytes=0-0"] (by decide)).Undisturbed
      threeBytes [7, 8, 9] :=
    undisturbed_threeByteFetch _ (by decide) (by decide : 161 ≤ 200) (by decide +kernel)
  have hrest : (threeByteFetch [60, 100, 2] [bytes "Range: bytes=1-"] (by decide)).Undisturbed
      threeBytes [7, 8, 9] :=
    undisturbed_threeByteFetch _ (by decide) (by decide : 162 ≤ 200) (by decide +kernel)
  have hknown : ∀ position ∈ List.range 3, fetched resumedFetches position =
      [7, 8, 9][position]? := by
    intro position hmem
    have hlt : position < 3 := List.mem_range.mp hmem
    refine (fetched_fits hfor).2 (by decide) position ?_
    rcases Nat.eq_zero_or_pos position with rfl | hpos
    · refine ⟨_, by simp [resumedFetches], hfirst,
        Or.inr ⟨bytes "bytes=0-0", 0, 0, ?_, ?_, le_rfl, le_rfl⟩⟩
      · exact ⟨[], _, [], rfl, by decide, by simp⟩
      · exact denotesRange_iff.mpr ⟨bytes "0", bytes "0", by decide,
          ⟨by decide, by decide, by decide⟩, by decide, by decide, Or.inr ⟨bytes "0",
            ⟨[], [], by decide, rfl, rfl⟩, ⟨by decide, by decide, by decide⟩,
            by decide, by decide⟩⟩
    · refine ⟨_, by simp [resumedFetches], hrest,
        Or.inr ⟨bytes "bytes=1-", 1, 2, ?_, ?_, hpos, by omega⟩⟩
      · exact ⟨[], _, [], rfl, by decide, by simp⟩
      · exact denotesRange_iff.mpr ⟨bytes "1", [], by decide, ⟨by decide, by decide, by decide⟩,
          by decide, by decide, Or.inl ⟨rfl, by decide⟩⟩
  exact (List.map_congr_left hknown).trans rfl

end Vtfs.Analysis
