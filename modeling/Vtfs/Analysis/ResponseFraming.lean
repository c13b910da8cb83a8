import Vtfs.Analysis.SocketWrites
import Vtfs.Library.LineBlocks
import Vtfs.Analysis.FileServing
import Vtfs.Analysis.PropfindBody

/-!
# A client finds the end of every answer

Each answer is written as lines, an empty line and a body (`responseText`), and no line but the
last of them has a return; so the cut, the status code and the number announced are read off the
lines (`responseOf_responseText`, `contentLength_of_lines`).  The loop that sends a file asks for
no more than is left of the part, whatever the files are at each attempt (`sendLoop_reads`).
-/

set_option autoImplicit false

namespace Vtfs.Analysis

open Vtfs.Library
open Vtfs.Library.Decimal (numeral)
open Vtfs.Library.LineBlocks (led)
open Vtfs.Model
open Vtfs.Interface

/-! ## Lines of a header -/

/-- The lines of a header, without the last end. -/
def headerText (first : Bytes) (rest : List Bytes) : Bytes := first ++ led 13 10 rest

/-- An answer with a header and a body. -/
def responseText (first : Bytes) (rest : List Bytes) (body : Bytes) : Bytes :=
  headerText first rest ++ endOfHeader ++ body

/-- A line of a header: not empty, and without a return. -/
def IsLine (line : Bytes) : Prop := line ≠ [] ∧ (13 : UInt8) ∉ line

instance : DecidablePred IsLine := fun line => by unfold IsLine; infer_instance

/-- A text of lines and a body is cut behind its lines. -/
theorem responseOf_responseText {first : Bytes} {rest : List Bytes} (hfirst : IsLine first)
    (hrest : ∀ line ∈ rest, IsLine line) (body : Bytes) :
    responseOf (responseText first rest body) = some ⟨headerText first rest, body⟩ := by
  have hcut := LineBlocks.cutAt_blank (a := 13) (b := 10) (by decide) hfirst.2 hrest body
  have hend : endOfHeader = [13, 10, 13, 10] := by decide
  rw [responseOf, responseText, headerText, hend, hcut]
  rfl

/-- A text without a line end is one line. -/
theorem lines_of_not_mem {line : Bytes} (h : (13 : UInt8) ∉ line) : lines line = [line] := by
  induction line with
  | nil => rfl
  | cons c cs ih =>
      obtain ⟨hc, hcs⟩ := not_or.mp (mt List.mem_cons.mpr h)
      cases cs with
      | nil => rfl
      | cons c' cs =>
          have hnot : ¬ (c = byte '\r' ∧ c' = byte '\n') := fun hend => hc hend.1.symm
          rw [lines, if_neg hnot, ih hcs]

/-- Up to a line end there is the first line. -/
theorem lines_append_end {line : Bytes} (h : (13 : UInt8) ∉ line) (rest : Bytes) :
    lines (line ++ 13 :: 10 :: rest) = line :: lines rest := by
  induction line with
  | nil => rfl
  | cons c cs ih =>
      obtain ⟨hc, hcs⟩ := not_or.mp (mt List.mem_cons.mpr h)
      have hread := ih hcs
      have hne : c ≠ byte '\r' := fun heq => hc heq.symm
      cases cs with
      | nil =>
          rw [List.nil_append] at hread
          simp only [List.cons_append, List.nil_append]
          rw [lines, if_neg (fun hend => hne hend.1), hread]
      | cons c' cs =>
          simp only [List.cons_append] at hread ⊢
          rw [lines, if_neg (fun hend => hne hend.1), hread]

/-- The lines of a header are read back. -/
theorem lines_headerText {first : Bytes} {rest : List Bytes} (hfirst : IsLine first)
    (hrest : ∀ line ∈ rest, IsLine line) : lines (headerText first rest) = first :: rest := by
  induction rest generalizing first with
  | nil =>
      have hnil : headerText first [] = first := by simp [headerText, led]
      rw [hnil, lines_of_not_mem hfirst.2]
  | cons line rest ih =>
      obtain ⟨hline, hlines⟩ := List.forall_mem_cons.mp hrest
      have htext : headerText first (line :: rest) = first ++ 13 :: 10 :: headerText line rest := by
        rw [headerText, LineBlocks.led_cons, headerText]
      rw [htext, lines_append_end hfirst.2, ih hline hlines]

/-- The status line is the first of the lines. -/
theorem statusLine_eq {first : Bytes} {rest : List Bytes} (hfirst : IsLine first) (body : Bytes) :
    (⟨headerText first rest, body⟩ : HttpResponse).statusLine = first := by
  have hend : crlf = [13, 10] := rfl
  rw [HttpResponse.statusLine, Interface.firstLine, hend]
  cases rest with
  | nil =>
      have hnil : headerText first [] = first ++ [] := by simp [headerText, led]
      have hnone : cutAt [13, 10] (headerText first []) = none := by
        rw [hnil, LineBlocks.cutAt_append_of_not_mem hfirst.2]
        simp [cutAt]
      rw [hnone, hnil, List.append_nil]
  | cons line rest =>
      have htext : headerText first (line :: rest) =
          first ++ [13, 10] ++ (line ++ led 13 10 rest) := by
        rw [headerText, LineBlocks.led_cons]
        simp
      rw [htext, cutAt_of_not_mem hfirst.2]

/-! ## The number of bytes announced -/

/-- The line that announces a number of bytes. -/
def lengthLine (n : ℕ) : Bytes := bytes "Content-Length: " ++ numeral n

/-- A line may be continued. -/
theorem isLine_append {front rest : Bytes} (hfront : IsLine front) (hrest : (13 : UInt8) ∉ rest) :
    IsLine (front ++ rest) := by
  refine ⟨by simp [hfront.1], fun hmem => ?_⟩
  rcases List.mem_append.mp hmem with hmem | hmem
  · exact hfront.2 hmem
  · exact hrest hmem

/-- A number has no line end. -/
theorem return_not_mem_numeral (n : ℕ) : (13 : UInt8) ∉ numeral n :=
  Decimal.not_mem_of_all_isDigit (Decimal.numeral_all_isDigit n) (by decide)

/-- The line with the length is one. -/
theorem isLine_lengthLine (n : ℕ) : IsLine (lengthLine n) :=
  isLine_append (by decide) (return_not_mem_numeral n)

/-- The name of a header line, in lower case. -/
def nameOf (line : Bytes) : Bytes := (upTo (byte ':') line).map HttpResponse.lowerCase

/-- It is found under the name of the header. -/
theorem nameOf_lengthLine (n : ℕ) : nameOf (lengthLine n) = bytes "content-length" := by
  have hsplit : lengthLine n = bytes "Content-Length" ++ byte ':' :: (byte ' ' :: numeral n) := rfl
  rw [nameOf, hsplit, upTo_append (by decide)]
  decide

/-- A number has no blanks around it. -/
theorem trimmed_numeral (n : ℕ) : HttpResponse.trimmed (byte ' ' :: numeral n) = numeral n := by
  have hdigit : ∀ c ∈ numeral n, HttpResponse.isBlank c = false := by
    intro c hc
    have hnot : ∀ blank ∈ [byte ' ', byte '\t'], blank ∉ numeral n := fun blank hblank =>
      Decimal.not_mem_of_all_isDigit (Decimal.numeral_all_isDigit n) (by
        revert blank
        decide +kernel)
    have hspace : c ≠ byte ' ' := fun heq => hnot _ (by simp) (heq ▸ hc)
    have htab : c ≠ byte '\t' := fun heq => hnot _ (by simp) (heq ▸ hc)
    simp [HttpResponse.isBlank, hspace, htab]
  have hfront : (byte ' ' :: numeral n).dropWhile HttpResponse.isBlank = numeral n := by
    rw [List.dropWhile_cons_of_pos (by decide)]
    exact List.dropWhile_eq_self_iff.mpr fun hpos => by
      simp [hdigit _ (List.getElem_mem hpos)]
  rw [HttpResponse.trimmed, hfront]
  exact List.rdropWhile_eq_self_iff.mpr fun hne => by
    simp [hdigit _ (List.getLast_mem hne)]

/-- The number announced is that of the first line with the name. -/
theorem contentLength_of_lines {first : Bytes} {before after : List Bytes} {n : ℕ}
    (hfirst : IsLine first) (hlines : ∀ line ∈ before ++ lengthLine n :: after, IsLine line)
    (hbefore : ∀ line ∈ before, nameOf line ≠ bytes "content-length") (body : Bytes) :
    (⟨headerText first (before ++ lengthLine n :: after), body⟩ : HttpResponse).contentLength =
      some n := by
  have hfind : (before ++ lengthLine n :: after).find?
      (fun line => (upTo (byte ':') line).map HttpResponse.lowerCase = bytes "content-length") =
      some (lengthLine n) := by
    rw [List.find?_append, List.find?_eq_none.mpr fun line hline => by
      simpa [nameOf] using hbefore line hline, Option.none_or]
    exact List.find?_cons_of_pos (by simpa [nameOf] using nameOf_lengthLine n)
  have hvalue : (lengthLine n).drop ((bytes "content-length").length + 1) =
      byte ' ' :: numeral n := rfl
  rw [HttpResponse.contentLength, HttpResponse.field, lines_headerText hfirst hlines,
    List.tail_cons, hfind, Option.map_some, hvalue, trimmed_numeral, Option.bind_some,
    if_pos ⟨Decimal.numeral_ne_nil n, Decimal.numeral_all_isDigit n⟩, Decimal.value_numeral]

/-- The lines announce a number of bytes, and no line before that one does. -/
structure Announces (first : Bytes) (before : List Bytes) (n : ℕ) (after : List Bytes) : Prop where
  first : IsLine first
  lines : ∀ line ∈ before ++ lengthLine n :: after, IsLine line
  unnamed : ∀ line ∈ before, nameOf line ≠ bytes "content-length"

/-- Lines announce a length when no line before has that name. -/
theorem announces_of {first : Bytes} {before after : List Bytes}
    (h : IsLine first ∧ ∀ line ∈ before ++ after, IsLine line)
    (hunnamed : ∀ line ∈ before, nameOf line ≠ bytes "content-length") (n : ℕ) :
    Announces first before n after := by
  refine ⟨h.1, fun line hline => ?_, hunnamed⟩
  simp only [List.mem_append, List.mem_cons] at hline
  rcases hline with hbefore | rfl | hafter
  · exact h.2 line (List.mem_append_left after hbefore)
  · exact isLine_lengthLine n
  · exact h.2 line (List.mem_append_right before hafter)

/-- What a client reads from lines that announce a number of bytes. -/
theorem exists_responseOf {first : Bytes} {before after : List Bytes} {n : ℕ}
    (h : Announces first before n after) (body : Bytes) :
    ∃ response,
      responseOf (responseText first (before ++ lengthLine n :: after) body) = some response ∧
      response.statusCode = (pieces (byte ' ') first)[1]? ∧
      response.contentLength = some n ∧ response.body = body := by
  refine ⟨_, responseOf_responseText h.first h.lines body, ?_, ?_, rfl⟩
  · rw [HttpResponse.statusCode, statusLine_eq h.first]
  · exact contentLength_of_lines h.first h.lines h.unnamed body

/-! ## The answers in one piece -/

/-- The lines of a simple answer. -/
theorem simpleResponse_eq (status body : Bytes) :
    simpleResponse status body = responseText (bytes "HTTP/1.1 " ++ status)
      ([] ++ lengthLine body.length :: [bytes "Content-Type: text/plain",
        bytes "Connection: close"]) body := by
  have hlength : bytes "\r\nContent-Length: " = [13, 10] ++ bytes "Content-Length: " := rfl
  have htype : bytes "\r\nContent-Type: text/plain\r\nConnection: close\r\n\r\n" =
      [13, 10] ++ bytes "Content-Type: text/plain" ++ [13, 10] ++ bytes "Connection: close" ++
        endOfHeader := rfl
  rw [simpleResponse, hlength, htype, responseText, headerText, lengthLine]
  simp only [led, List.flatMap_cons, List.flatMap_nil, List.append_assoc, List.cons_append,
    List.nil_append, List.append_nil]

/-- The lines of the answer to `OPTIONS`. -/
theorem optionsResponse_eq :
    optionsResponse = responseText (bytes "HTTP/1.1 200 OK")
      ([bytes "Allow: OPTIONS, PROPFIND, GET, HEAD", bytes "DAV: 1"] ++
        lengthLine ([] : Bytes).length :: [bytes "Connection: close"]) [] := by
  decide

/-- The body that the loop over the entries writes. -/
theorem multistatus_eq (entries : List FileEntry) :
    entries.foldl appendPropResponse
        (bytes "<?xml version=\"1.0\" encoding=\"utf-8\"?><D:multistatus xmlns:D=\"DAV:\">") ++
      bytes "</D:multistatus>" = multistatus entries := by
  have hfold : ∀ xml, entries.foldl appendPropResponse xml = xml ++ listing entries := by
    rw [listing_eq]
    induction entries with
    | nil => exact fun xml => (List.append_nil xml).symm
    | cons entry rest ih =>
        intro xml
        rw [List.foldl_cons, ih, appendPropResponse_eq, List.flatMap_cons, Markup.written_append,
          List.append_assoc]
  rw [multistatus, hfold]

/-- The lines of the answer to `PROPFIND`. -/
theorem propfindResponse_eq (index : Index) (entry : FileEntry) (request : Request) :
    propfindResponse index entry request.headers =
      responseText (bytes "HTTP/1.1 207 Multi-Status")
        ([bytes "Content-Type: application/xml; charset=\"utf-8\""] ++
          lengthLine (multistatus (listedFor index request entry)).length ::
            [bytes "Connection: close"])
        (multistatus (listedFor index request entry)) := by
  have hfront : bytes
      "HTTP/1.1 207 Multi-Status\r\nContent-Type: application/xml; charset=\"utf-8\"\r\n" =
      bytes "HTTP/1.1 207 Multi-Status" ++ [13, 10] ++
        bytes "Content-Type: application/xml; charset=\"utf-8\"" ++ [13, 10] :=
    rfl
  have hback : bytes "\r\nConnection: close\r\n\r\n" =
      [13, 10] ++ bytes "Connection: close" ++ endOfHeader :=
    rfl
  have hbody : propfindResponse index entry request.headers =
      bytes
        "HTTP/1.1 207 Multi-Status\r\nContent-Type: application/xml; charset=\"utf-8\"\r\n" ++
        bytes "Content-Length: " ++ numeral (multistatus (listedFor index request entry)).length ++
        bytes "\r\nConnection: close\r\n\r\n" ++
        multistatus (listedFor index request entry) := by
    rw [← multistatus_eq]
    rfl
  rw [hbody, hfront, hback, responseText, headerText, lengthLine]
  simp only [led, List.flatMap_cons, List.flatMap_nil, List.append_assoc, List.cons_append,
    List.nil_append, List.append_nil]

/-- They announce the length. -/
theorem announces_multistatus (n : ℕ) : Announces (bytes "HTTP/1.1 207 Multi-Status")
    [bytes "Content-Type: application/xml; charset=\"utf-8\""] n [bytes "Connection: close"] := by
  have hlines : IsLine (bytes "HTTP/1.1 207 Multi-Status") ∧ ∀ line ∈
      [bytes "Content-Type: application/xml; charset=\"utf-8\""] ++
        [bytes "Connection: close"], IsLine line := by decide
  exact announces_of hlines (by decide) n

/-- The lines of the answer with a file before the number announced, and those after it. -/
def fileLines (size : ℕ) : Option (ℕ × ℕ) → Bytes × List Bytes × List Bytes
  | none => (bytes "HTTP/1.1 200 OK",
      [bytes "Accept-Ranges: bytes", bytes "Content-Type: application/octet-stream"],
      [bytes "Connection: close"])
  | some (first, last) => (bytes "HTTP/1.1 206 Partial Content",
      [bytes "Accept-Ranges: bytes", bytes "Content-Type: application/octet-stream"],
      [bytes "Content-Range: bytes " ++ numeral first ++ bytes "-" ++ numeral last ++ bytes "/" ++
        numeral size, bytes "Connection: close"])

/-- The lines before a file. -/
theorem announcement_eq (size length : ℕ) (part : Option (ℕ × ℕ)) (body : Bytes) :
    announcement size length part ++ body =
      responseText (fileLines size part).1
        ((fileLines size part).2.1 ++ lengthLine length :: (fileLines size part).2.2) body := by
  have htype : bytes
      "Accept-Ranges: bytes\r\nContent-Type: application/octet-stream\r\nContent-Length: " =
      bytes "Accept-Ranges: bytes" ++ [13, 10] ++
        bytes "Content-Type: application/octet-stream" ++ [13, 10] ++ bytes "Content-Length: " :=
    rfl
  have hclose : bytes "Connection: close\r\n\r\n" =
      bytes "Connection: close" ++ endOfHeader :=
    rfl
  have hend : crlf = [13, 10] := rfl
  cases part with
  | none =>
      have hstatus : bytes "HTTP/1.1 200 OK\r\n" = bytes "HTTP/1.1 200 OK" ++ [13, 10] :=
        rfl
      rw [announcement, hstatus, htype, hclose, hend, responseText, headerText, fileLines,
        lengthLine]
      simp only [led, List.flatMap_cons, List.flatMap_nil, List.append_assoc, List.cons_append,
        List.nil_append, List.append_nil]
  | some range =>
      have hstatus : bytes "HTTP/1.1 206 Partial Content\r\n" =
          bytes "HTTP/1.1 206 Partial Content" ++ [13, 10] :=
        rfl
      rw [announcement, hstatus, htype, hclose, hend, responseText, headerText, fileLines,
        lengthLine]
      simp only [led, List.flatMap_cons, List.flatMap_nil, List.append_assoc, List.cons_append,
        List.nil_append, List.append_nil]

/-- They announce the length. -/
theorem announces_fileLines (size length : ℕ) (part : Option (ℕ × ℕ)) :
    Announces (fileLines size part).1 (fileLines size part).2.1 length
      (fileLines size part).2.2 := by
  have hunnamed : ∀ line ∈ [bytes "Accept-Ranges: bytes",
      bytes "Content-Type: application/octet-stream"], nameOf line ≠ bytes "content-length" := by
    decide
  cases part with
  | none =>
      have hlines : IsLine (bytes "HTTP/1.1 200 OK") ∧ ∀ line ∈ [bytes "Accept-Ranges: bytes",
          bytes "Content-Type: application/octet-stream"] ++ [bytes "Connection: close"],
            IsLine line := by decide
      exact announces_of hlines hunnamed length
  | some range =>
      have hfixed : IsLine (bytes "HTTP/1.1 206 Partial Content") ∧
          IsLine (bytes "Accept-Ranges: bytes") ∧
          IsLine (bytes "Content-Type: application/octet-stream") ∧
          IsLine (bytes "Connection: close") := by decide
      obtain ⟨hstatus, hranges, htype, hclose⟩ := hfixed
      have hrange : IsLine (bytes "Content-Range: bytes " ++ numeral range.1 ++ bytes "-" ++
          numeral range.2 ++ bytes "/" ++ numeral size) :=
        isLine_append (isLine_append (isLine_append (isLine_append (isLine_append (by decide)
          (return_not_mem_numeral _)) (by decide)) (return_not_mem_numeral _)) (by decide))
          (return_not_mem_numeral _)
      refine announces_of ⟨hstatus, fun line hline => ?_⟩ hunnamed length
      simp only [fileLines, List.mem_append, List.mem_cons, List.not_mem_nil, or_false] at hline
      rcases hline with (rfl | rfl) | rfl | rfl
      · exact hranges
      · exact htype
      · exact hrange
      · exact hclose

/-! ## The bytes of a file -/

section Reads

variable (s : ServedFiles) (cacheDirectory : Bytes) (entry : FileEntry)

/-- Nothing is read from anywhere. -/
theorem readFrom_nil (first : ℕ) : ReadFrom s cacheDirectory entry first [] := by
  intro k c hk
  simp at hk

/-- What was read behind what was read is read. -/
theorem readFrom_append {first : ℕ} {front rest : Bytes}
    (hfront : ReadFrom s cacheDirectory entry first front)
    (hrest : ReadFrom s cacheDirectory entry (first + front.length) rest) :
    ReadFrom s cacheDirectory entry first (front ++ rest) := by
  intro k c hk
  by_cases hlt : k < front.length
  · rw [List.getElem?_append_left hlt] at hk
    exact hfront k c hk
  · rw [List.getElem?_append_right (by omega)] at hk
    obtain ⟨attempt, payload, hdisk, hbyte⟩ := hrest _ c hk
    exact ⟨attempt, payload, hdisk, by rwa [Nat.add_assoc, Nat.add_sub_cancel' (by omega)] at hbyte⟩

/-- One read gives no more than is wanted, from the payload as it is then. -/
theorem tryReadFileRange_reads (position : UInt64) (wanted : UInt32) (attempt : ℕ) :
    (tryReadFileRange (s.disk attempt) (s.opens attempt) cacheDirectory entry position
        wanted).data.length ≤ wanted.toNat ∧
      ReadFrom s cacheDirectory entry position.toNat (tryReadFileRange (s.disk attempt)
        (s.opens attempt) cacheDirectory entry position wanted).data := by
  have hnone := readFrom_nil s cacheDirectory entry position.toNat
  rw [tryReadFileRange]
  split
  · exact ⟨Nat.zero_le _, hnone⟩
  · cases hpayload : s.disk attempt (payloadPathFor cacheDirectory entry) with
    | none => exact ⟨Nat.zero_le _, hnone⟩
    | some payload =>
        simp only
        split
        · exact ⟨Nat.zero_le _, hnone⟩
        · split
          · exact ⟨Nat.zero_le _, hnone⟩
          · have havailable : (min wanted.toUInt64 (entry.size - position)).toUInt32.toNat ≤
                wanted.toNat := by
              rw [UInt64.toNat_toUInt32, toNat_min_uInt64, UInt32.toNat_toUInt64]
              exact (Nat.mod_le _ _).trans (Nat.min_le_left _ _)
            refine ⟨(List.length_take_le _ _).trans havailable, fun k c hk => ?_⟩
            refine ⟨attempt, payload, hpayload, ?_⟩
            rw [List.getElem?_take] at hk
            split at hk
            · rwa [List.getElem?_drop] at hk
            · cases hk

/-- So does the last of the attempts. -/
theorem attemptLoop_reads (position : UInt64) (wanted : UInt32) (left made : ℕ) (last : FileRead)
    (hlength : last.data.length ≤ wanted.toNat)
    (hlast : ReadFrom s cacheDirectory entry position.toNat last.data) :
    (attemptLoop s cacheDirectory entry position wanted left made last).1.data.length ≤
        wanted.toNat ∧
      ReadFrom s cacheDirectory entry position.toNat
        (attemptLoop s cacheDirectory entry position wanted left made last).1.data := by
  induction left generalizing made last with
  | zero => exact ⟨hlength, hlast⟩
  | succ left ih =>
      obtain ⟨hshort, hread⟩ := tryReadFileRange_reads s cacheDirectory entry position wanted made
      rw [attemptLoop]
      split
      · exact ⟨hshort, hread⟩
      · split
        · exact ⟨hshort, hread⟩
        · exact ih (made + 1) _ hshort hread

/-- What is wanted next is not more than is left. -/
theorem toNat_wanted_le {position stop : UInt64} (hle : position ≤ stop)
    (hstop : stop.toNat + 1 < 2 ^ 64) :
    (min chunkLimit (stop - position + 1)).toUInt32.toNat ≤ stop.toNat + 1 - position.toNat := by
  have hsub : (stop - position).toNat = stop.toNat - position.toNat :=
    UInt64.toNat_sub_of_le _ _ hle
  have hleft : (stop - position + 1).toNat = stop.toNat + 1 - position.toNat := by
    have := UInt64.le_iff_toNat_le.mp hle
    rw [UInt64.toNat_add, hsub, UInt64.toNat_one]
    omega
  rw [UInt64.toNat_toUInt32, toNat_min_uInt64, hleft]
  exact (Nat.mod_le _ _).trans (Nat.min_le_right _ _)

end Reads

section Bodies

variable (s : Surroundings) (cacheDirectory : Bytes) (entry : FileEntry)

/-- The loop ends; it sends no more than the bytes up to the last position, each from the payload
as it was at some attempt. -/
theorem sendLoop_reads {stop : UInt64} (hstop : stop.toNat + 1 < 2 ^ 64) (fuel : ℕ)
    (position : UInt64) (made sent : ℕ) (hposition : position.toNat ≤ stop.toNat + 1)
    (hfuel : stop.toNat + 1 - position.toNat < fuel) :
    ∃ chunks, sendLoop s cacheDirectory entry stop fuel position made sent = some chunks ∧
      chunks.flatten.length ≤ stop.toNat + 1 - position.toNat ∧
      ReadFrom s.toServedFiles cacheDirectory entry position.toNat chunks.flatten := by
  induction fuel generalizing position made sent with
  | zero => omega
  | succ fuel ih =>
      have hnone := readFrom_nil s.toServedFiles cacheDirectory entry position.toNat
      rw [sendLoop]
      by_cases hdone : position ≤ stop
      swap
      · exact ⟨[], if_pos hdone, Nat.zero_le _, hnone⟩
      rw [if_neg (not_not.mpr hdone)]
      set wanted := (min chunkLimit (stop - position + 1)).toUInt32 with hwanted
      obtain ⟨hlength, hread⟩ := attemptLoop_reads s.toServedFiles cacheDirectory entry position
        wanted attemptLimit made ⟨false, [], false⟩ (Nat.zero_le _) hnone
      have hleft := toNat_wanted_le hdone hstop
      rw [← hwanted] at hleft
      obtain ⟨read, attempts, houtcome⟩ : ∃ read attempts, attemptLoop s.toServedFiles
          cacheDirectory entry position wanted attemptLimit made ⟨false, [], false⟩ =
            (read, attempts) := ⟨_, _, rfl⟩
      simp only [houtcome] at hlength hread ⊢
      split
      · exact ⟨[], rfl, Nat.zero_le _, hnone⟩
      · rename_i hready
        split
        · exact ⟨[], rfl, Nat.zero_le _, hnone⟩
        · have hpos : 0 < read.data.length :=
            List.length_pos_of_ne_nil fun hnil => hready (Or.inr hnil)
          have hnext : (position + read.data.length.toUInt64).toNat =
              position.toNat + read.data.length := by
            rw [UInt64.toNat_add, Nat.toUInt64_eq, UInt64.toNat_ofNat']
            omega
          obtain ⟨chunks, hloop, hshort, hrest⟩ := ih (position + read.data.length.toUInt64)
            attempts (sent + 1) (by omega) (by omega)
          rw [hnext] at hrest hshort
          refine ⟨read.data :: chunks, by rw [hloop]; rfl, ?_, ?_⟩
          · rw [List.flatten_cons, List.length_append]
            omega
          · rw [List.flatten_cons]
            exact readFrom_append s.toServedFiles cacheDirectory entry hread hrest

/-! ## The answer with a file -/

/-- The body for a request ends; it is no longer than announced, and each byte is at its place. -/
theorem exists_body_reads (request : Request) {fuel : ℕ} (hfuel : 2 ^ 64 ≤ fuel) :
    ∃ start stop chunks,
      (rangeOf request entry.size).getD (0, if entry.size = 0 then 0 else entry.size - 1) =
        (start, stop) ∧
      sendLoop s cacheDirectory entry stop fuel start 0 1 = some chunks ∧
      (if entry.size = 0 then 0 else stop - start + 1).toNat = (extentOf request entry).2 ∧
      chunks.flatten.length ≤ (extentOf request entry).2 ∧
      ReadFrom s.toServedFiles cacheDirectory entry (extentOf request entry).1 chunks.flatten := by
  unfold extentOf partOf
  cases hrange : rangeOf request entry.size with
  | none =>
      by_cases hempty : entry.size = 0
      · obtain ⟨fuel, rfl⟩ := Nat.exists_eq_succ_of_ne_zero (n := fuel) (by omega)
        refine ⟨0, 0, [], by simp [hempty], sendLoop_empty hempty fuel 0 1, by simp [hempty],
          Nat.zero_le _, readFrom_nil s.toServedFiles cacheDirectory entry 0⟩
      · have hpos : 0 < entry.size.toNat :=
          Nat.pos_of_ne_zero fun hzero => hempty (UInt64.toNat_inj.mp hzero)
        have hlast : (entry.size - 1).toNat = entry.size.toNat - 1 :=
          UInt64.toNat_sub_of_le _ _ (UInt64.le_iff_toNat_le.mpr hpos)
        have hbound := entry.size.toNat_lt
        have hstop : (entry.size - 1).toNat + 1 < 2 ^ 64 := by omega
        obtain ⟨chunks, hloop, hlength, hread⟩ := sendLoop_reads s cacheDirectory entry hstop fuel
          0 0 1 (by simp) (by simp; omega)
        refine ⟨0, entry.size - 1, chunks, by simp [hempty], hloop, ?_, ?_, hread⟩
        · rw [if_neg hempty, UInt64.sub_zero, UInt64.sub_add_cancel]
          rfl
        · rw [UInt64.toNat_zero] at hlength
          simp only [Option.map_none]
          omega
  | some part =>
      obtain ⟨start, stop⟩ := part
      obtain ⟨hle, hlt⟩ := rangeOf_bounds hrange
      have hbound := entry.size.toNat_lt
      have hstop : stop.toNat + 1 < 2 ^ 64 := by omega
      obtain ⟨chunks, hloop, hlength, hread⟩ := sendLoop_reads s cacheDirectory entry hstop fuel
        start 0 1 (by omega) (by omega)
      have hempty : entry.size ≠ 0 := fun hzero => by simp [hzero] at hlt
      have hsub : (stop - start).toNat = stop.toNat - start.toNat :=
        UInt64.toNat_sub_of_le _ _ (UInt64.le_iff_toNat_le.mpr hle)
      refine ⟨start, stop, chunks, rfl, hloop, ?_, ?_, hread⟩
      · rw [if_neg hempty, UInt64.toNat_add, hsub, UInt64.toNat_one]
        simp only [Option.map_some]
        omega
      · simp only [Option.map_some]
        omega

/-- The answer with a file is its headers and a body that they announce. -/
theorem exists_serveFile (request : Request) (hsends : s.sendAll 0 = true) {fuel : ℕ}
    (hfuel : 2 ^ 64 ≤ fuel) :
    ∃ body, (∃ sent, serveFile s cacheDirectory entry request fuel = some sent ∧
        sent.flatten = announcement entry.size.toNat (extentOf request entry).2
          (partOf request entry) ++ body) ∧
      body.length ≤ (extentOf request entry).2 ∧
      ReadFrom s.toServedFiles cacheDirectory entry (extentOf request entry).1 body ∧
      (request.line.method = bytes "HEAD" → body = []) := by
  obtain ⟨start, stop, chunks, hrange, hloop, hcount, hlength, hread⟩ :=
    exists_body_reads s cacheDirectory entry request hfuel
  have hpart : ∀ part, rangeOf request entry.size = some part → part = (start, stop) :=
    fun part hsome => by rw [hsome] at hrange; exact hrange
  have hheaders := headersOut_eq hpart entry.size (if entry.size = 0 then 0 else stop - start + 1)
  rw [hcount] at hheaders
  unfold serveFile
  simp only [hrange, hsends, not_true_eq_false, if_false, hheaders]
  by_cases hhead : request.line.method = bytes "HEAD"
  · refine ⟨[], ⟨_, if_pos hhead, ?_⟩, Nat.zero_le _, readFrom_nil s.toServedFiles cacheDirectory
      entry _, fun _ => rfl⟩
    rw [List.flatten_singleton, List.append_nil]
    rfl
  · refine ⟨chunks.flatten, ⟨_, (if_neg hhead).trans (by rw [hloop]; rfl), ?_⟩, hlength, hread,
      fun h => absurd h hhead⟩
    rw [List.flatten_cons]
    rfl

end Bodies

section Framing

variable (s : ServedFiles) (cacheDirectory : Bytes) (index : Index) (request : Request)

/-- The answer with a file is what `serveFile` sends. -/
theorem respond_of_forFile {s : Surroundings} {cacheDirectory : Bytes} {entry : FileEntry}
    {fuel : ℕ} (h : ForFile index request entry) :
    respond s cacheDirectory index request fuel =
      serveFile s cacheDirectory entry request fuel := by
  have hpropfind := h.propfind
  have hfile := h.file
  rw [respond, if_neg h.options, h.found]
  simp only [hpropfind, hfile, Bool.false_eq_true, if_false]

/-- The part that is asked for has as many bytes as the headers announce. -/
theorem length_slice_partOf {entry : FileEntry} {payload : Bytes}
    (hpayload : PayloadPresent s cacheDirectory entry payload) :
    (slice payload (partOf request entry)).length = (extentOf request entry).2 := by
  cases hpart : partOf request entry with
  | none => rw [extentOf, hpart, slice, hpayload.length]
  | some part =>
      obtain ⟨range, hrange, rfl⟩ := Option.map_eq_some_iff.mp hpart
      obtain ⟨hle, hlt⟩ := rangeOf_bounds hrange
      rw [extentOf, hpart, length_slice hpayload hlt hle]

/-- The answer with a file, to a client that takes everything: the headers, and bytes that were
read; the part asked for, when the payload is there. -/
theorem exists_respond_file {entry : FileEntry} {fuel : ℕ} (h : ForFile index request entry)
    (hfuel : 2 ^ 64 ≤ fuel) :
    ∃ sent body, respond s.unhindered cacheDirectory index request fuel = some sent ∧
      sent.flatten = announcement entry.size.toNat (extentOf request entry).2
        (partOf request entry) ++ body ∧
      body.length ≤ (extentOf request entry).2 ∧
      ReadFrom s cacheDirectory entry (extentOf request entry).1 body ∧
      (request.line.method = bytes "HEAD" → body = []) ∧
      ∀ payload, PayloadPresent s cacheDirectory entry payload → entry.size.toNat < 2 ^ 63 →
        request.line.method ≠ bytes "HEAD" → body = slice payload (partOf request entry) := by
  obtain ⟨body, ⟨sent, hsent, htext⟩, hlength, hread, hhead⟩ :=
    exists_serveFile s.unhindered cacheDirectory entry request rfl hfuel
  refine ⟨sent, body, (respond_of_forFile index request h).trans hsent, htext, hlength, hread,
    hhead, fun payload hpayload hsize hother => ?_⟩
  have hbound := entry.size.toNat_lt
  have hthere : PayloadPresent s.unhindered.toServedFiles cacheDirectory entry payload := hpayload
  have hsends : ∀ vector, s.unhindered.sendAll vector = true := fun _ => rfl
  obtain ⟨sent', hsent', hserves⟩ := serveFile_serves h.file hsize hthere hsends request
    (by omega : entry.size.toNat < fuel)
  obtain rfl := Option.some.inj (hsent.symm.trans hsent')
  have hheaders := hserves.headers
  have hbody := hserves.body hother
  obtain ⟨vectors, rfl⟩ : ∃ vectors, sent = _ :: vectors :=
    ⟨_, List.eq_cons_of_mem_head? hheaders⟩
  rw [List.tail_cons] at hbody
  rw [List.flatten_cons, hbody, length_slice_partOf s cacheDirectory request hpayload] at htext
  exact (List.append_cancel_left htext).symm

/-- An answer that is no file, in one piece. -/
theorem framed_whole {first body : Bytes} {before after : List Bytes}
    (h : Announces first before body.length after)
    (hcode : (pieces (byte ' ') first)[1]? = some (statusCodeFor index request))
    (hnone : ∀ entry, ¬ ForFile index request entry) :
    ∃ response, responseOf (responseText first (before ++ lengthLine body.length :: after) body) =
        some response ∧ Framed s cacheDirectory index request response := by
  obtain ⟨response, hresponse, hstatus, hlength, hbody⟩ := exists_responseOf h body
  refine ⟨response, hresponse, hstatus.trans hcode, fun _ => by rw [hlength, hbody], ?_, ?_, ?_⟩
  · exact fun entry hfile => absurd hfile (hnone entry)
  · exact fun entry hfile => absurd hfile (hnone entry)
  · exact fun entry hfile => absurd hfile (hnone entry)

/-- A simple answer is framed when its code is that of the case. -/
theorem framed_simpleResponse {status body : Bytes} (hline : IsLine (bytes "HTTP/1.1 " ++ status))
    (hcode : (pieces (byte ' ') (bytes "HTTP/1.1 " ++ status))[1]? =
      some (statusCodeFor index request)) (hnone : ∀ entry, ¬ ForFile index request entry) :
    ∃ response, responseOf (simpleResponse status body) = some response ∧
      Framed s cacheDirectory index request response := by
  have hlines : ∀ line ∈ [] ++ [bytes "Content-Type: text/plain", bytes "Connection: close"],
      IsLine line := by decide
  rw [simpleResponse_eq]
  exact framed_whole s cacheDirectory index request
    (announces_of ⟨hline, hlines⟩ (by simp) body.length) hcode hnone

/-- An answer with a file, and what is sent of it. -/
theorem framed_file {entry : FileEntry} (hfile : ForFile index request entry) {body : Bytes}
    (hlength : body.length ≤ (extentOf request entry).2)
    (hread : ReadFrom s cacheDirectory entry (extentOf request entry).1 body)
    (hhead : request.line.method = bytes "HEAD" → body = []) :
    ∃ response, responseOf (announcement entry.size.toNat (extentOf request entry).2
        (partOf request entry) ++ body) = some response ∧
      Framed s cacheDirectory index request response := by
  have hsame : ∀ other, ForFile index request other → other = entry := fun other hother =>
    Option.some.inj (hother.found.symm.trans hfile.found)
  have hcode : (pieces (byte ' ') (fileLines entry.size.toNat (partOf request entry)).1)[1]? =
      some (statusCodeFor index request) := by
    rw [statusCodeFor, if_neg hfile.options, hfile.found]
    simp only [hfile.propfind, hfile.file, if_false, Bool.false_eq_true]
    have hall : (pieces (byte ' ') (bytes "HTTP/1.1 200 OK"))[1]? = some (bytes "200") :=
      rfl
    have hpart : (pieces (byte ' ') (bytes "HTTP/1.1 206 Partial Content"))[1]? =
        some (bytes "206") := rfl
    cases partOf request entry with
    | none => exact hall
    | some range => exact hpart
  rw [announcement_eq]
  obtain ⟨response, hresponse, hstatus, hcount, rfl⟩ :=
    exists_responseOf (announces_fileLines entry.size.toNat (extentOf request entry).2
      (partOf request entry)) body
  refine ⟨response, hresponse, hstatus.trans hcode, fun hnone => absurd hfile (hnone entry),
    fun other hother => ?_, fun other hother => ?_, fun _ _ => hhead⟩
  · rw [hsame other hother]
    exact ⟨hcount, hlength⟩
  · rw [hsame other hother]
    exact hread

/-- The answer to `OPTIONS` is framed. -/
theorem framed_optionsResponse (h : request.line.method = bytes "OPTIONS") :
    ∃ response, responseOf optionsResponse = some response ∧
      Framed s cacheDirectory index request response := by
  have hlines : IsLine (bytes "HTTP/1.1 200 OK") ∧ ∀ line ∈
      [bytes "Allow: OPTIONS, PROPFIND, GET, HEAD", bytes "DAV: 1"] ++
        [bytes "Connection: close"], IsLine line := by decide
  have hcode : (pieces (byte ' ') (bytes "HTTP/1.1 200 OK"))[1]? =
      some (statusCodeFor index request) := by
    rw [statusCodeFor, if_pos h]
    rfl
  have hannounces := announces_of hlines (by decide) (([] : Bytes).length)
  rw [optionsResponse_eq]
  exact framed_whole s cacheDirectory index request hannounces hcode
    fun entry hfile => hfile.options h

/-- The answer to `PROPFIND` is framed. -/
theorem framed_propfindResponse {entry : FileEntry} (h : request.line.method = bytes "PROPFIND")
    (hentry : entryFor index request.line = some entry) :
    ∃ response, responseOf (propfindResponse index entry request.headers) = some response ∧
      Framed s cacheDirectory index request response := by
  have hcode : (pieces (byte ' ') (bytes "HTTP/1.1 207 Multi-Status"))[1]? =
      some (statusCodeFor index request) := by
    rw [statusCodeFor, h, if_neg (by decide), hentry]
    simp only [if_true]
    rfl
  rw [propfindResponse_eq]
  exact framed_whole s cacheDirectory index request (announces_multistatus _) hcode
    fun entry hfile => hfile.propfind h

/-- The answer to a client that takes everything ends, and the client can cut it: it finds the
header, the status code of the request's case and the number of bytes that follow. -/
theorem exists_framed {fuel : ℕ} (hfuel : 2 ^ 64 ≤ fuel) :
    ∃ sent, respond s.unhindered cacheDirectory index request fuel = some sent ∧
      ∃ response, responseOf sent.flatten = some response ∧
        Framed s cacheDirectory index request response := by
  have hreply : ∀ {text}, (∃ response, responseOf text = some response ∧
      Framed s cacheDirectory index request response) →
      ∃ sent, some (if s.unhindered.sendAll 0 then [text] else []) = some sent ∧
        ∃ response, responseOf sent.flatten = some response ∧
          Framed s cacheDirectory index request response :=
    fun h => ⟨_, rfl, by simpa [ServedFiles.unhindered] using h⟩
  unfold respond
  by_cases hoptions : request.line.method = bytes "OPTIONS"
  · rw [if_pos hoptions]
    exact hreply (framed_optionsResponse s cacheDirectory index request hoptions)
  rw [if_neg hoptions]
  cases hentry : entryFor index request.line with
  | none =>
      refine hreply (framed_simpleResponse s cacheDirectory index request (by decide) ?_ ?_)
      · rw [statusCodeFor, if_neg hoptions, hentry]
        simp only
        rfl
      · intro entry hfile
        have hfound := hfile.found
        rw [hentry] at hfound
        cases hfound
  | some entry =>
      simp only
      by_cases hpropfind : request.line.method = bytes "PROPFIND"
      · rw [if_pos hpropfind]
        exact hreply (framed_propfindResponse s cacheDirectory index request hpropfind hentry)
      rw [if_neg hpropfind]
      by_cases hdirectory : entry.isDirectory = true
      · rw [if_pos hdirectory]
        refine hreply (framed_simpleResponse s cacheDirectory index request (by decide) ?_ ?_)
        · rw [statusCodeFor, if_neg hoptions, hentry]
          simp only [hpropfind, hdirectory, if_false, if_true]
          rfl
        · intro other hfile
          have hnot := hfile.file
          rw [Option.some.inj (hfile.found.symm.trans hentry), hdirectory] at hnot
          cases hnot
      rw [if_neg hdirectory]
      have hfile : ForFile index request entry :=
        ⟨hoptions, hpropfind, hentry, by simpa using hdirectory⟩
      obtain ⟨sent, body, hsent, htext, hlength, hread, hhead, -⟩ :=
        exists_respond_file s cacheDirectory index request hfile hfuel
      rw [respond_of_forFile index request hfile] at hsent
      refine ⟨sent, hsent, ?_⟩
      rw [htext]
      exact framed_file s cacheDirectory index request hfile hlength hread hhead

/-- A header that is there stays the header when the text grows. -/
theorem responseOf_append {front : Bytes} {cut : HttpResponse} (hcut : responseOf front = some cut)
    (more : Bytes) : responseOf (front ++ more) = some ⟨cut.header, cut.body ++ more⟩ := by
  obtain ⟨⟨header, body⟩, hfound, rfl⟩ := Option.map_eq_some_iff.mp hcut
  rw [responseOf, cutAt_append (by decide) hfound]
  rfl

/-- **Every answer can be cut.**  Whatever the server meets, it comes to an end of its answer, and
what went out is a beginning of a text in which a client finds the header, the status code of the
request's case and the number of bytes that follow; all of the text, when the answer was finished,
as it is when nothing interrupts it.  Once the client has the empty line, it has all of the header
and a beginning of the body.  A body that is no file is as long as announced, one that is a file
not longer, with each byte at its place in the file.
SRCLINE: WebDavServer.cpp:123-172, WebDavServer.cpp:306-412 -/
theorem respond_framed (met : Interruptions) {fuel : ℕ} (hfuel : 2 ^ 64 ≤ fuel) :
    ∃ answered, respondOnWire s met cacheDirectory index request fuel = some answered ∧
      ∃ text response, responseOf text = some response ∧
        Framed s cacheDirectory index request response ∧
        answered.out <+: text ∧
        (answered.ending = .finished → answered.out = text) ∧
        (Uninterrupted met text.length → answered.ending = .finished) ∧
        ∀ cut, responseOf answered.out = some cut →
          cut.header = response.header ∧ cut.body <+: response.body := by
  obtain ⟨sent, hsent, response, hresponse, hframed⟩ :=
    exists_framed s cacheDirectory index request hfuel
  obtain ⟨answered, hanswered, hbegins⟩ :=
    respondOnWire_beginningOf s met cacheDirectory hsent
  refine ⟨answered, hanswered, _, response, hresponse, hframed, hbegins.front, hbegins.all,
    hbegins.finished, fun cut hcut => ?_⟩
  obtain ⟨more, hmore⟩ := hbegins.front
  rw [← hmore, responseOf_append hcut] at hresponse
  obtain rfl := Option.some.inj hresponse
  exact ⟨rfl, List.prefix_append _ _⟩

end Framing

/-- The headers go out in two calls of `send`, and of the body one byte. -/
def brokenOff : Interruptions where
  results := [100, 100, 1]
  reads _ := true
  streams _ := true

/-- An answer that is broken off behind its first byte. -/
theorem respond_framed_lastTwo :
    ∃ answered, respondOnWire calm.toServedFiles brokenOff (bytes "/c")
        (buildIndex [⟨bytes "a/x", 3, 0⟩]) lastTwo (2 ^ 64) = some answered ∧
      ∃ text response, responseOf text = some response ∧
        Framed calm.toServedFiles (bytes "/c") (buildIndex [⟨bytes "a/x", 3, 0⟩]) lastTwo
          response ∧
        answered.out <+: text ∧ (answered.ending = .finished → answered.out = text) ∧
        (Uninterrupted brokenOff text.length → answered.ending = .finished) ∧
        ∀ cut, responseOf answered.out = some cut →
          cut.header = response.header ∧ cut.body <+: response.body :=
  respond_framed calm.toServedFiles (bytes "/c") (buildIndex [⟨bytes "a/x", 3, 0⟩]) lastTwo
    brokenOff le_rfl

end Vtfs.Analysis
