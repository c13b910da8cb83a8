import Vtfs.Interface.ChainedServers
import Vtfs.Analysis.FileUrls
import Vtfs.Analysis.HttpUrls
import Vtfs.Analysis.RequestSegments
import Vtfs.Analysis.ResponseFraming
import Vtfs.Analysis.WebDavAddresses
import Mathlib.Logic.Relation

/-!
# Downloads from another instance

The server undoes the encoding of the client (`urlDecode_seedPath`), so a request for a path comes
to the lookup of that path (`parseRequest_seed`), and of its lines only the first one matters.
What the client then makes of the answer is the body of it, when the answer is a file
(`receivedFile_answer`).
-/

set_option autoImplicit false

namespace Vtfs.Analysis

open Vtfs.Library
open Vtfs.Library.Decimal (numeral)
open Vtfs.Library.PosixPath (slash)
open Vtfs.Library.PercentEncoding (Encodes hexValue percent)
open Vtfs.Model
open Vtfs.Interface

/-! ## The encoding is undone -/

/-- The server reads the hexadecimal digits that the client writes. -/
theorem fromHex_of_hexValue {digit a : UInt8} (h : hexValue digit = some a) :
    fromHex digit = some a ∧ a < 16 := by
  have hall : ∀ n < 256, ∀ a ∈ hexValue (UInt8.ofNat n),
      fromHex (UInt8.ofNat n) = some a ∧ a < 16 := by decide +kernel
  have hdigit := hall digit.toNat digit.toNat_lt
  rw [UInt8.ofNat_toNat] at hdigit
  exact hdigit a h

/-- Two halves of a byte put together are a number of two digits. -/
theorem shiftLeft_or {high low : UInt8} (hhigh : high < 16) (hlow : low < 16) :
    high <<< 4 ||| low = 16 * high + low := by
  have hall : ∀ m < 16, ∀ n < 16, UInt8.ofNat m <<< 4 ||| UInt8.ofNat n =
      16 * UInt8.ofNat m + UInt8.ofNat n := by decide
  have hboth := hall high.toNat (UInt8.lt_iff_toNat_lt.mp hhigh) low.toNat
    (UInt8.lt_iff_toNat_lt.mp hlow)
  rwa [UInt8.ofNat_toNat, UInt8.ofNat_toNat] at hboth

/-- **Decoding undoes an encoding**, if neither the percent sign nor the plus sign stands for
itself. -/
theorem urlDecodeLoop_of_encodes {plain : UInt8 → Prop} (hpercent : ¬ plain percent)
    (hplus : ¬ plain (byte '+')) {text data : Bytes} (h : Encodes plain text data) :
    urlDecodeLoop 0 text = data := by
  induction h with
  | nil => rfl
  | @plain c text data hc _ ih =>
      have hnone : escapedByte (c :: text) = none := by
        have hne : c ≠ byte '%' := by
          rintro rfl
          exact hpercent hc
        match text with
        | [] | [_] => rfl
        | _ :: _ :: _ => rw [escapedByte, if_neg hne]
      have hne : c ≠ byte '+' := by
        rintro rfl
        exact hplus hc
      rw [urlDecodeLoop, hnone]
      simp only [hne, if_false, ih]
  | @escaped high low a b text data hhigh hlow _ ih =>
      obtain ⟨hhex, ha⟩ := fromHex_of_hexValue hhigh
      obtain ⟨hhex', hb⟩ := fromHex_of_hexValue hlow
      have hsome : escapedByte (percent :: high :: low :: text) = some (16 * a + b) := by
        have hmark : percent = byte '%' := rfl
        rw [escapedByte, if_pos hmark, hhex, hhex', ← shiftLeft_or ha hb]
        rfl
      rw [urlDecodeLoop, hsome]
      simp only [urlDecodeLoop, ih]

/-- The target of the request for a path. -/
def seedPath (virtualPath : Bytes) : Bytes := slash :: percentEncodePath virtualPath.tail

/-- The server undoes the encoding of the path. -/
theorem urlDecode_seedPath {virtualPath : Bytes} (h : virtualPath.head? = some slash) :
    urlDecode (seedPath virtualPath) = virtualPath := by
  rw [seedPath, urlDecode_of_slash, urlDecodeLoop_of_encodes (by decide) (by decide)
    (encodes_percentEncodePath virtualPath.tail)]
  exact List.cons_head?_tail h

/-- An encoded path has no space. -/
theorem seedPath_no_space (virtualPath : Bytes) :
    ∀ ch ∈ seedPath virtualPath, isSpace ch = false := by
  have hall : ∀ n < 256, (IsPathCharacter (UInt8.ofNat n) ∨ UInt8.ofNat n = percent ∨
      (hexValue (UInt8.ofNat n)).isSome = true) → isSpace (UInt8.ofNat n) = false := by
    decide +kernel
  intro ch hch
  have hcases : IsPathCharacter ch ∨ ch = percent ∨ (hexValue ch).isSome = true := by
    rcases List.mem_cons.mp hch with rfl | hch
    · exact Or.inl (Or.inr rfl)
    · rcases (encodes_percentEncodePath virtualPath.tail).mem_cases hch with h | h | ⟨a, ha⟩
      · exact Or.inl h
      · exact Or.inr (Or.inl h)
      · exact Or.inr (Or.inr (by rw [ha]; rfl))
  have hbyte := hall ch.toNat ch.toNat_lt
  rw [UInt8.ofNat_toNat] at hbyte
  exact hbyte hcases

/-! ## The request -/

/-- The client takes the address of a server apart as it is meant. -/
theorem parseHttpUrl_endpoint {port : UInt16} (h : port ≠ 0) :
    parseHttpUrl (endpoint port) =
      { host := bytes "127.0.0.1", port, path := [slash], valid := true } := by
  have hport : PortPart (byte ':' :: numeral port.toNat) port :=
    .present ⟨⟨Decimal.numeral_ne_nil _, Decimal.numeral_all_isDigit _⟩, Decimal.value_numeral _⟩
  have hspells : SpellsUrl (bytes "http://" ++ (bytes "127.0.0.1" ++
      byte ':' :: numeral port.toNat ++ [slash])) (bytes "127.0.0.1") port [slash] :=
    .parts (by decide) (by decide) (by decide) hport (.present [])
  have hurl : endpoint port = bytes "http://" ++ (bytes "127.0.0.1" ++
      byte ':' :: numeral port.toNat ++ [slash]) := by
    have hfront : bytes "http://127.0.0.1:" =
        bytes "http://" ++ (bytes "127.0.0.1" ++ [byte ':']) :=
      rfl
    have hback : bytes "/" = [slash] := rfl
    rw [endpoint, if_neg h, hfront, hback]
    simp only [List.append_assoc, List.cons_append, List.nil_append]
  rw [hurl, parts_of_spellsUrl readsUrls_webSeed hspells]

/-- The lines of the request after the first one. -/
def seedHeaders : List Bytes :=
  [bytes "Host: 127.0.0.1", bytes "User-Agent: torrentfs-webseed", bytes "Connection: close"]

section Request

variable {port : UInt16} {virtualPath : Bytes}

/-- The address of a file leads to the server, with the encoded path. -/
theorem buildFileUrl_endpoint (hport : port ≠ 0) (hpath : virtualPath.head? = some slash) :
    ∃ url, (⟨endpoint port⟩ : WebSeedClient).buildFileUrl virtualPath = some url ∧
      parseHttpUrl url =
        { host := bytes "127.0.0.1", port, path := seedPath virtualPath, valid := true } := by
  have hparts := parseHttpUrl_endpoint hport
  have hbase : (⟨endpoint port⟩ : WebSeedClient).baseUrl ≠ [] := by
    intro hnil
    have hnone : (parseHttpUrl []).valid = false := by decide
    rw [show endpoint port = [] from hnil] at hparts
    rw [hparts] at hnone
    cases hnone
  refine ⟨_, buildFileUrl_eq hbase hpath, ?_⟩
  have hroot : endedBySlash [slash] = [slash] := rfl
  rw [parseHttpUrl_fileUrl (by rw [hparts]), hparts, hroot]
  rfl

/-- The request is its first line and the headers of the client. -/
theorem requestMade_endpoint (hport : port ≠ 0) (hpath : virtualPath.head? = some slash) :
    requestMade ⟨endpoint port⟩ virtualPath =
      seedLine virtualPath ++ crlf ++ (withEnds seedHeaders ++ crlf) := by
  obtain ⟨url, hurl, hparts⟩ := buildFileUrl_endpoint hport hpath
  have hhost : bytes " HTTP/1.1\r\nHost: " ++ bytes "127.0.0.1" ++
      bytes "\r\nUser-Agent: torrentfs-webseed\r\nConnection: close\r\n\r\n" =
      bytes " HTTP/1.1" ++ crlf ++ (withEnds seedHeaders ++ crlf) := rfl
  rw [requestMade, hurl, Option.elim_some, hparts, requestFor, seedLine]
  simp only [List.append_assoc] at hhost ⊢
  rw [hhost]
  rfl

/-- None of those lines asks for a range. -/
theorem range_of_seedHeaders {received missing : List Bytes}
    (h : received ++ missing = seedHeaders) :
    received.foldl addHeader (fun _ => none) (bytes "range") = none := by
  by_contra hsome
  obtain ⟨value, hvalue⟩ := Option.ne_none_iff_exists'.mp hsome
  obtain ⟨before, line, after, rfl, hheader, -⟩ := (addHeaders_eq_some_iff _ _ _).mp hvalue
  have hmem : line ∈ seedHeaders := by
    rw [← h]
    simp
  have hnone : ∀ line ∈ seedHeaders, (headerOf line).map Prod.fst ≠ some (bytes "range") := by
    decide
  exact hnone line hmem (by rw [hheader]; rfl)

/-- The server finds the method and the path in the first line. -/
theorem parseRequestLine_seedLine (virtualPath : Bytes) :
    (parseRequestLine (seedLine virtualPath)).method = bytes "GET" ∧
      (parseRequestLine (seedLine virtualPath)).target = seedPath virtualPath := by
  refine ⟨rfl, ?_⟩
  have hversion : ∀ ch, (bytes " HTTP/1.1").head? = some ch → isSpace ch = true := by decide +kernel
  exact target_parseRequestLine (by simp) (seedPath_no_space virtualPath) hversion

/-- What the server takes from the beginning of a request: the path, when the first line is there,
and no range. -/
theorem parseRequest_seed {text : Bytes}
    (hbegins : text <+: seedLine virtualPath ++ crlf ++ (withEnds seedHeaders ++ crlf)) :
    (¬ seedLine virtualPath ++ crlf <+: text ∧ parseRequest text = none) ∨
      (seedLine virtualPath ++ crlf <+: text ∧ ∃ request, parseRequest text = some request ∧
        request.line.method = bytes "GET" ∧ request.line.target = seedPath virtualPath ∧
        request.headers (bytes "range") = none) := by
  have hline : ¬ crlf <:+: seedLine virtualPath := by
    rintro ⟨front, rest, htext⟩
    refine return_not_mem_firstLine (seedPath_no_space virtualPath) ?_
    have hmem : byte '\r' ∈ front ++ crlf ++ rest := by simp [crlf, bytes, byte]
    rwa [htext] at hmem
  have hheaders : ∀ line ∈ seedHeaders, line ≠ [] ∧ ¬ crlf <:+: line := by decide
  rw [parseRequest, cutAt_crlf_of_prefix hline hbegins]
  by_cases hwhole : seedLine virtualPath ++ crlf <+: text
  · refine Or.inr ⟨hwhole, _, by rw [if_pos hwhole]; rfl, ?_⟩
    obtain ⟨hmethod, htarget⟩ := parseRequestLine_seedLine virtualPath
    refine ⟨hmethod, htarget, ?_⟩
    simp only
    rw [headersLoop_eq _ _ _ hheaders (drop_prefix_of_append hbegins) le_rfl]
    exact range_of_seedHeaders (linesWithin_append _ _)
  · exact Or.inl ⟨hwhole, by rw [if_neg hwhole]; rfl⟩

end Request

/-! ## The answer -/

/-- A piece is part of the text. -/
theorem infix_of_mem_pieces {sep : UInt8} {text piece : Bytes} (h : piece ∈ pieces sep text) :
    piece <:+: text := by
  induction text using pieces_induction sep with
  | last p hp =>
      rw [pieces_of_not_mem hp] at h
      rw [List.mem_singleton.mp h]
  | more p rest hp ih =>
      rw [pieces_append_sep hp] at h
      rcases List.mem_cons.mp h with rfl | h
      · exact (List.prefix_append _ _).isInfix
      · exact (ih h).trans ((List.suffix_cons sep rest).trans (List.suffix_append p _)).isInfix

/-- An answer with the status code 200 is taken as a file, and its body as the content. -/
theorem receivedFile_of_statusCode {text : Bytes} {response : HttpResponse}
    (h : responseOf text = some response) (hcode : response.statusCode = some (bytes "200")) :
    receivedFile text = (true, response.body) := by
  have hinfix : bytes "200" <:+: response.statusLine :=
    infix_of_mem_pieces (List.mem_of_getElem? hcode)
  simp only [receivedFile, h, hinfix, if_true]

/-- Nothing received is no file. -/
theorem receivedFile_nil : receivedFile [] = (false, []) := by decide

/-- A 404 is taken for no file. -/
theorem receivedFile_notFound :
    receivedFile (simpleResponse (bytes "404 Not Found") (bytes "not found")) = (false, []) :=
  rfl

/-- A 405 is taken for no file. -/
theorem receivedFile_notAllowed :
    receivedFile (simpleResponse (bytes "405 Method Not Allowed")
      (bytes "directory reads are not supported")) = (false, []) := by
  decide +kernel

section Answer

variable {server : Upstream} {virtualPath : Bytes} {request : Request}

/-- What is known of a request that the first line of the client's has become. -/
structure SeedRequest (server : Upstream) (virtualPath : Bytes) (request : Request) : Prop where
  method : request.line.method = bytes "GET"
  entry : entryFor server.index request.line = lookup server.index virtualPath
  range : request.headers (bytes "range") = none

/-- The client asks for no part of a file. -/
theorem SeedRequest.partOf (h : SeedRequest server virtualPath request) (entry : FileEntry) :
    partOf request entry = none := by
  rw [Interface.partOf, rangeOf, h.range]
  rfl

/-- Where there is a file for the path, the request is for its bytes. -/
theorem SeedRequest.forFile (h : SeedRequest server virtualPath request) {entry : FileEntry}
    (hentry : lookup server.index virtualPath = some entry) (hfile : entry.isDirectory = false) :
    ForFile server.index request entry where
  options := by rw [h.method]; decide
  propfind := by rw [h.method]; decide
  found := h.entry.trans hentry
  file := hfile

/-- Without a file for the path, what is sent is taken for no file. -/
theorem receivedFile_of_no_file (h : SeedRequest server virtualPath request)
    (hnone : ∀ entry, lookup server.index virtualPath = some entry → entry.isDirectory = true)
    {sent : List Bytes}
    (hsent : respond server.surroundings.unhindered server.cacheDirectory server.index request
      server.fuel = some sent) : receivedFile sent.flatten = (false, []) := by
  have hoptions : request.line.method ≠ bytes "OPTIONS" := by rw [h.method]; decide
  have hpropfind : request.line.method ≠ bytes "PROPFIND" := by rw [h.method]; decide
  rw [respond, if_neg hoptions, h.entry] at hsent
  cases hentry : lookup server.index virtualPath with
  | none =>
      rw [hentry] at hsent
      simp only [ServedFiles.unhindered, if_true, Option.some.injEq] at hsent
      rw [← hsent, List.flatten_singleton, receivedFile_notFound]
  | some entry =>
      rw [hentry] at hsent
      simp only [hpropfind, hnone entry hentry, ServedFiles.unhindered, if_true, if_false,
        Option.some.injEq] at hsent
      rw [← hsent, List.flatten_singleton, receivedFile_notAllowed]

/-- The headers of a whole file are taken for those of a file, and what follows for its bytes. -/
theorem receivedFile_announcement (size length : ℕ) (body : Bytes) :
    receivedFile (announcement size length none ++ body) = (true, body) := by
  rw [announcement_eq]
  obtain ⟨response, hresponse, hcode, -, rfl⟩ :=
    exists_responseOf (announces_fileLines size length none) body
  exact receivedFile_of_statusCode hresponse (hcode.trans rfl)

/-- A beginning of a text that is taken for a file leads the text to be taken for one. -/
theorem receivedFile_append {front : Bytes} (h : (receivedFile front).1 = true) (more : Bytes) :
    receivedFile (front ++ more) = (true, (receivedFile front).2 ++ more) := by
  cases hcut : responseOf front with
  | none => simp [receivedFile, hcut] at h
  | some cut =>
      simp only [receivedFile, hcut] at h ⊢
      by_cases hcode : bytes "200" <:+: cut.statusLine
      · have hsame : bytes "200" <:+:
            (⟨cut.header, cut.body ++ more⟩ : HttpResponse).statusLine := hcode
        simp only [responseOf_append hcut more, hcode, hsame, if_true]
      · simp [hcode] at h

/-- With a file for the path, a beginning of what is sent is taken for a file exactly when the
headers are in it, and then it is taken for the bytes after them. -/
theorem receivedFile_of_front {size length : ℕ} {front body : Bytes}
    (hfront : front <+: announcement size length none ++ body) :
    ((receivedFile front).1 = true ↔ announcement size length none <+: front) ∧
      ((receivedFile front).1 = true →
        front = announcement size length none ++ (receivedFile front).2) := by
  have hsplit : (receivedFile front).1 = true →
      front = announcement size length none ++ (receivedFile front).2 := by
    intro htrue
    obtain ⟨more, hmore⟩ := hfront
    have hwhole := receivedFile_append htrue more
    rw [hmore, receivedFile_announcement] at hwhole
    obtain ⟨-, rfl⟩ := Prod.mk.inj hwhole
    rw [← List.append_assoc] at hmore
    exact List.append_cancel_right hmore
  refine ⟨⟨fun htrue => ⟨_, (hsplit htrue).symm⟩, ?_⟩, hsplit⟩
  rintro ⟨content, rfl⟩
  rw [receivedFile_announcement]

end Answer

/-! ## The download -/

section Download

variable {server : Upstream} {met : Interruptions} {virtualPath : Bytes} {network : Network}
  {segments : List Bytes}

/-- The server takes the segments for a request for the path, or closes the connection. -/
theorem receiveRequest_linked (hpath : virtualPath.head? = some slash)
    (h : LeadsTo network server met virtualPath segments) :
    (¬ FirstLineArrives virtualPath segments ∧ receiveRequest segments = none) ∨
      (FirstLineArrives virtualPath segments ∧ ∃ request,
        receiveRequest segments = some request ∧ SeedRequest server virtualPath request) := by
  have hmade := requestMade_endpoint server.listening hpath
  have harrives := h.arrives
  rw [Upstream.client, hmade] at harrives
  cases segments with
  | nil => exact absurd harrives (by simp [crlf, bytes])
  | cons first rest =>
      have hne : first ≠ [] := h.nonempty first List.mem_cons_self
      have hbegins : first.take receiveLimit <+:
          seedLine virtualPath ++ crlf ++ (withEnds seedHeaders ++ crlf) := by
        rw [← harrives, List.flatten_cons]
        exact (List.take_prefix _ _).trans (List.prefix_append _ _)
      have hline : FirstLineArrives virtualPath (first :: rest) ↔
          seedLine virtualPath ++ crlf <+: first.take receiveLimit := by
        constructor
        · rintro ⟨first', rest', heq, harrived⟩
          obtain ⟨rfl, rfl⟩ := List.cons.inj heq
          exact harrived
        · exact fun harrived => ⟨first, rest, rfl, harrived⟩
      rw [receiveRequest, if_neg hne, hline]
      rcases parseRequest_seed hbegins with hnone | ⟨harrived, request, hrequest, hmethod, htarget,
        hrange⟩
      · exact Or.inl hnone
      · refine Or.inr ⟨harrived, request, hrequest, hmethod, ?_, hrange⟩
        rw [entryFor, htarget, urlDecode_seedPath hpath]

/-- Bytes at their places stay there when some at the end are missing. -/
theorem readFrom_of_prefix {files : ServedFiles} {cacheDirectory : Bytes} {entry : FileEntry}
    {first : ℕ} {front body : Bytes} (hfront : front <+: body)
    (h : ReadFrom files cacheDirectory entry first body) :
    ReadFrom files cacheDirectory entry first front := by
  obtain ⟨more, rfl⟩ := hfront
  intro k c hk
  refine h k c ?_
  rw [List.getElem?_append_left (List.getElem?_eq_some_iff.mp hk).1]
  exact hk

/-- A request for a file: the client takes the file if the headers arrive, and then what arrives
of the bytes. -/
theorem receivedFile_of_file {request : Request}
    (h : LeadsTo network server met virtualPath segments)
    (hrequest : receiveRequest segments = some request)
    (hseed : SeedRequest server virtualPath request) {entry : FileEntry}
    (hentry : lookup server.index virtualPath = some entry) (hfile : entry.isDirectory = false) :
    ((receivedFile (received network.delivery)).1 = true ↔
        announcement entry.size.toNat entry.size.toNat none <+: received network.delivery) ∧
      ((receivedFile (received network.delivery)).1 = true → PassedOn network server met segments
        entry (receivedFile (received network.delivery)).2) := by
  have hforFile := hseed.forFile hentry hfile
  have hpart := hseed.partOf entry
  have hextent : extentOf request entry = (0, entry.size.toNat) := by rw [extentOf, hpart]
  obtain ⟨sent, body, hsent, htext, hlength, hread, -, hwhole⟩ :=
    exists_respond_file server.surroundings.toServedFiles server.cacheDirectory server.index request
      hforFile server.enough
  rw [hextent, hpart] at htext
  rw [hextent] at hlength hread
  obtain ⟨answered, hanswered, hbegins⟩ := respondOnWire_beginningOf _ met _ hsent
  have hanswer : server.answerOnWire met segments = some answered := by
    rw [Upstream.answerOnWire, serveConnectionOnWire, hrequest]
    exact hanswered
  have hfront : received network.delivery <+:
      announcement entry.size.toNat entry.size.toNat none ++ body := by
    obtain ⟨answered', hanswered', hreceived⟩ := h.answered
    obtain rfl := Option.some.inj (hanswer.symm.trans hanswered')
    exact htext ▸ hreceived.trans hbegins.front
  obtain ⟨hiff, hsplit⟩ := receivedFile_of_front hfront
  refine ⟨hiff, fun htrue => ?_⟩
  have hcontent : (receivedFile (received network.delivery)).2 <+: body :=
    (List.prefix_append_right_inj _).mp (hsplit htrue ▸ hfront)
  refine ⟨hcontent.length_le.trans hlength, readFrom_of_prefix hcontent hread, ?_⟩
  rintro payload hpayload ⟨answered', hanswered', hfinished, hall⟩ hsize
  obtain rfl := Option.some.inj (hanswer.symm.trans hanswered')
  have hget : request.line.method ≠ bytes "HEAD" := by rw [hseed.method]; decide
  have hbody := hwhole payload hpayload hsize hget
  rw [hpart] at hbody
  have hsame := (hsplit htrue).symm.trans (hall.trans ((hbegins.all hfinished).trans htext))
  exact (List.append_cancel_left hsame).trans hbody

/-- What the client makes of all that it receives. -/
theorem receivedFile_linked (hpath : virtualPath.head? = some slash)
    (h : LeadsTo network server met virtualPath segments) :
    ((receivedFile (received network.delivery)).1 = true ↔
        FirstLineArrives virtualPath segments ∧
          ∃ entry, lookup server.index virtualPath = some entry ∧ entry.isDirectory = false ∧
            announcement entry.size.toNat entry.size.toNat none <+: received network.delivery) ∧
      ((receivedFile (received network.delivery)).1 = true → ∃ entry,
        lookup server.index virtualPath = some entry ∧ entry.isDirectory = false ∧
          PassedOn network server met segments entry
            (receivedFile (received network.delivery)).2) := by
  rcases receiveRequest_linked hpath h with ⟨hline, hnone⟩ | ⟨hline, request, hrequest, hseed⟩
  · -- the connection is closed without an answer
    obtain ⟨answered, hanswered, hreceived⟩ := h.answered
    rw [Upstream.answerOnWire, serveConnectionOnWire, hnone] at hanswered
    obtain rfl := Option.some.inj hanswered
    rw [List.prefix_nil.mp hreceived, receivedFile_nil]
    simp [hline]
  by_cases hfile : ∃ entry, lookup server.index virtualPath = some entry ∧
      entry.isDirectory = false
  · obtain ⟨entry, hentry, hnot⟩ := hfile
    obtain ⟨hiff, hpassed⟩ := receivedFile_of_file h hrequest hseed hentry hnot
    refine ⟨hiff.trans ⟨fun hheaders => ⟨hline, entry, hentry, hnot, hheaders⟩, ?_⟩,
      fun htrue => ⟨entry, hentry, hnot, hpassed htrue⟩⟩
    rintro ⟨-, other, hother, -, hheaders⟩
    obtain rfl := Option.some.inj (hother.symm.trans hentry)
    exact hheaders
  · have hno : ∀ entry, lookup server.index virtualPath = some entry →
        entry.isDirectory = true := by
      intro entry hentry
      by_contra hnot
      exact hfile ⟨entry, hentry, by simpa using hnot⟩
    have hfalse : ¬ (receivedFile (received network.delivery)).1 = true := by
      intro htrue
      obtain ⟨sent, hsent, -⟩ := exists_framed server.surroundings.toServedFiles
        server.cacheDirectory server.index request server.enough
      obtain ⟨answered, hanswered, hbegins⟩ := respondOnWire_beginningOf _ met _ hsent
      obtain ⟨answered', hanswered', hreceived⟩ := h.answered
      rw [Upstream.answerOnWire, serveConnectionOnWire, hrequest] at hanswered'
      obtain rfl := Option.some.inj (hanswered.symm.trans hanswered')
      obtain ⟨more, hmore⟩ := hreceived.trans hbegins.front
      have hwhole := receivedFile_append htrue more
      rw [hmore, receivedFile_of_no_file hseed hno hsent] at hwhole
      cases hwhole
    exact ⟨iff_of_false hfalse fun ⟨_, entry, hentry, hnot, _⟩ => hfile ⟨entry, hentry, hnot⟩,
      fun htrue => absurd htrue hfalse⟩

/-- Over such a network only the opening of the part file can keep the client from receiving. -/
theorem reaches_linked (hpath : virtualPath.head? = some slash)
    (h : LeadsTo network server met virtualPath segments) (fs : FileSystem) :
    Reaches server.client network fs virtualPath ↔ fs.opens = true := by
  obtain ⟨url, hurl, hparts⟩ := buildFileUrl_endpoint server.listening hpath
  have hsends := h.sends
  rw [requestMade, Upstream.client, hurl, Option.elim_some] at hsends
  constructor
  · rintro ⟨-, -, -, -, -, hopens⟩
    exact hopens
  · intro hopens
    refine ⟨url, hurl, by rw [hparts], ?_, hsends, hopens⟩
    rw [hparts]
    exact h.connects

/-- A file is received and published exactly when it is passed on. -/
theorem carries_linked_iff (hpath : virtualPath.head? = some slash)
    (h : LeadsTo network server met virtualPath segments) (fs : FileSystem) :
    Carries server.client network fs virtualPath ∧
        (receivedFile (received network.delivery)).1 = true ↔
      PassesOn network server fs virtualPath segments := by
  rw [Carries, reaches_linked hpath h fs, (receivedFile_linked hpath h).1]
  constructor
  · rintro ⟨⟨hopens, hrenames⟩, hline, hfile⟩
    exact ⟨hline, hfile, hopens, hrenames⟩
  · rintro ⟨hline, hfile, hopens, hrenames⟩
    exact ⟨⟨hopens, hrenames⟩, hline, hfile⟩

/-- What a download from another instance leaves when it passes a file on. -/
theorem downloadFile_of_passesOn (hpath : virtualPath.head? = some slash)
    (h : LeadsTo network server met virtualPath segments) {fs : FileSystem}
    (hpasses : PassesOn network server fs virtualPath segments) (disk : Disk)
    (destination : Bytes) :
    (downloadFile server.client network fs disk virtualPath destination).1 = true ∧
      ∃ entry content, lookup server.index virtualPath = some entry ∧ entry.isDirectory = false ∧
        (downloadFile server.client network fs disk virtualPath destination).2 destination =
          some content ∧ PassedOn network server met segments entry content := by
  obtain ⟨hcarries, hok⟩ := (carries_linked_iff hpath h fs).mpr hpasses
  obtain ⟨entry, hentry, hfile, hpassed⟩ := (receivedFile_linked hpath h).2 hok
  rcases downloadFile_cases server.client network fs disk virtualPath destination with
    ⟨-, -, hreturned, hcontent⟩ | ⟨hnot, -⟩
  · exact ⟨hreturned, entry, _, hentry, hfile, hcontent, hpassed⟩
  · exact absurd ⟨hcarries, hok⟩ hnot

/-- **A download from another instance** succeeds exactly when the first line of its request
reaches the server in one piece, the server has a file for the path and its headers arrive, and
the client can write and rename; and it leaves nothing at the destination but what the server read
of that file, all of it if the file was there and the answer arrived whole.
SRCLINE: WebSeedClient.cpp:60-72, WebSeedClient.cpp:147-250, WebDavServer.cpp:98-114,
WebDavServer.cpp:240-415 -/
theorem downloadFile_passesOn_iff (hpath : virtualPath.head? = some slash)
    (h : LeadsTo network server met virtualPath segments) (fs : FileSystem) (disk : Disk)
    (destination : Bytes) :
    ((downloadFile server.client network fs disk virtualPath destination).1 = true ↔
        PassesOn network server fs virtualPath segments) ∧
      ((downloadFile server.client network fs disk virtualPath destination).1 = true →
        ∃ entry content, lookup server.index virtualPath = some entry ∧
          entry.isDirectory = false ∧
          (downloadFile server.client network fs disk virtualPath destination).2 destination =
            some content ∧ PassedOn network server met segments entry content) := by
  have hiff : (downloadFile server.client network fs disk virtualPath destination).1 = true ↔
      PassesOn network server fs virtualPath segments := by
    refine ⟨fun htrue => ?_, fun hpasses => (downloadFile_of_passesOn hpath h hpasses _ _).1⟩
    rcases downloadFile_cases server.client network fs disk virtualPath destination with
      ⟨hcarried, hok, -⟩ | ⟨-, hreturned, -⟩
    · exact (carries_linked_iff hpath h fs).mp ⟨hcarried, hok⟩
    · rw [hreturned] at htrue
      cases htrue
  exact ⟨hiff, fun htrue => (downloadFile_of_passesOn hpath h (hiff.mp htrue) _ _).2⟩

end Download

/-- A server with the file `x` of a torrent `a`, of three bytes. -/
def threeByteServer : Upstream where
  surroundings := calm
  cacheDirectory := bytes "/c"
  index := buildIndex [⟨bytes "a/x", 3, 0⟩]
  port := 8080
  fuel := 2 ^ 64
  listening := by decide
  enough := le_rfl

/-- What it sends for the file, in two pieces. -/
def threeByteNetwork : Network where
  openSocket _ _ := true
  sendRequest _ := true
  delivery :=
    { chunks := [bytes "HTTP/1.1 200 OK\r\nAccept-Ranges: bytes\r\nContent-Type: application/",
        bytes "octet-stream\r\nContent-Length: 3\r\nConnection: close\r\n\r\n" ++ [7, 8, 9]]
      ending := .closed
      nonempty := by decide
      fits := by decide }

/-- The calls of `send` for it: the headers take two of them. -/
def threeByteSends : Interruptions where
  results := [100, 19, 3]
  reads _ := true
  streams _ := true

/-- This server sends all of its answer. -/
theorem answerOnWire_threeByteServer :
    threeByteServer.answerOnWire threeByteSends
        [requestMade threeByteServer.client (bytes "/a/x")] =
      some ⟨received threeByteNetwork.delivery, .finished⟩ := by
  decide +kernel

/-- This network leads to this server. -/
theorem leadsTo_threeByteServer : LeadsTo threeByteNetwork threeByteServer threeByteSends
    (bytes "/a/x") [requestMade threeByteServer.client (bytes "/a/x")] where
  connects := rfl
  sends := rfl
  nonempty := by decide
  arrives := by simp
  answered := ⟨_, answerOnWire_threeByteServer, List.prefix_rfl⟩

/-- Three bytes are downloaded from another instance. -/
theorem downloadFile_passesOn_threeBytes :
    ((downloadFile threeByteServer.client threeByteNetwork ⟨true, true, true, true⟩
        (fun _ => none) (bytes "/a/x") (bytes "d")).1 = true ↔
        PassesOn threeByteNetwork threeByteServer ⟨true, true, true, true⟩ (bytes "/a/x")
          [requestMade threeByteServer.client (bytes "/a/x")]) ∧
      ((downloadFile threeByteServer.client threeByteNetwork ⟨true, true, true, true⟩
          (fun _ => none) (bytes "/a/x") (bytes "d")).1 = true →
        ∃ entry content, lookup threeByteServer.index (bytes "/a/x") = some entry ∧
          entry.isDirectory = false ∧
          (downloadFile threeByteServer.client threeByteNetwork ⟨true, true, true, true⟩
            (fun _ => none) (bytes "/a/x") (bytes "d")).2 (bytes "d") = some content ∧
          PassedOn threeByteNetwork threeByteServer threeByteSends
            [requestMade threeByteServer.client (bytes "/a/x")] entry content) :=
  downloadFile_passesOn_iff rfl leadsTo_threeByteServer _ _ _

/-! ## Chains of instances -/

section Chain

variable {files : List TorrentFileRecord} {entry : FileEntry} {up down : Node} {payload : Bytes}

/-- One instance after another one has the same payload. -/
theorem payload_of_downloadedFrom
    (hentry : lookup (buildIndex files) entry.virtualPath = some entry)
    (hsize : entry.size.toNat < 2 ^ 63)
    (h : DownloadedFrom files entry up down) (hpayload : up.payload entry = some payload)
    (hlength : payload.length = entry.size.toNat) : down.payload entry = some payload := by
  cases h with
  | @step server met network fs disk cacheDirectory segments hindex hcache hdisk hopens hleads
      hwhole hpasses =>
      have hhead : entry.virtualPath.head? = some slash :=
        (normalized_of_isEntry (Or.inl ⟨_, hentry⟩)).head
      obtain ⟨-, found, content, hfound, -, hwritten, hpassed⟩ :=
        downloadFile_of_passesOn hhead hleads hpasses disk (payloadPathFor cacheDirectory entry)
      rw [hindex, hentry] at hfound
      obtain rfl := Option.some.inj hfound
      have hpresent : PayloadPresent server.surroundings.toServedFiles server.cacheDirectory entry
          payload := ⟨fun attempt => by rw [hdisk, hcache]; exact hpayload, hopens, hlength⟩
      rw [← hpassed.complete payload hpresent hwhole hsize]
      exact hwritten

/-- **A chain of instances**, each with the one before it as its web seed, hands the payload of the
first one down: at its end a file is read as at its beginning.
SRCLINE: TorrentSession.cpp:89-115, TorrentSession.cpp:140-162, WebSeedClient.cpp:147-250,
WebDavServer.cpp:240-415 -/
theorem chain_reads_alike (hentry : lookup (buildIndex files) entry.virtualPath = some entry)
    (hsize : entry.size.toNat < 2 ^ 63)
    (h : Relation.ReflTransGen (DownloadedFrom files entry) up down)
    (hpayload : up.payload entry = some payload) (hlength : payload.length = entry.size.toNat) :
    down.payload entry = some payload ∧ ∀ opens offset wanted,
      tryReadFileRange down.disk opens down.cacheDirectory entry offset wanted =
        tryReadFileRange up.disk opens up.cacheDirectory entry offset wanted := by
  have hsame : down.payload entry = some payload := by
    induction h with
    | refl => exact hpayload
    | tail _ hstep ih => exact payload_of_downloadedFrom hentry hsize hstep ih hlength
  refine ⟨hsame, fun opens offset wanted => ?_⟩
  rw [Node.payload] at hsame hpayload
  rw [tryReadFileRange, tryReadFileRange, hsame, hpayload]

end Chain

/-- This server passes the file on. -/
theorem passesOn_threeByteServer :
    PassesOn threeByteNetwork threeByteServer ⟨true, true, true, true⟩ (bytes "/a/x")
      [requestMade threeByteServer.client (bytes "/a/x")] where
  line := ⟨_, [], rfl, by decide⟩
  file := ⟨threeBytes, rfl, rfl, by decide +kernel⟩
  opens := rfl
  renames := Or.inl rfl

/-- An instance with its cache in `/d`, after it has the file from that server. -/
def threeByteNode : Node where
  cacheDirectory := bytes "/d"
  disk := (downloadFile threeByteServer.client threeByteNetwork ⟨true, true, true, true⟩
    (fun _ => none) (bytes "/a/x") (payloadPathFor (bytes "/d") threeBytes)).2

/-- This node has downloaded the file. -/
theorem downloadedFrom_threeByteServer :
    DownloadedFrom [⟨bytes "a/x", 3, 0⟩] threeBytes ⟨bytes "/c", calm.disk 0⟩ threeByteNode :=
  .step rfl rfl (fun _ => rfl) (fun _ => rfl) leadsTo_threeByteServer
    ⟨_, answerOnWire_threeByteServer, rfl, rfl⟩ passesOn_threeByteServer

/-- A chain of two. -/
theorem chain_reads_threeBytes :
    threeByteNode.payload threeBytes = some [7, 8, 9] ∧ ∀ opens offset wanted,
      tryReadFileRange threeByteNode.disk opens (bytes "/d") threeBytes offset wanted =
        tryReadFileRange (calm.disk 0) opens (bytes "/c") threeBytes offset wanted :=
  chain_reads_alike rfl (by decide) (.single downloadedFrom_threeByteServer)
    rfl (by decide)

end Vtfs.Analysis
