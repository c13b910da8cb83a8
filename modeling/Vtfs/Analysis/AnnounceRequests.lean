import Vtfs.Interface.AnnounceRequests
import Vtfs.Analysis.FileUrls

/-!
# Announcements are read back

The parameters of an announcement are written after those that the address of the tracker has
(`parametersOf_announcePath`); the info hash and the peer id are escaped whole, so nothing in them
ends a parameter or the line.
-/

set_option autoImplicit false

namespace Vtfs.Analysis

open Vtfs.Library
open Vtfs.Library.Decimal (numeral)
open Vtfs.Library.PercentEncoding (Encodes hexValue percent)
open Vtfs.Library.QueryStrings
open Vtfs.Model
open Vtfs.Model.TrackerClient
open Vtfs.Interface

/-! ## The values -/

/-- The upper half of a byte needs no mask. -/
theorem shiftRight_four_and (c : UInt8) : (c >>> 4) &&& (0xF : UInt8) = c >>> 4 := by
  have hall : ∀ n < 256, (UInt8.ofNat n >>> 4) &&& (0xF : UInt8) = UInt8.ofNat n >>> 4 := by
    decide +kernel
  have hc := hall c.toNat c.toNat_lt
  rwa [UInt8.ofNat_toNat] at hc

/-- Every byte is written with its two digits. -/
theorem encodes_percentEncode (data : Bytes) :
    Encodes (fun _ => False) (percentEncode data) data := by
  induction data with
  | nil => exact .nil
  | cons c cs ih =>
      obtain ⟨a, b, hhigh, hlow, heq⟩ := hexValue_upperHexDigit c
      rw [shiftRight_four_and] at hhigh
      have hescaped : Encodes (fun _ => False) _ _ := .escaped hhigh hlow ih
      rw [percentEncode, List.flatMap_cons]
      rwa [heq] at hescaped

/-- A byte of a parameter: a letter, a digit, an underscore, an equals sign or a percent sign. -/
def isParameterByte (c : UInt8) : Bool :=
  (byte 'a' ≤ c && c ≤ byte 'z') || (hexValue c).isSome || c ∈ bytes "_=%"

/-- An encoded text has only bytes that a parameter may have. -/
theorem isParameterByte_percentEncode (data : Bytes) :
    ∀ c ∈ percentEncode data, isParameterByte c = true := by
  intro c hc
  rcases (encodes_percentEncode data).mem_cases hc with hfalse | rfl | ⟨a, ha⟩
  · exact absurd hfalse not_false
  · decide
  · simp [isParameterByte, ha]

/-- So has a number. -/
theorem isParameterByte_numeral (n : ℕ) : ∀ c ∈ numeral n, isParameterByte c = true := by
  intro c hc
  have hdigit : byte '0' ≤ c ∧ c ≤ byte '9' := by
    simpa [Decimal.isDigit, byte] using List.all_eq_true.mp (Decimal.numeral_all_isDigit n) c hc
  have hhex : hexValue c = some (c - byte '0') := if_pos hdigit
  simp [isParameterByte, hhex]

/-- A number is its digits. -/
theorem percent_not_mem_numeral (n : ℕ) : percent ∉ numeral n := by
  intro hmem
  have hdigit := List.all_eq_true.mp (Decimal.numeral_all_isDigit n) percent hmem
  exact absurd hdigit (by decide)

/-! ## The parameters -/

/-- A name and a value in one text. -/
def writtenParameter (name value : Bytes) : Bytes := name ++ equals :: value

/-- The parameters as they are written. -/
def writtenParameters (a : Announcement) : List Bytes :=
  [writtenParameter (bytes "info_hash") (percentEncode a.infoHash),
    writtenParameter (bytes "peer_id") (percentEncode a.peerId),
    writtenParameter (bytes "port") (bytes "6881"),
    writtenParameter (bytes "uploaded") (numeral a.uploaded.toNat),
    writtenParameter (bytes "downloaded") (numeral a.downloaded.toNat),
    writtenParameter (bytes "left") (numeral a.left.toNat),
    writtenParameter (bytes "compact") (bytes "1"),
    writtenParameter (bytes "event") (bytes "started")]

section Parameters

variable (a : Announcement)

/-- The path that is asked for is the one of the address, with the eight parameters behind it. -/
theorem announcePath_eq (url : UrlParts) : announcePath url a = url.path ++
    (if byte '?' ∉ url.path then bytes "?" else bytes "&") ++
      (rooted ampersand (writtenParameters a)).tail := by
  have hnames : bytes "info_hash=" = bytes "info_hash" ++ [equals] ∧
      bytes "&peer_id=" = ampersand :: (bytes "peer_id" ++ [equals]) ∧
      bytes "&port=6881&uploaded=" = ampersand :: (bytes "port" ++ equals :: (bytes "6881" ++
        ampersand :: (bytes "uploaded" ++ [equals]))) ∧
      bytes "&downloaded=" = ampersand :: (bytes "downloaded" ++ [equals]) ∧
      bytes "&left=" = ampersand :: (bytes "left" ++ [equals]) ∧
      bytes "&compact=1&event=started" = ampersand :: (bytes "compact" ++ equals :: (bytes "1" ++
        ampersand :: (bytes "event" ++ equals :: bytes "started"))) := by decide
  obtain ⟨hinfo, hpeer, hup, hdown, hleft, hlast⟩ := hnames
  simp only [announcePath, hinfo, hpeer, hup, hdown, hleft, hlast, rooted, writtenParameters,
    writtenParameter, List.flatMap_cons, List.flatMap_nil, List.cons_append, List.nil_append,
    List.append_assoc, List.tail_cons, List.append_nil]

/-- A parameter with an encoded value is read back. -/
theorem parameter_percentEncode {name : Bytes} (hname : percent ∉ name ∧ equals ∉ name)
    (data : Bytes) : parameter (writtenParameter name (percentEncode data)) = (name, data) :=
  parameter_written not_false hname (encodes_percentEncode data)

/-- A value without a percent sign stands for itself. -/
theorem parameter_plain {name value : Bytes} (hname : percent ∉ name ∧ equals ∉ name)
    (hvalue : percent ∉ value) : parameter (writtenParameter name value) = (name, value) :=
  parameter_written (by simp) hname (encodes_self hvalue)

/-- The parameters that are written are those that are announced. -/
theorem map_parameter_writtenParameters :
    (writtenParameters a).map parameter = announced a := by
  have hnumeral := percent_not_mem_numeral
  simp only [writtenParameters, announced, List.map_cons, List.map_nil]
  rw [parameter_percentEncode (by decide), parameter_percentEncode (by decide),
    parameter_plain (by decide) (by decide), parameter_plain (by decide) (hnumeral _),
    parameter_plain (by decide) (hnumeral _), parameter_plain (by decide) (hnumeral _),
    parameter_plain (by decide) (by decide), parameter_plain (by decide) (by decide)]

/-- The bytes of a text that is given are looked at one by one. -/
theorem isParameterByte_of_all {text : Bytes} (h : text.all isParameterByte = true) :
    ∀ c ∈ text, isParameterByte c = true :=
  List.all_eq_true.mp h

/-- A written parameter has only bytes that a parameter may have. -/
theorem isParameterByte_writtenParameter {name value : Bytes}
    (hname : name.all isParameterByte = true) (hvalue : ∀ c ∈ value, isParameterByte c = true) :
    ∀ c ∈ writtenParameter name value, isParameterByte c = true := by
  intro c hc
  rcases List.mem_append.mp hc with hc | hc
  · exact isParameterByte_of_all hname c hc
  · rcases List.mem_cons.mp hc with rfl | hc
    · decide
    · exact hvalue c hc

/-- So have all eight. -/
theorem isParameterByte_writtenParameters :
    ∀ text ∈ writtenParameters a, ∀ c ∈ text, isParameterByte c = true := by
  have hescaped := isParameterByte_percentEncode
  have hnumeral := isParameterByte_numeral
  intro text htext
  simp only [writtenParameters, List.mem_cons, List.not_mem_nil, or_false] at htext
  obtain rfl | rfl | rfl | rfl | rfl | rfl | rfl | rfl := htext
  · exact isParameterByte_writtenParameter (by decide) (hescaped _)
  · exact isParameterByte_writtenParameter (by decide) (hescaped _)
  · exact isParameterByte_writtenParameter (by decide) (isParameterByte_of_all (by decide))
  · exact isParameterByte_writtenParameter (by decide) (hnumeral _)
  · exact isParameterByte_writtenParameter (by decide) (hnumeral _)
  · exact isParameterByte_writtenParameter (by decide) (hnumeral _)
  · exact isParameterByte_writtenParameter (by decide) (isParameterByte_of_all (by decide))
  · exact isParameterByte_writtenParameter (by decide) (isParameterByte_of_all (by decide))

/-- The query that is written is read as what is announced. -/
theorem parameters_announced :
    parameters (rooted ampersand (writtenParameters a)).tail = announced a := by
  have htexts : ∀ text ∈ writtenParameters a, text ≠ [] ∧ ampersand ∉ text := by
    refine fun text htext => ⟨?_, fun hmem => ?_⟩
    · rintro rfl
      simp [writtenParameters, writtenParameter] at htext
    · exact absurd (isParameterByte_writtenParameters a text htext ampersand hmem) (by decide)
  rw [parameters_written (by simp [writtenParameters]) htexts, map_parameter_writtenParameters]

end Parameters

/-! ## The target -/

section Target

variable (url : UrlParts) (a : Announcement)

/-- The parameters of an announcement come after those of the address. -/
theorem parametersOf_announcePath :
    parametersOf (announcePath url a) = parametersOf url.path ++ announced a := by
  have hannounced := parameters_announced a
  rw [announcePath_eq]
  set query := (rooted ampersand (writtenParameters a)).tail
  by_cases hmem : byte '?' ∈ url.path
  · obtain ⟨own, hown⟩ := exists_upTo_append hmem
    have hnot := stop_not_mem_upTo (byte '?') url.path
    set front := upTo (byte '?') url.path
    have hcut : cutAt [byte '?'] url.path = some (front, own) :=
      cutAt_singleton_eq_some_iff.mpr ⟨by rw [hown]; simp, hnot⟩
    have hwhole : cutAt [byte '?'] (url.path ++ bytes "&" ++ query) =
        some (front, own ++ ampersand :: query) :=
      cutAt_singleton_eq_some_iff.mpr ⟨by rw [hown]; simp [ampersand, bytes], hnot⟩
    rw [if_neg (not_not.mpr hmem), parametersOf, hwhole, parametersOf, hcut]
    show parameters (own ++ ampersand :: query) = parameters own ++ announced a
    rw [parameters_append, hannounced]
  · have hcut : cutAt [byte '?'] url.path = none := by
      rw [cutAt_eq_none_iff, List.singleton_infix_iff]
      exact hmem
    have hwhole : cutAt [byte '?'] (url.path ++ bytes "?" ++ query) = some (url.path, query) :=
      cutAt_of_not_mem hmem query
    rw [if_pos hmem, parametersOf, hwhole, parametersOf, hcut]
    exact hannounced

/-- What is asked for can stand in a request line when the path of the address can. -/
theorem isLinePath_announcePath (h : IsLinePath url.path) : IsLinePath (announcePath url a) := by
  have hquery : ∀ c ∈ (rooted ampersand (writtenParameters a)).tail,
      c = ampersand ∨ isParameterByte c = true := by
    intro c hc
    obtain ⟨text, htext, hmem⟩ := List.mem_flatMap.mp (List.mem_of_mem_tail hc)
    rcases List.mem_cons.mp hmem with rfl | hmem
    · exact Or.inl rfl
    · exact Or.inr (isParameterByte_writtenParameters a text htext c hmem)
  have hpath : ∀ c, c ∉ url.path → c ≠ byte '?' → c ≠ ampersand → isParameterByte c = false →
      c ∉ announcePath url a := by
    intro c hpath hmark hampersand hno hmem
    rw [announcePath_eq, List.mem_append, List.mem_append] at hmem
    rcases hmem with (hmem | hmem) | hmem
    · exact hpath hmem
    · split at hmem
      · exact hmark (List.mem_singleton.mp hmem)
      · exact hampersand (List.mem_singleton.mp hmem)
    · rcases hquery c hmem with heq | hyes
      · exact hampersand heq
      · rw [hno] at hyes
        cases hyes
  exact ⟨hpath _ h.1 (by decide) (by decide) (by decide),
    hpath _ h.2 (by decide) (by decide) (by decide)⟩

/-- The request is its first line, with an end after it, and other lines. -/
theorem announceRequest_eq : ∃ lines, announceRequest url a =
    bytes "GET" ++ [byte ' '] ++ (announcePath url a ++ [byte ' '] ++ bytes "HTTP/1.1") ++ crlf ++
      lines := by
  have hget : bytes "GET " = bytes "GET" ++ [byte ' '] := by decide
  have hversion : bytes " HTTP/1.1\r\nHost: " =
      [byte ' '] ++ bytes "HTTP/1.1" ++ crlf ++ bytes "Host: " := by decide
  refine ⟨bytes "Host: " ++ url.host ++
    bytes "\r\nUser-Agent: torrentfs\r\nConnection: close\r\n\r\n", ?_⟩
  rw [announceRequest, hget, hversion]
  simp only [List.append_assoc]

/-- The target of the request is the path that is asked for. -/
theorem targetOf_announceRequest (h : IsLinePath url.path) :
    targetOf (announceRequest url a) = some (announcePath url a) := by
  obtain ⟨hspace, hreturn⟩ := isLinePath_announcePath url a h
  obtain ⟨lines, hrequest⟩ := announceRequest_eq url a
  set path := announcePath url a
  have hmethod : byte '\r' ∉ bytes "GET" ++ [byte ' '] := by decide
  have hversion : byte '\r' ∉ [byte ' '] ++ bytes "HTTP/1.1" := by decide
  have hnot : byte '\r' ∉
      bytes "GET" ++ [byte ' '] ++ (path ++ [byte ' '] ++ bytes "HTTP/1.1") := by
    rw [List.append_assoc path]
    exact fun hmem => (List.mem_append.mp hmem).elim hmethod fun hmem =>
      (List.mem_append.mp hmem).elim hreturn hversion
  have hline := @cutAt_of_not_mem _ _ _ [byte '\n'] _ hnot lines
  have hmethod : cutAt [byte ' '] (bytes "GET" ++ [byte ' '] ++ (path ++ [byte ' '] ++
      bytes "HTTP/1.1")) = some (bytes "GET", path ++ [byte ' '] ++ bytes "HTTP/1.1") :=
    cutAt_of_not_mem (by decide) _
  have htarget : cutAt [byte ' '] (path ++ [byte ' '] ++ bytes "HTTP/1.1") =
      some (path, bytes "HTTP/1.1") := cutAt_of_not_mem hspace _
  rw [targetOf, hrequest]
  have hcrlf : crlf = [byte '\r', byte '\n'] := by decide
  rw [hcrlf, hline]
  simp only [Option.bind_eq_bind, Option.bind_some, hmethod, htarget]

/-- Requests that are the same ask for the same path. -/
theorem announcePath_of_announceRequest {url url' : UrlParts} {a a' : Announcement}
    (h : IsLinePath url.path) (h' : IsLinePath url'.path)
    (heq : announceRequest url' a' = announceRequest url a) :
    announcePath url' a' = announcePath url a := by
  have htarget := targetOf_announceRequest url' a' h'
  rw [heq, targetOf_announceRequest url a h] at htarget
  exact (Option.some.inj htarget).symm

end Target

/-- Different words are written differently. -/
theorem numeral_toNat_injective {n m : UInt64} (h : numeral n.toNat = numeral m.toNat) : n = m := by
  have hvalue := congrArg Decimal.value h
  rw [Decimal.value_numeral, Decimal.value_numeral] at hvalue
  exact UInt64.toNat_inj.mp hvalue

/-- What the tracker is told is all of an announcement but the address. -/
theorem eq_of_announced {a a' : Announcement} (h : announced a' = announced a) :
    a' = { a with announceUrl := a'.announceUrl } := by
  obtain ⟨url, infoHash, peerId, downloaded, left, uploaded⟩ := a
  obtain ⟨url', infoHash', peerId', downloaded', left', uploaded'⟩ := a'
  simp only [announced, List.cons.injEq, Prod.mk.injEq, true_and, and_true] at h
  obtain ⟨rfl, rfl, huploaded, hdownloaded, hleft⟩ := h
  rw [numeral_toNat_injective huploaded, numeral_toNat_injective hdownloaded,
    numeral_toNat_injective hleft]

/-- **Announcements.**  Whatever the hash, the id and the counts are, and whether or not the path of
the address has parameters, a tracker finds in the request its own parameters and after them those
of the announcement, undone from their encoding; and announcements that differ in anything but
their addresses are different requests.
SRCLINE: TrackerClient.cpp:34-41, TrackerClient.cpp:156-169 -/
theorem announceRequest_received (url : UrlParts) (a : Announcement) (h : IsLinePath url.path) :
    (∃ target, targetOf (announceRequest url a) = some target ∧
      parametersOf target = parametersOf url.path ++ announced a) ∧
    ∀ (url' : UrlParts) (a' : Announcement), IsLinePath url'.path →
      announceRequest url' a' = announceRequest url a →
        url'.host = url.host ∧ a' = { a with announceUrl := a'.announceUrl } := by
  have hparameters := parametersOf_announcePath url a
  refine ⟨⟨_, targetOf_announceRequest url a h, hparameters⟩, fun url' a' h' heq => ?_⟩
  have hpath := announcePath_of_announceRequest h h' heq
  refine ⟨?_, eq_of_announced ?_⟩
  · rw [announceRequest, announceRequest, hpath] at heq
    simpa using heq
  · have hsame := parametersOf_announcePath url' a'
    rw [hpath, hparameters] at hsame
    -- those of the announcement are the last eight
    exact ((List.append_inj' hsame rfl).2).symm

/-- A hash of signs that end a parameter, a word or a line, and an address with a parameter. -/
def signsAnnouncement : Announcement where
  announceUrl := bytes "http://tracker:80/announce?key=a%2Fb"
  infoHash := bytes "&=%?# +/\r\n&=%?# +/\r\n"
  peerId := List.replicate 20 255
  downloaded := 0
  left := 18446744073709551615
  uploaded := 10

/-- An address with a parameter, and an announcement with signs in its bytes. -/
theorem announceRequest_received_signs :
    ∃ target, targetOf (announceRequest
        (TrackerClient.parseHttpUrl signsAnnouncement.announceUrl) signsAnnouncement) =
          some target ∧
      parametersOf target = (bytes "key", bytes "a/b") :: announced signsAnnouncement := by
  obtain ⟨⟨target, htarget, hparameters⟩, -⟩ := announceRequest_received
    (TrackerClient.parseHttpUrl signsAnnouncement.announceUrl) signsAnnouncement (by decide +kernel)
  have hown : parametersOf (TrackerClient.parseHttpUrl signsAnnouncement.announceUrl).path =
      [(bytes "key", bytes "a/b")] := by decide +kernel
  exact ⟨target, htarget, by rw [hparameters, hown]; rfl⟩

end Vtfs.Analysis
