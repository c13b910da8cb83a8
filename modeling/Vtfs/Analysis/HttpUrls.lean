import Vtfs.Interface.HttpUrls

/-!
# What the two address parsers accept

Both clients cut an address at the same places (`readsUrls_webSeed`, `readsUrls_tracker`): at the
first slash after the scheme, and before it at the first colon.  What `std::from_chars` says about
the port is not looked at (WebSeedClient.cpp:52, TrackerClient.cpp:60), so an address with a text
that is no port is valid all the same; `exact_iff_of_readsUrls` shows that nothing else goes wrong.
-/

set_option autoImplicit false

namespace Vtfs.Analysis

open Vtfs.Library
open Vtfs.Library.Decimal (value)
open Vtfs.Library.PosixPath (slash)
open Vtfs.Model
open Vtfs.Interface

/-! ## The places at which an address is cut -/

/-- The number that a text begins with, and 0 when there is none that fits. -/
def portFrom (text : Bytes) : UInt16 :=
  match Decimal.fromCharsUnsigned (2 ^ 16) text with
  | some (number, _) => number.toUInt16
  | none => 0

/-- The parts that the code takes from what stands between the scheme and the path. -/
def takenParts (hostPort path : Bytes) : UrlParts where
  host := upTo (byte ':') hostPort
  port := if byte ':' ∈ hostPort then
    portFrom (hostPort.drop ((upTo (byte ':') hostPort).length + 1)) else 80
  path := path
  valid := upTo (byte ':') hostPort ≠ []

/-- The function takes these parts, and rejects what has another scheme. -/
structure ReadsUrls (parseUrl : Bytes → UrlParts) : Prop where
  rejects : ∀ url, ¬ bytes "http://" <+: url → (parseUrl url).valid = false
  parts : ∀ hostPort pathPart path, slash ∉ hostPort → PathPart pathPart path →
    parseUrl (bytes "http://" ++ (hostPort ++ pathPart)) = takenParts hostPort path

/-- The host and port of an address are what stands before its path. -/
theorem upTo_slash_of_pathPart {hostPort pathPart path : Bytes} (hslash : slash ∉ hostPort)
    (hpath : PathPart pathPart path) : upTo slash (hostPort ++ pathPart) = hostPort := by
  cases hpath with
  | absent => rw [List.append_nil, upTo_eq_self hslash]
  | present rest => rw [upTo_append hslash]

/-- The parser of the web seed client is one of these. -/
theorem readsUrls_webSeed : ReadsUrls parseHttpUrl where
  rejects url h := by rw [parseHttpUrl, if_pos h]
  parts hostPort pathPart path hslash hpath := by
    have hbegins : bytes "http://" <+: bytes "http://" ++ (hostPort ++ pathPart) :=
      List.prefix_append _ _
    have hcut : upTo slash (hostPort ++ pathPart) = hostPort :=
      upTo_slash_of_pathPart hslash hpath
    have htaken : (if slash ∈ hostPort ++ pathPart then pathPart else [slash]) = path := by
      cases hpath with
      | absent => simp [hslash]
      | present rest => simp
    rw [parseHttpUrl, if_neg (not_not.mpr hbegins)]
    simp only [List.drop_left, hcut, htaken]
    by_cases hcolon : byte ':' ∈ hostPort
    · rw [if_neg (not_not.mpr hcolon), takenParts, if_pos hcolon]
      rfl
    · rw [if_pos hcolon, takenParts, if_neg hcolon, upTo_eq_self hcolon]

/-- The two copies differ only in the path of an address that they reject. -/
theorem parseHttpUrl_agree {url : Bytes} (h : bytes "http://" <+: url) :
    TrackerClient.parseHttpUrl url = parseHttpUrl url := by
  unfold TrackerClient.parseHttpUrl parseHttpUrl
  exact (if_neg (not_not.mpr h)).trans (if_neg (not_not.mpr h)).symm

/-- So is the one of the tracker client. -/
theorem readsUrls_tracker : ReadsUrls TrackerClient.parseHttpUrl where
  rejects url h := by rw [TrackerClient.parseHttpUrl, if_pos h]
  parts hostPort pathPart path hslash hpath := by
    rw [parseHttpUrl_agree (List.prefix_append _ _)]
    exact readsUrls_webSeed.parts hostPort pathPart path hslash hpath

/-! ## Exactness -/

/-- A port that is spelled is read. -/
theorem portFrom_of_spellsPort {text : Bytes} {port : UInt16} (h : SpellsPort text port) :
    portFrom text = port := by
  have hport : Decimal.fromCharsUnsigned (2 ^ 16) text = some (port.toNat, text.length) :=
    Decimal.fromCharsUnsigned_eq_iff.mpr ⟨h.1.nonempty, h.1.digits, h.2, port.toNat_lt⟩
  rw [portFrom, hport]
  simp

/-- A port has no slash in it. -/
theorem slash_not_mem_portPart {text : Bytes} {port : UInt16} (h : PortPart text port) :
    slash ∉ text := by
  cases h with
  | absent => simp
  | present hport =>
      have hdigits := Decimal.not_mem_of_all_isDigit (c := slash) hport.1.digits (by decide)
      have hne : slash ≠ byte ':' := by decide
      simp [hne, hdigits]

/-- What stands between the scheme and the path of a well-formed address gives its parts. -/
theorem takenParts_host {host portPart : Bytes} {port : UInt16} (hne : host ≠ [])
    (hcolon : byte ':' ∉ host) (hport : PortPart portPart port) (path : Bytes) :
    takenParts (host ++ portPart) path = { host, port, path, valid := true } := by
  cases hport with
  | absent => simp [takenParts, upTo_eq_self hcolon, hcolon, hne]
  | @present text _ hspells =>
      have hdrop : (host ++ byte ':' :: text).drop (host.length + 1) = text := by
        rw [List.append_cons, List.drop_left' (by simp)]
      rw [takenParts, upTo_append hcolon, hdrop, if_pos (by simp), portFrom_of_spellsPort hspells]
      simp [hne]

section Exact

variable {parseUrl : Bytes → UrlParts}

/-- An address that is spelled is taken apart. -/
theorem parts_of_spellsUrl (h : ReadsUrls parseUrl) {url host path : Bytes} {port : UInt16}
    (hurl : SpellsUrl url host port path) : parseUrl url = { host, port, path, valid := true } := by
  obtain ⟨hne, hcolon, hslash, hport, hpath⟩ := hurl
  have hfree := slash_not_mem_portPart hport
  rw [h.parts _ _ _ (by simp [hslash, hfree]) hpath, takenParts_host hne hcolon hport]

/-- An address with the scheme is cut at the first slash after it. -/
theorem exists_hostPort_of_prefix {url : Bytes} (h : bytes "http://" <+: url) :
    ∃ hostPort pathPart path, url = bytes "http://" ++ (hostPort ++ pathPart) ∧
      slash ∉ hostPort ∧ PathPart pathPart path := by
  obtain ⟨rest, rfl⟩ := h
  by_cases hslash : slash ∈ rest
  · obtain ⟨more, hmore⟩ := exists_upTo_append hslash
    exact ⟨upTo slash rest, slash :: more, slash :: more, by rw [← hmore],
      stop_not_mem_upTo slash rest, .present more⟩
  · exact ⟨rest, [], [slash], by rw [List.append_nil], hslash, .absent⟩

/-- The text after the first colon of a host and port is all that can be wrong with an address
that is taken as valid. -/
theorem spellsUrl_of_valid (h : ReadsUrls parseUrl) {url : Bytes} (horder : PortInOrder url)
    (hvalid : (parseUrl url).valid = true) : ∃ host port path, SpellsUrl url host port path := by
  by_cases hscheme : bytes "http://" <+: url
  swap
  · rw [h.rejects url hscheme] at hvalid
    cases hvalid
  obtain ⟨hostPort, pathPart, path, rfl, hslash, hpath⟩ := exists_hostPort_of_prefix hscheme
  rw [h.parts _ _ _ hslash hpath] at hvalid
  have hne : upTo (byte ':') hostPort ≠ [] := by simpa [takenParts] using hvalid
  have hcolon := stop_not_mem_upTo (byte ':') hostPort
  by_cases hmem : byte ':' ∈ hostPort
  · obtain ⟨text, htext⟩ := exists_upTo_append hmem
    rw [htext] at hslash horder ⊢
    obtain ⟨hhost, hrest⟩ := not_or.mp (mt List.mem_append.mpr hslash)
    have hfree : slash ∉ text := fun hin => hrest (List.mem_cons_of_mem _ hin)
    obtain ⟨port, hport⟩ := horder _ text pathPart path rfl hne hcolon hhost hfree hpath
    exact ⟨_, port, path, .parts hne hcolon hhost (.present hport) hpath⟩
  · rw [upTo_eq_self hmem] at hne
    have hurl : SpellsUrl _ hostPort 80 path := .parts hne hmem hslash .absent hpath
    rw [List.append_nil] at hurl
    exact ⟨_, _, _, hurl⟩

/-- An address with a colon after its host has a port there, or no parts at all. -/
theorem spellsPort_of_spellsUrl {url host text pathPart path host' path' : Bytes} {port : UInt16}
    (hurl : url = bytes "http://" ++ (host ++ byte ':' :: text ++ pathPart))
    (hcolon : byte ':' ∉ host) (hslash : slash ∉ host ++ byte ':' :: text)
    (hpath : PathPart pathPart path) (h : SpellsUrl url host' port path') :
    SpellsPort text port := by
  obtain ⟨-, hcolon', hslash', hport, hpath'⟩ := h
  rename_i portPart' pathPart'
  have hfree : slash ∉ host' ++ portPart' := by
    simp [hslash', slash_not_mem_portPart hport]
  have hsame : host ++ byte ':' :: text = host' ++ portPart' := by
    rw [← upTo_slash_of_pathPart hslash hpath, ← upTo_slash_of_pathPart hfree hpath',
      List.append_cancel_left hurl]
  cases hport with
  | absent =>
      rw [List.append_nil] at hsame
      exact absurd (by simp [← hsame]) hcolon'
  | present hspells =>
      have hhost : host = host' := by
        rw [← upTo_append hcolon text, hsame, upTo_append hcolon']
      rw [hhost, List.append_cancel_left_eq] at hsame
      obtain ⟨-, rfl⟩ := List.cons.inj hsame
      exact hspells

/-- An address that is taken apart exactly has its port in order. -/
theorem portInOrder_of_exact (h : ReadsUrls parseUrl) {url : Bytes} (hexact : Exact parseUrl url) :
    PortInOrder url := by
  intro host text pathPart path hurl hne hcolon hhost htext hpath
  have hslash : slash ∉ host ++ byte ':' :: text := by
    have hother : slash ≠ byte ':' := by decide
    simp [hhost, htext, hother]
  have hvalid : (parseUrl url).valid = true := by
    rw [hurl, h.parts _ _ _ hslash hpath]
    simpa [takenParts, upTo_append hcolon] using hne
  obtain ⟨host', port, path', hspells⟩ := hexact.valid_iff.mp hvalid
  exact ⟨port, spellsPort_of_spellsUrl hurl hcolon hslash hpath hspells⟩

/-- An address is taken apart exactly when its port is in order. -/
theorem exact_iff_of_readsUrls (h : ReadsUrls parseUrl) (url : Bytes) :
    Exact parseUrl url ↔ PortInOrder url := by
  constructor
  · exact portInOrder_of_exact h
  · intro horder
    refine ⟨⟨spellsUrl_of_valid h horder, ?_⟩, fun host port path => parts_of_spellsUrl h⟩
    rintro ⟨host, port, path, hurl⟩
    rw [parts_of_spellsUrl h hurl]

end Exact

/-- **The address parsers.**  Each of them accepts exactly the well-formed addresses, with their
parts, where the text between the colon after the host and the path is a number of 16 bits.
SRCLINE: WebSeedClient.cpp:34-58, TrackerClient.cpp:43-65 -/
theorem parseHttpUrl_exact_iff (url : Bytes) :
    (Exact parseHttpUrl url ↔ PortInOrder url) ∧
      (Exact TrackerClient.parseHttpUrl url ↔ PortInOrder url) :=
  ⟨exact_iff_of_readsUrls readsUrls_webSeed url, exact_iff_of_readsUrls readsUrls_tracker url⟩

/-- `http://tracker:80x/announce` has no port number, and both functions take it for port 80. -/
theorem parseHttpUrl_exact_fails :
    ¬ (∀ url, Exact parseHttpUrl url ∧ Exact TrackerClient.parseHttpUrl url) ∧
      parseHttpUrl (bytes "http://tracker:80x/announce") =
        { host := bytes "tracker", port := 80, path := bytes "/announce", valid := true } ∧
      TrackerClient.parseHttpUrl (bytes "http://tracker:99999/announce") =
        { host := bytes "tracker", port := 0, path := bytes "/announce", valid := true } := by
  refine ⟨fun h => ?_, by decide +kernel, by decide +kernel⟩
  have horder := (exact_iff_of_readsUrls readsUrls_webSeed _).mp
    (h (bytes "http://tracker:80x/announce")).1
  obtain ⟨port, hport⟩ := horder (bytes "tracker") (bytes "80x") (bytes "/announce") _
    (by decide +kernel) (by decide) (by decide) (by decide) (by decide) (.present _)
  exact absurd hport.1.digits (by decide)

end Vtfs.Analysis
