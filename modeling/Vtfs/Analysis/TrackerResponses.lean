import Vtfs.Interface.TrackerResponses
import Vtfs.Analysis.BencodeGrammar

/-!
# What `announce` returns

`parseTrackerResponse` makes a response of a dictionary and gives up on other values, but it does
not catch what the parser throws (TrackerClient.cpp:116).  So `announce` returns exactly where the
parser does (`responds_iff`), and that is where the body is a text of the grammar.
-/

set_option autoImplicit false

namespace Vtfs.Analysis

open Vtfs.Library
open Vtfs.Library.Decimal (isDigit)
open Vtfs.Model
open Vtfs.Model.TrackerClient
open Vtfs.Interface

/-! ## Bodies that are parsed -/

/-- The texts that are parsed. -/
theorem bencodeText_iff {input : StringView} :
    BencodeText input.bytes ↔ ∃ v, Parses input v := by
  constructor
  · rintro (⟨v, hderives⟩ | ⟨q, hend, hwraps⟩)
    · exact ⟨v, parses_of_derives hderives⟩
    · obtain ⟨v, hparses, -⟩ := parses_not_derives_of_wraps hend hwraps
      exact ⟨v, hparses⟩
  · rintro ⟨v, hparses⟩
    by_cases hwraps : ∃ q, input.bytes.length ≤ q ∧ Wraps input.bytes 0 q
    · exact Or.inr hwraps
    · obtain ⟨q, hend, hread⟩ := parses_iff.mp hparses
      obtain ⟨spelling, hderives, hsplit⟩ :=
        derives_of_reads hread fun h => hwraps ⟨q, hend, h⟩
      rw [List.drop_zero, List.drop_eq_nil_of_le hend, List.append_nil] at hsplit
      exact Or.inl ⟨v, hsplit ▸ hderives⟩

/-- The first byte of a text tells whether its value is a dictionary. -/
theorem isSome_trackerResponseOf_iff {s : Bytes} {q : ℕ} {v : BencodeValue} (h : Reads s 0 v q) :
    (trackerResponseOf v).isSome = true ↔ s.head? = some (byte 'd') := by
  rw [List.head?_eq_getElem?]
  cases h with
  | integer hc _ => simp [trackerResponseOf, hc]; decide
  | string hstring =>
      obtain ⟨token, hheader, -⟩ := hstring
      obtain ⟨c, hc, hdigit⟩ := hheader.first
      have hne : c ≠ byte 'd' := fun heq => absurd (heq ▸ hdigit) (by decide)
      simp [trackerResponseOf, hc, hne]
  | list hc _ => simp [trackerResponseOf, hc]; decide
  | dictionary hc _ => simp [trackerResponseOf, hc]

/-- An answer is understood as its value says. -/
theorem responds_iff {body : StringView} {result : Option TrackerResponse} :
    Responds body result ↔ ∃ v, Parses body v ∧ trackerResponseOf v = result := by
  constructor
  · rintro ⟨fuel, s, hrun⟩
    unfold parseTrackerResponse at hrun
    cases hparse : parse body fuel with
    | value v t =>
        rw [hparse] at hrun
        exact ⟨v, ⟨fuel, t, hparse⟩, (Outcome.value.inj hrun).1⟩
    | thrown e t => simp [hparse] at hrun
    | running t => simp [hparse] at hrun
  · rintro ⟨v, ⟨fuel, s, hparse⟩, rfl⟩
    exact ⟨fuel, s, by rw [parseTrackerResponse, hparse]⟩

/-! ## The result of `announce` -/

section Announce

variable {network : TrackerNetwork} {a : Announcement}

/-- Without a body there is no response. -/
theorem announce_of_noBody (h : Connects network a) (hbody : bodyOf network a = none)
    (fuel : ℕ) : announce network a fuel = .value none parserStart := by
  rw [bodyOf] at hbody
  simp only [announce, h.valid, h.opened, hbody, not_true_eq_false, if_false]

/-- With a body the response is what is parsed of it. -/
theorem announce_of_body (h : Connects network a) {body : StringView}
    (hbody : bodyOf network a = some body) (fuel : ℕ) :
    announce network a fuel = parseTrackerResponse body fuel := by
  rw [bodyOf] at hbody
  simp only [announce, h.valid, h.opened, hbody, not_true_eq_false, if_false]

/-- With a body, `announce` returns what `parseTrackerResponse` returns. -/
theorem announces_iff_responds (h : Connects network a) {body : StringView}
    (hbody : bodyOf network a = some body) (result : Option TrackerResponse) :
    Announces network a result ↔ Responds body result := by
  simp only [Announces, Responds, announce_of_body h hbody]

/-- Without a body an announcement ends normally. -/
theorem announcesNormally_of_noBody (h : Connects network a) (hbody : bodyOf network a = none) :
    AnnouncesNormally network a := by
  refine ⟨none, ⟨0, parserStart, announce_of_noBody h hbody 0⟩, ?_⟩
  simp [hbody]

/-- With a text for a body too. -/
theorem announcesNormally_of_text (h : Connects network a) {body : StringView}
    (hbody : bodyOf network a = some body) (htext : BencodeText body.bytes) :
    AnnouncesNormally network a := by
  obtain ⟨v, hparses⟩ := bencodeText_iff.mp htext
  obtain ⟨q, -, hread⟩ := parses_iff.mp hparses
  refine ⟨trackerResponseOf v, ?_, ?_⟩
  · exact (announces_iff_responds h hbody _).mpr (responds_iff.mpr ⟨v, hparses, rfl⟩)
  · rw [isSome_trackerResponseOf_iff hread]
    constructor
    · exact fun hfirst => ⟨body, hbody, ⟨htext, hfirst⟩⟩
    · rintro ⟨body', hbody', hdictionary⟩
      obtain rfl : body = body' := Option.some.inj (hbody.symm.trans hbody')
      exact hdictionary.first

/-- When it ends normally, the body is a text. -/
theorem text_of_announcesNormally (h : Connects network a) (hnormal : AnnouncesNormally network a)
    {body : StringView} (hbody : bodyOf network a = some body) : BencodeText body.bytes := by
  obtain ⟨result, hresult, -⟩ := hnormal
  obtain ⟨v, hparses, -⟩ := responds_iff.mp ((announces_iff_responds h hbody result).mp hresult)
  exact bencodeText_iff.mpr ⟨v, hparses⟩

/-- **Announcing.**  Once there is a connection, `announce` returns, with a response exactly for a
dictionary, if and only if what follows the first end of a header, if there is one, is a bencode
text.
SRCLINE: TrackerClient.cpp:115-137, TrackerClient.cpp:177-197 -/
theorem announce_returns_iff (h : Connects network a) :
    AnnouncesNormally network a ↔
      ∀ body, bodyOf network a = some body → BencodeText body.bytes := by
  constructor
  · exact fun hnormal body => text_of_announcesNormally h hnormal
  · intro htext
    cases hbody : bodyOf network a with
    | none => exact announcesNormally_of_noBody h hbody
    | some body => exact announcesNormally_of_text h hbody (htext body hbody)

end Announce

/-! ## A tracker that answers with a page -/

/-- A tracker that sends one chunk to whoever connects. -/
def sending (chunk : Bytes) (hne : chunk ≠ []) (hfits : chunk.length ≤ 4096) : TrackerNetwork where
  openSocket _ _ := true
  answer _ :=
    { chunks := [chunk]
      nonempty := by simpa using hne
      fits := by simpa using hfits
      size_lt := by
        have hlimit : 4096 < sizeLimit := by decide
        simp only [List.flatten_cons, List.flatten_nil, List.append_nil]
        omega }

/-- An announcement to `http://tracker/announce`. -/
def plainAnnouncement : Announcement where
  announceUrl := bytes "http://tracker/announce"
  infoHash := List.replicate 20 0
  peerId := List.replicate 20 0
  downloaded := 0
  left := 1
  uploaded := 0

/-- The body of an answer in one chunk. -/
theorem bodyOf_sending {chunk before after : Bytes} (hne : chunk ≠ [])
    (hfits : chunk.length ≤ 4096) (hcut : cutAt endOfHeader chunk = some (before, after))
    (a : Announcement) : ∃ hsize, bodyOf (sending chunk hne hfits) a = some ⟨after, hsize⟩ := by
  have hreceived : cutAt endOfHeader ((sending chunk hne hfits).answer
      (announceRequest (TrackerClient.parseHttpUrl a.announceUrl) a)).received =
        some (before, after) := by
    rw [Transmission.received_eq]
    simpa [sending] using hcut
  exact Transmission.body_of_cutAt hreceived

/-- The answer has an empty dictionary after its header. -/
theorem announce_returns_emptyDictionary :
    AnnouncesNormally (sending (bytes "HTTP/1.1 200 OK\r\n\r\nde") (by decide) (by decide))
      plainAnnouncement := by
  refine (announce_returns_iff ⟨by decide +kernel, rfl⟩).mpr fun body hbody => ?_
  have hcut : cutAt endOfHeader (bytes "HTTP/1.1 200 OK\r\n\r\nde") =
      some (bytes "HTTP/1.1 200 OK", bytes "de") := by decide +kernel
  obtain ⟨hsize, heq⟩ := bodyOf_sending (by decide) (by decide) hcut plainAnnouncement
  obtain rfl := Option.some.inj (hbody.symm.trans heq)
  exact Or.inl ⟨_, .dictionary .nil⟩

/-- The answer is a page. -/
def pageNetwork : TrackerNetwork :=
  sending (bytes "HTTP/1.1 404 Not Found\r\n\r\nnot found") (by decide) (by decide)

/-- The body of a page. -/
theorem bodyOf_page :
    ∃ hsize, bodyOf pageNetwork plainAnnouncement = some ⟨bytes "not found", hsize⟩ := by
  have hcut : cutAt endOfHeader (bytes "HTTP/1.1 404 Not Found\r\n\r\nnot found") =
      some (bytes "HTTP/1.1 404 Not Found", bytes "not found") := by decide +kernel
  exact bodyOf_sending (by decide) (by decide) hcut plainAnnouncement

/-- The page is received. -/
theorem connects_page : Connects pageNetwork plainAnnouncement := ⟨by decide +kernel, rfl⟩

/-- A page is no response, and an exception is thrown. -/
theorem announce_page (fuel : ℕ) : ∃ s, announce pageNetwork plainAnnouncement (fuel + 1) =
    .thrown (.runtimeError "Invalid bencode token.") s := by
  obtain ⟨hsize, hbody⟩ := bodyOf_page
  exact ⟨_, (announce_of_body connects_page hbody (fuel + 1)).trans rfl⟩

/-- A page after the header makes the parser throw, and nothing catches it. -/
theorem announce_returns_fails :
    ¬ (∀ network a, Connects network a → AnnouncesNormally network a) ∧
      ∀ fuel, ∃ s, announce pageNetwork plainAnnouncement (fuel + 1) =
        .thrown (.runtimeError "Invalid bencode token.") s := by
  refine ⟨fun h => ?_, announce_page⟩
  obtain ⟨hsize, hbody⟩ := bodyOf_page
  obtain ⟨result, ⟨fuel, s, hrun⟩, -⟩ := h pageNetwork plainAnnouncement connects_page
  cases fuel with
  | zero =>
      rw [announce_of_body connects_page hbody] at hrun
      cases hrun
  | succ fuel =>
      obtain ⟨t, hthrown⟩ := announce_page fuel
      rw [hthrown] at hrun
      cases hrun

end Vtfs.Analysis
