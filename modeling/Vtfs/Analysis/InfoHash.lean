import Vtfs.Analysis.MetadataLoading
import Vtfs.Analysis.CanonicalEncoding
import Vtfs.Analysis.Sha1Streaming

/-!
# The info hash

`loadFromFile` hashes the re-encoding of the info value, not the bytes of the file.  The two are
the same exactly when the bytes are canonical bencode (`infoHashHex_spec`); the parser also
accepts other spellings, and for these the hash is that of another text.
-/

set_option autoImplicit false

namespace Vtfs.Analysis

open Vtfs.Library
open Vtfs.Model
open Vtfs.Interface

/-! ## Where the info value is -/

section Entries

variable {input : StringView} {key : Bytes}

/-- At one position at most one string is read. -/
theorem readsString_unique {p q q' : ℕ} {text text' : Bytes}
    (h : ReadsString input.bytes p text q) (h' : ReadsString input.bytes p text' q') :
    text = text' ∧ q = q' := by
  obtain ⟨hv, hq⟩ := reads_unique (Reads.string h) (Reads.string h')
  exact ⟨BencodeValue.string.inj hv, hq⟩

/-- The first entry with a key holds the value that the map finds. -/
theorem firstEntry_of_find {p q : ℕ} {entries : List (Bytes × BencodeValue)} {v : BencodeValue}
    (h : ReadsEntries input.bytes p entries q) (hfind : SortedMap.find entries key = some v) :
    ∃ a b, FirstEntry input.bytes key p a v b := by
  induction entries generalizing p with
  | nil => simp [SortedMap.find] at hfind
  | cons entry entries ih =>
      obtain ⟨other, w⟩ := entry
      obtain ⟨_, _, hkey, hvalue, hrest⟩ :
          ∃ a b, ReadsString input.bytes p other a ∧ Reads input.bytes a w b ∧
            ReadsEntries input.bytes b entries q := by
        cases h with
        | entry hkey hvalue hrest => exact ⟨_, _, hkey, hvalue, hrest⟩
      by_cases heq : other = key
      · subst heq
        simp only [SortedMap.find, if_true, Option.some.injEq] at hfind
        subst hfind
        exact ⟨_, _, .here hkey hvalue⟩
      · simp only [SortedMap.find, heq, if_false] at hfind
        obtain ⟨a, b, hfirst⟩ := ih hrest hfind
        exact ⟨a, b, .later hkey heq hvalue hfirst⟩

/-- There is at most one first entry with a key. -/
theorem firstEntry_unique {p a b a' b' : ℕ} {v v' : BencodeValue}
    (h : FirstEntry input.bytes key p a v b) (h' : FirstEntry input.bytes key p a' v' b') :
    a = a' ∧ v = v' ∧ b = b' := by
  induction h with
  | here hkey hvalue =>
      cases h' with
      | here hkey' hvalue' =>
          obtain ⟨-, rfl⟩ := readsString_unique hkey hkey'
          obtain ⟨rfl, rfl⟩ := reads_unique hvalue hvalue'
          exact ⟨rfl, rfl, rfl⟩
      | later hkey' hne _ _ => exact absurd (readsString_unique hkey hkey').1.symm hne
  | later hkey hne hvalue _ ih =>
      cases h' with
      | here hkey' _ => exact absurd (readsString_unique hkey hkey').1 hne
      | later hkey' _ hvalue' hrest' =>
          obtain ⟨-, rfl⟩ := readsString_unique hkey hkey'
          obtain ⟨-, rfl⟩ := reads_unique hvalue hvalue'
          exact ih hrest'

/-- The value of the entry is read where it stands. -/
theorem FirstEntry.reads {s : Bytes} {p a b : ℕ} {v : BencodeValue}
    (h : FirstEntry s key p a v b) : Reads s a v b := by
  induction h with
  | here _ hvalue => exact hvalue
  | later _ _ _ _ ih => exact ih

/-- The value that a parsed root dictionary has for a key, at its place in the text. -/
theorem rootEntry_of_parses {entries : BencodeDictionary} {v : BencodeValue}
    (h : Parses input (.dictionary entries)) (hfind : SortedMap.find entries key = some v) :
    ∃ a b, RootEntry input.bytes key a v b := by
  obtain ⟨q, -, hread⟩ := parses_iff.mp h
  generalize hroot : BencodeValue.dictionary entries = root at hread
  cases hread with
  | dictionary hopen hentries =>
      obtain rfl := BencodeValue.dictionary.inj hroot
      rw [SortedMap.find_emplaceAll List.Pairwise.nil, List.nil_append] at hfind
      obtain ⟨a, b, hfirst⟩ := firstEntry_of_find hentries hfind
      exact ⟨a, b, hopen, hfirst⟩
  | _ => cases hroot

end Entries

/-- **The info hash.**  An accepted file has one info value, with one place in the file.  The
info hash is the SHA-1 of its re-encoding; that is the text at its place if and only if the text
is canonical bencode, and then the info hash is the SHA-1 of the text.
SRCLINE: TorrentMetadata.cpp:37-68 -/
theorem infoHashHex_spec {raw : StringView} {metadata : TorrentMetadata}
    (h : Accepts raw metadata) :
    ∃ a info b, RootEntry raw.bytes (bytes "info") a info b ∧
      (∀ a' info' b', RootEntry raw.bytes (bytes "info") a' info' b' → a' = a ∧ b' = b) ∧
      metadata.infoHashHex = Sha1.toHex (Sha1Standard.sha1 (encodeBencode info)) ∧
      (encodeBencode info = span raw.bytes a b ↔ Canonical (span raw.bytes a b)) ∧
      (Canonical (span raw.bytes a b) →
        metadata.infoHashHex = Sha1.toHex (Sha1Standard.sha1 (span raw.bytes a b))) := by
  obtain ⟨root, hparses, hmetadata⟩ := accepts_iff.mp h
  obtain ⟨entries, info, rfl, hfind, hhash, -, -, -⟩ := metadataOf_eq_ok hmetadata
  obtain ⟨a, b, hroot⟩ := rootEntry_of_parses hparses hfind
  have hreencode := reencode_eq_iff (FirstEntry.reads hroot.2)
  rw [digest_eq_sha1] at hhash
  refine ⟨a, _, b, hroot, ?_, hhash, hreencode, ?_⟩
  · intro a' info' b' h'
    obtain ⟨ha, -, hb⟩ := firstEntry_unique h'.2 hroot.2
    exact ⟨ha, hb⟩
  · intro hcanonical
    rw [hhash, hreencode.mpr hcanonical]

/-! ## A canonical file, and one with a leading zero -/

/-- A torrent whose info dictionary is canonical. -/
def canonicalTorrent : StringView :=
  ⟨bytes "d4:infod6:lengthi1e4:name1:a12:piece lengthi1e6:pieces0:ee", by decide⟩

/-- The same torrent, with the length spelled with a leading zero. -/
def leadingZeroTorrent : StringView :=
  ⟨bytes "d4:infod6:lengthi01e4:name1:a12:piece lengthi1e6:pieces0:ee", by decide⟩

/-- The metadata of both. -/
def oneByteMetadata : TorrentMetadata where
  name := bytes "a"
  infoHashHex := Sha1.toHex (Sha1.digest (span canonicalTorrent.bytes 7 57))
  announceUrl := []
  totalSize := 1
  pieceLength := 1
  pieceCount := 0
  pieceHashes := []
  files := [⟨bytes "a", 1, 0⟩]

/-- The canonical torrent loads. -/
theorem accepts_canonicalTorrent : Accepts canonicalTorrent oneByteMetadata :=
  accepts_of_value? 20 (by decide +kernel)

/-- The torrent with a zero in front of a number loads. -/
theorem accepts_leadingZeroTorrent : Accepts leadingZeroTorrent oneByteMetadata :=
  accepts_of_value? 20 (by decide +kernel)

/-- The info value of `leadingZeroTorrent` is read from 7 to 58. -/
theorem rootEntry_leadingZeroTorrent :
    ∃ info, RootEntry leadingZeroTorrent.bytes (bytes "info") 7 info 58 := by
  have hkey : ReadsString leadingZeroTorrent.bytes 1 (bytes "info") 7 :=
    ⟨bytes "4", ⟨⟨leadingZeroTorrent.bytes.drop 3, by decide +kernel⟩, by decide, by decide,
      by decide⟩, by decide, by decide, by decide +kernel⟩
  have hend : (parseValue leadingZeroTorrent 20 ⟨7, []⟩).state.pos = 58 := by decide +kernel
  have hvalue : ((parseValue leadingZeroTorrent 20 ⟨7, []⟩).value?).isSome = true := by
    decide +kernel
  obtain ⟨info, hinfo⟩ := Option.isSome_iff_exists.mp hvalue
  obtain ⟨s, hs⟩ := Outcome.value?_eq_some_iff.mp hinfo
  rw [hs, Outcome.state_value] at hend
  have hread := (sound leadingZeroTorrent 20).value _ _ _ hs
  rw [hend] at hread
  exact ⟨info, by decide +kernel, .here hkey hread⟩

/-- The canonical torrent. -/
theorem infoHashHex_canonicalTorrent :
    ∃ a info b, RootEntry canonicalTorrent.bytes (bytes "info") a info b ∧
      (encodeBencode info = span canonicalTorrent.bytes a b ↔
        Canonical (span canonicalTorrent.bytes a b)) := by
  obtain ⟨a, info, b, hroot, -, -, hiff, -⟩ := infoHashHex_spec accepts_canonicalTorrent
  exact ⟨a, info, b, hroot, hiff⟩

/-- With a leading zero the info hash is not that of the bytes in the file. -/
theorem infoHashHex_leadingZero :
    ¬ ∀ (raw : StringView) (metadata : TorrentMetadata) (a b : ℕ) (info : BencodeValue),
      Accepts raw metadata → RootEntry raw.bytes (bytes "info") a info b →
        metadata.infoHashHex = Sha1.toHex (Sha1Standard.sha1 (span raw.bytes a b)) := by
  intro h
  obtain ⟨info, hroot⟩ := rootEntry_leadingZeroTorrent
  have hhash := h _ _ _ _ info accepts_leadingZeroTorrent hroot
  rw [← digest_eq_sha1] at hhash
  exact absurd hhash (by decide +kernel)

end Vtfs.Analysis
