import Vtfs.Analysis.TrackerResponses
import Vtfs.Analysis.BencodeRoundTrip

/-!
# Compact lists of peers

One round of the loop reads the six bytes of a peer (`peerAt_of_drop`); the run is an induction on
the peers that are left (`peers_peersLoop`).  What the loop reads, and how many peers it finds, is
said for any blob.
-/

set_option autoImplicit false

namespace Vtfs.Analysis

open Vtfs.Library
open Vtfs.Library.BigEndian (bigEndian or_eq_add_of_dvd)
open Vtfs.Model
open Vtfs.Model.TrackerClient
open Vtfs.Interface

/-! ## One peer -/

/-- The shifts put the two bytes of a port together. -/
theorem port_of_bigEndian (port : UInt16) :
    (UInt8.ofNat (port.toNat / 256)).toUInt16 <<< 8 ||| (UInt8.ofNat port.toNat).toUInt16 =
      port := by
  apply UInt16.toNat_inj.mp
  have hport := port.toNat_lt
  have hhigh : port.toNat / 256 % 256 * 256 % 65536 = port.toNat / 256 * 2 ^ 8 := by omega
  have hor : port.toNat / 256 * 2 ^ 8 ||| port.toNat % 256 =
      port.toNat / 256 * 2 ^ 8 + port.toNat % 256 :=
    or_eq_add_of_dvd (k := 8) (by omega) (by omega)
  simp only [UInt16.toNat_or, UInt16.toNat_shiftLeft, UInt8.toNat_toUInt16, UInt8.toNat_ofNat',
    UInt16.toNat_ofNat, Nat.shiftLeft_eq, Nat.reduceMod, Nat.reducePow]
  rw [hhigh, hor]
  omega

/-- The six bytes of a peer are read as the peer. -/
theorem peerAt_of_drop {blob rest : Bytes} {i : ℕ} {p : Ipv4Peer}
    (h : blob.drop i = p.compact ++ rest) : peerAt blob i = p.dotted := by
  have hat : ∀ k, blob.getD (i + k) 0 = (p.compact ++ rest).getD k 0 := by
    intro k
    rw [← h, List.getD_eq_getElem?_getD, List.getD_eq_getElem?_getD, List.getElem?_drop]
  have hcompact : p.compact = [p.a, p.b, p.c, p.d, UInt8.ofNat (p.port.toNat / 256),
      UInt8.ofNat p.port.toNat] := by
    simp [Ipv4Peer.compact, bigEndian, List.range_succ]
  rw [hcompact] at hat
  simp only [peerAt, hat, Ipv4Peer.dotted]
  exact congrArg (TrackerPeer.mk _) (port_of_bigEndian p.port)

/-! ## The loop -/

section Loop

variable {blob : Bytes} {i : ℕ}

/-- Six bytes make a peer, and are all that is read for it. -/
theorem peersLoop_step (h : i + 5 < blob.length) (sofar : CompactPeers) :
    peersLoop blob i sofar = peersLoop blob (i + 6)
      ⟨sofar.peers ++ [peerAt blob i], sofar.reads ++ [i, i + 1, i + 2, i + 3, i + 4, i + 5]⟩ := by
  rw [peersLoop, if_pos h]

/-- With fewer the loop ends. -/
theorem peersLoop_stop (h : blob.length ≤ i + 5) (sofar : CompactPeers) :
    peersLoop blob i sofar = sofar := by
  rw [peersLoop, if_neg (not_lt.mpr h)]

/-- The loop over the rest of a compact list. -/
theorem peers_peersLoop {peers : List Ipv4Peer} {tail : Bytes} (htail : tail.length < 6)
    (h : blob.drop i = compactList peers ++ tail) (sofar : CompactPeers) :
    (peersLoop blob i sofar).peers = sofar.peers ++ peers.map Ipv4Peer.dotted := by
  induction peers generalizing i sofar with
  | nil =>
      have hlength := congrArg List.length h
      simp only [compactList, List.flatMap_nil, List.nil_append, List.length_drop] at hlength
      rw [peersLoop_stop (by omega), List.map_nil, List.append_nil]
  | cons p rest ih =>
      have hsplit : blob.drop i = p.compact ++ (compactList rest ++ tail) := by
        rw [h, compactList, List.flatMap_cons, List.append_assoc]
        rfl
      have hsix : p.compact.length = 6 := by simp [Ipv4Peer.compact]
      have hrest : blob.drop (i + 6) = compactList rest ++ tail := by
        rw [← hsix]
        exact drop_of_append p.compact hsplit
      have hlength := congrArg List.length hsplit
      simp only [List.length_drop, List.length_append, hsix] at hlength
      rw [peersLoop_step (by omega), ih hrest, peerAt_of_drop hsplit, List.map_cons,
        List.append_assoc, List.singleton_append]

/-- Six bytes for each peer that is found. -/
theorem length_peersLoop (sofar : CompactPeers) : (peersLoop blob i sofar).peers.length =
    sofar.peers.length + (blob.length - i) / 6 := by
  fun_induction peersLoop blob i sofar with
  | case1 i sofar h ih =>
      rw [ih, List.length_append, List.length_singleton]
      omega
  | case2 i sofar h => omega

/-- The loop reads inside the blob. -/
theorem reads_peersLoop (sofar : CompactPeers) (hsofar : ∀ k ∈ sofar.reads, k < blob.length) :
    ∀ k ∈ (peersLoop blob i sofar).reads, k < blob.length := by
  fun_induction peersLoop blob i sofar with
  | case1 i sofar h ih =>
      apply ih
      intro k hk
      rcases List.mem_append.mp hk with hk | hk
      · exact hsofar k hk
      · simp only [List.mem_cons, List.not_mem_nil, or_false] at hk
        omega
  | case2 i sofar h => exact hsofar

end Loop

/-! ## The response to an encoded dictionary -/

/-- What is written for a value is parsed to it. -/
theorem parses_encodeBencode (v : MappedValue)
    (hsize : (encodeBencode v.value).length < sizeLimit) :
    Parses ⟨encodeBencode v.value, hsize⟩ v.value :=
  parses_of_derives (derives_encodeBencode v.value v.ordered)

/-- A tracker that writes a value is understood as this value says. -/
theorem responds_encodeBencode (v : MappedValue)
    (hsize : (encodeBencode v.value).length < sizeLimit) (result : Option TrackerResponse) :
    Responds ⟨encodeBencode v.value, hsize⟩ result ↔ result = trackerResponseOf v.value := by
  have hparses := parses_encodeBencode v hsize
  rw [responds_iff]
  constructor
  · rintro ⟨w, hw, rfl⟩
    rw [parses_unique hw hparses]
  · rintro rfl
    exact ⟨v.value, hparses, rfl⟩

/-- **Compact peers.**  The bencoding of a dictionary with a text of peers has one response, with
the peers of every compact list that the text is but for a tail of fewer than six bytes, one for
every six bytes, and nothing is read outside the text.
SRCLINE: TrackerClient.cpp:115-137 -/
theorem compactPeers_decoded (v : MappedValue) {entries : List (Bytes × BencodeValue)}
    (hroot : v.value = .dictionary entries) {blob : Bytes}
    (hblob : SortedMap.find entries (bytes "peers") = some (.string blob))
    (hsize : (encodeBencode v.value).length < sizeLimit) :
    ∃ response : TrackerResponse,
      (∀ result, Responds ⟨encodeBencode v.value, hsize⟩ result ↔ result = some response) ∧
      (∀ peers tail, tail.length < 6 → blob = compactList peers ++ tail →
        response.peers = peers.map Ipv4Peer.dotted) ∧
      response.peers.length = blob.length / 6 ∧
      response.peers = (compactPeers blob).peers ∧
      ∀ k ∈ (compactPeers blob).reads, k < blob.length := by
  obtain ⟨response, hresponse, hpeers⟩ : ∃ response, trackerResponseOf v.value = some response ∧
      response.peers = (compactPeers blob).peers := by
    rw [hroot]
    exact ⟨_, rfl, by simp [hblob]⟩
  refine ⟨response, fun result => ?_, ?_, ?_, hpeers, reads_peersLoop _ (by simp)⟩
  · rw [responds_encodeBencode, hresponse]
  · intro peers tail htail hlist
    rw [hpeers, compactPeers, peers_peersLoop htail (by rw [List.drop_zero, hlist])]
    simp
  · rw [hpeers, compactPeers, length_peersLoop]
    simp

/-- A dictionary with one peer and a tail of two bytes. -/
def onePeer : MappedValue where
  value := .dictionary [(bytes "peers", .string [10, 0, 0, 1, 0x1A, 0xE1, 7, 7])]
  ordered := ⟨List.pairwise_singleton _ _, trivial, trivial⟩

/-- An answer with one peer. -/
theorem compactPeers_decoded_onePeer :
    ∃ response, Responds ⟨encodeBencode onePeer.value, by decide +kernel⟩ (some response) ∧
      response.peers = [⟨bytes "10.0.0.1", 6881⟩] := by
  obtain ⟨response, hresponds, hpeers, -⟩ :=
    compactPeers_decoded onePeer rfl (by rfl) (by decide +kernel)
  refine ⟨response, (hresponds _).mpr rfl, ?_⟩
  rw [hpeers [⟨10, 0, 0, 1, 6881⟩] [7, 7] (by decide) (by decide)]
  decide +kernel

end Vtfs.Analysis
