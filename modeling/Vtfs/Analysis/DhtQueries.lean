import Vtfs.Interface.DhtQueries
import Vtfs.Analysis.CompactPeers
import Vtfs.Analysis.CanonicalEncoding

/-!
# Queries are read back

Every query is the encoding of a dictionary that a `std::map` can hold, whatever its arguments are
(`ordered_queryRoot`), and the entries are found under their names (`receivedQuery_queryRoot`).  So
the node that parses it reads what was asked for, and by the round trip of the encoding no query is
part of another one.
-/

set_option autoImplicit false

namespace Vtfs.Analysis

open Vtfs.Library
open Vtfs.Model
open Vtfs.Interface

/-! ## The dictionary of a query -/

section Root

variable {txId method : Bytes} {args : List (Bytes × BencodeValue)}

/-- Entries with ordered values make an ordered dictionary. -/
theorem ordered_emplaceAll {entries : List (Bytes × BencodeValue)}
    (h : ∀ entry ∈ entries, entry.2.Ordered) :
    (BencodeValue.dictionary (SortedMap.emplaceAll [] entries)).Ordered := by
  refine ⟨SortedMap.emplaceAll_ascending List.Pairwise.nil _,
    orderedEntries_iff.mpr fun entry hentry => ?_⟩
  exact h entry ((SortedMap.mem_emplaceAll hentry).resolve_left List.not_mem_nil)

/-- A query is a value that the program can hold. -/
theorem ordered_queryRoot (h : ∀ entry ∈ args, entry.2.Ordered) :
    (queryRoot txId method args).Ordered := by
  refine ordered_emplaceAll fun entry hentry => ?_
  simp only [List.mem_cons, List.not_mem_nil, or_false] at hentry
  obtain rfl | rfl | rfl | rfl := hentry
  · trivial
  · trivial
  · trivial
  · exact ordered_emplaceAll h

/-- What was emplaced first under a name is found. -/
theorem find_emplaceAll_nil (entries : List (Bytes × BencodeValue)) (name : Bytes) :
    SortedMap.find (SortedMap.emplaceAll [] entries) name = SortedMap.find entries name :=
  SortedMap.find_emplaceAll List.Pairwise.nil entries name

/-- An id that was written is found. -/
theorem idAt_of_find {entries : BencodeDictionary} {name : Bytes} {id : List.Vector UInt8 20}
    (h : SortedMap.find entries name = some (byteString id)) : idAt entries name = some id := by
  have htext : textAt entries name = some id.toList := by rw [textAt, h]; rfl
  rw [idAt, htext]
  exact dif_pos id.toList_length

/-- The entries of a query are found, and what is asked for is up to the arguments. -/
theorem receivedQuery_queryRoot {sender : List.Vector UInt8 20} {query : DhtQuery}
    (hsender : SortedMap.find args (bytes "id") = some (byteString sender))
    (hquery : askedFor method (SortedMap.emplaceAll [] args) = some query) :
    receivedQuery (queryRoot txId method args) = some { txId, sender, query } := by
  have hid : idAt (SortedMap.emplaceAll [] args) (bytes "id") = some sender :=
    idAt_of_find ((find_emplaceAll_nil _ _).trans hsender)
  have hkind : bytes "t" ≠ bytes "y" ∧ bytes "t" ≠ bytes "q" ∧ bytes "t" ≠ bytes "a" ∧
      bytes "y" ≠ bytes "q" ∧ bytes "y" ≠ bytes "a" ∧ bytes "q" ≠ bytes "a" := by decide
  simp [receivedQuery, queryRoot, textAt, find_emplaceAll_nil, SortedMap.find, hkind, hid, hquery]

end Root

/-! ## The four queries -/

/-- A text that was written is found. -/
theorem textAt_of_find {entries : BencodeDictionary} {name text : Bytes}
    (h : SortedMap.find entries name = some (.string text)) : textAt entries name = some text := by
  rw [textAt, h]

/-- A number that is a port is the port, when none is implied. -/
theorem portAt_of_number {entries : BencodeDictionary} {number : ℤ}
    (hnumber : numberAt entries (bytes "port") = some number)
    (himplied : numberAt entries (bytes "implied_port") = some 0)
    (hrange : 0 ≤ number ∧ number < 65536) :
    portAt entries = some (UInt16.ofNat number.toNat) := by
  simp only [portAt, hnumber, himplied, Option.bind_eq_bind, Option.bind_some, Option.getD_some]
  exact if_pos ⟨trivial, hrange⟩

/-- A port that was written is found, when the port of the sender is not to be taken. -/
theorem portAt_of_find {entries : BencodeDictionary} {port : UInt16}
    (hport : SortedMap.find entries (bytes "port") = some (.integer (Int64.ofNat port.toNat)))
    (himplied : SortedMap.find entries (bytes "implied_port") = some (.integer 0)) :
    portAt entries = some port := by
  have hlt : port.toNat < 2 ^ 16 := port.toNat_lt
  have hsigned : port.toNat < 2 ^ 63 := hlt.trans (Nat.pow_lt_pow_right (by decide) (by decide))
  have hnumber : numberAt entries (bytes "port") = some (port.toNat : ℤ) := by
    rw [numberAt, hport, ← Int64.toInt_ofNat_of_lt hsigned]
  have hzero : numberAt entries (bytes "implied_port") = some 0 := by
    rw [numberAt, himplied, ← Int64.toInt_zero]
  rw [portAt_of_number hnumber hzero (by omega), Int.toNat_natCast, UInt16.ofNat_toNat]

section Methods

variable {args : BencodeDictionary}

/-- The query for a node is understood. -/
theorem askedFor_findNode {target : List.Vector UInt8 20}
    (h : SortedMap.find args (bytes "target") = some (byteString target)) :
    askedFor (bytes "find_node") args = some (.findNode target) := by
  rw [askedFor, if_neg (by decide), if_pos rfl, idAt_of_find h, Option.map_some]

/-- The query for peers is understood. -/
theorem askedFor_getPeers {infoHash : List.Vector UInt8 20}
    (h : SortedMap.find args (bytes "info_hash") = some (byteString infoHash)) :
    askedFor (bytes "get_peers") args = some (.getPeers infoHash) := by
  rw [askedFor, if_neg (by decide), if_neg (by decide), if_pos rfl, idAt_of_find h,
    Option.map_some]

/-- The announcement is understood. -/
theorem askedFor_announcePeer {infoHash : List.Vector UInt8 20} {port : UInt16} {token : Bytes}
    (hinfoHash : SortedMap.find args (bytes "info_hash") = some (byteString infoHash))
    (hport : SortedMap.find args (bytes "port") = some (.integer (Int64.ofNat port.toNat)))
    (htoken : SortedMap.find args (bytes "token") = some (.string token))
    (himplied : SortedMap.find args (bytes "implied_port") = some (.integer 0)) :
    askedFor (bytes "announce_peer") args = some (.announcePeer infoHash port token) := by
  rw [askedFor, if_neg (by decide), if_neg (by decide), if_neg (by decide), if_pos rfl,
    idAt_of_find hinfoHash, portAt_of_find hport himplied, textAt_of_find htoken]
  rfl

end Methods

/-- The value that is encoded for a query. -/
theorem exists_builtQuery (client : DhtClient) (txId : Bytes) (query : DhtQuery) :
    ∃ root : MappedValue, builtQuery client txId query = encodeBencode root.value ∧
      receivedQuery root.value = some { txId, sender := client.nodeId, query } := by
  have hfind := find_emplaceAll_nil
  cases query with
  | ping =>
      refine ⟨⟨_, ordered_queryRoot ?_⟩, rfl, receivedQuery_queryRoot rfl rfl⟩
      simp [byteString, BencodeValue.Ordered]
  | findNode target =>
      refine ⟨⟨_, ordered_queryRoot ?_⟩, rfl, receivedQuery_queryRoot rfl ?_⟩
      · simp [byteString, BencodeValue.Ordered]
      · exact askedFor_findNode (hfind _ _)
  | getPeers infoHash =>
      refine ⟨⟨_, ordered_queryRoot ?_⟩, rfl, receivedQuery_queryRoot rfl ?_⟩
      · simp [byteString, BencodeValue.Ordered]
      · exact askedFor_getPeers (hfind _ _)
  | announcePeer infoHash port token =>
      refine ⟨⟨_, ordered_queryRoot ?_⟩, rfl, receivedQuery_queryRoot rfl ?_⟩
      · simp [byteString, BencodeValue.Ordered]
      · exact askedFor_announcePeer (hfind _ _) (hfind _ _) (hfind _ _) (hfind _ _)

/-- **Queries.**  Whatever its arguments are, a query is a canonical text with one value, in which
a node finds the transaction, the id of the client and what is asked for; and no query is all or
the beginning of another one, by another client, for another transaction or for anything else.
SRCLINE: DhtClient.cpp:11-88 -/
theorem builtQuery_received (client : DhtClient) (txId : Bytes) (query : DhtQuery)
    (hsize : (builtQuery client txId query).length < sizeLimit) :
    Canonical (builtQuery client txId query) ∧
    (∃ root, (∀ v, Parses ⟨builtQuery client txId query, hsize⟩ v ↔ v = root) ∧
      receivedQuery root = some { txId, sender := client.nodeId, query }) ∧
    ∀ client' txId' query', builtQuery client' txId' query' <+: builtQuery client txId query →
      client' = client ∧ txId' = txId ∧ query' = query := by
  obtain ⟨root, htext, hreceived⟩ := exists_builtQuery client txId query
  have hroot : (encodeBencode root.value).length < sizeLimit := by rwa [← htext]
  refine ⟨?_, ⟨root.value, fun v => ?_, hreceived⟩, fun client' txId' query' hprefix => ?_⟩
  · rw [htext]
    exact canonical_encodeBencode root.value root.ordered
  · have hderives : Derives (builtQuery client txId query) root.value := by
      rw [htext]
      exact derives_encodeBencode root.value root.ordered
    have hparses : Parses ⟨builtQuery client txId query, hsize⟩ root.value :=
      parses_of_derives hderives
    exact ⟨fun hv => parses_unique hv hparses, fun hv => hv ▸ hparses⟩
  · obtain ⟨root', htext', hreceived'⟩ := exists_builtQuery client' txId' query'
    rw [htext, htext'] at hprefix
    rw [encodeBencode_prefixFree hroot hprefix, hreceived] at hreceived'
    obtain ⟨htx, hsender, hquery⟩ := ReceivedQuery.mk.inj (Option.some.inj hreceived')
    obtain ⟨id⟩ := client
    obtain ⟨id'⟩ := client'
    exact ⟨congrArg DhtClient.mk hsender.symm, htx.symm, hquery.symm⟩

/-- An announcement for a transaction whose name looks like an entry. -/
theorem builtQuery_received_announcement :
    ∃ root, Parses ⟨builtQuery ⟨List.Vector.replicate 20 7⟩ (bytes "1:y1:q")
        (.announcePeer (List.Vector.replicate 20 255) 6881 (bytes "e")), by decide +kernel⟩ root ∧
      receivedQuery root = some
        { txId := bytes "1:y1:q", sender := List.Vector.replicate 20 7
          query := .announcePeer (List.Vector.replicate 20 255) 6881 (bytes "e") } := by
  obtain ⟨-, ⟨root, hparses, hreceived⟩, -⟩ := builtQuery_received
    ⟨List.Vector.replicate 20 7⟩ (bytes "1:y1:q")
    (.announcePeer (List.Vector.replicate 20 255) 6881 (bytes "e")) (by decide +kernel)
  exact ⟨root, (hparses root).mpr rfl, hreceived⟩

end Vtfs.Analysis
