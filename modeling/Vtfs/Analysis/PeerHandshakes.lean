import Vtfs.Interface.PeerHandshakes

/-!
# What is taken as a handshake

A handshake of 68 bytes is its first byte, the name of the protocol and three fields
(`take_handshake`).  The decoder reads the first byte and the fields and passes over the name, so
it is the inverse of the encoder where the data names the protocol, and nowhere else.
-/

set_option autoImplicit false

namespace Vtfs.Analysis

open Vtfs.Library
open Vtfs.Model
open Vtfs.Interface

/-! ## The codec -/

/-- The fields of a handshake lie one behind the other. -/
theorem take_handshake (data : Bytes) :
    data.take 68 = data.take 1 ++ (protocolField data ++ ((data.drop 20).take 8 ++
      (infoHashField data ++ (data.drop 48).take 20))) := by
  have hname : data.take 68 = data.take 1 ++ (data.drop 1).take 67 := by
    rw [show 68 = 1 + 67 from rfl, List.take_add]
  have hreserved : (data.drop 1).take 67 =
      (data.drop 1).take 19 ++ (data.drop 20).take 48 := by
    rw [show 67 = 19 + 48 from rfl, List.take_add, List.drop_drop]
  have hinfoHash : (data.drop 20).take 48 =
      (data.drop 20).take 8 ++ (data.drop 28).take 40 := by
    rw [show 48 = 8 + 40 from rfl, List.take_add, List.drop_drop]
  have hpeerId : (data.drop 28).take 40 =
      (data.drop 28).take 20 ++ (data.drop 48).take 20 := by
    rw [show 40 = 20 + 20 from rfl, List.take_add, List.drop_drop]
  rw [hname, hreserved, hinfoHash, hpeerId, protocolField, infoHashField]

/-- So they are written. -/
theorem encodeHandshake_eq (hs : Handshake) :
    encodeHandshake hs = [19] ++ (protocol ++ (hs.reserved.toList ++
      (hs.infoHash.toList ++ hs.peerId.toList))) := by
  have hlength : UInt8.ofNat protocol.length = 19 := by decide
  simp only [encodeHandshake, hlength, List.append_assoc, List.cons_append, List.nil_append]

/-- A handshake is decoded when its fields are there, and to these. -/
theorem decodeHandshake_eq_some_iff {data : Bytes} {hs : Handshake} :
    decodeHandshake data = some hs ↔ 68 ≤ data.length ∧ data[0]? = some 19 ∧
      (data.drop 20).take 8 = hs.reserved.toList ∧ infoHashField data = hs.infoHash.toList ∧
      (data.drop 48).take 20 = hs.peerId.toList := by
  obtain ⟨reserved, infoHash, peerId⟩ := hs
  unfold decodeHandshake
  by_cases h : data.length < 68 ∨ data[0]? ≠ some 19
  · rw [dif_pos h]
    refine iff_of_false (by simp) fun hfields => ?_
    rcases h with hshort | hfirst
    · exact absurd hfields.1 (not_le.mpr hshort)
    · exact hfirst hfields.2.1
  · obtain ⟨hsize, hfirst⟩ := not_or.mp h
    rw [dif_neg h]
    simp only [Option.some.injEq, Handshake.mk.injEq, not_lt.mp hsize, not_not.mp hfirst, true_and]
    exact and_congr Subtype.ext_iff (and_congr Subtype.ext_iff Subtype.ext_iff)

/-- The first 68 bytes are an encoded handshake if and only if it is what is decoded and they
name the protocol. -/
theorem take_eq_encodeHandshake_iff {data : Bytes} (hsize : 68 ≤ data.length) (hs : Handshake) :
    data.take 68 = encodeHandshake hs ↔
      decodeHandshake data = some hs ∧ protocolField data = protocol := by
  have hfirst : data.take 1 = [19] ↔ data[0]? = some 19 := by
    cases data with
    | nil => simp
    | cons c cs => simp
  rw [take_handshake, encodeHandshake_eq, decodeHandshake_eq_some_iff]
  constructor
  · intro heq
    obtain ⟨h19, heq⟩ := List.append_inj heq (by simp; omega)
    obtain ⟨hname, heq⟩ := List.append_inj heq (by
      rw [protocolField, List.length_take, List.length_drop, Nat.min_eq_left (by omega)]
      decide)
    obtain ⟨hreserved, heq⟩ := List.append_inj heq (by simp; omega)
    obtain ⟨hinfoHash, hpeerId⟩ := List.append_inj heq (by simp [infoHashField]; omega)
    exact ⟨⟨hsize, hfirst.mp h19, hreserved, hinfoHash, hpeerId⟩, hname⟩
  · rintro ⟨⟨-, h19, hreserved, hinfoHash, hpeerId⟩, hname⟩
    rw [hfirst.mpr h19, hname, hreserved, hinfoHash, hpeerId]

/-- Data that is as long as a handshake and begins like one is decoded, whatever it names. -/
theorem exists_decodeHandshake {data : Bytes} (hsize : 68 ≤ data.length)
    (hfirst : data[0]? = some 19) : ∃ hs, decodeHandshake data = some hs := by
  have hnot : ¬ (data.length < 68 ∨ data[0]? ≠ some 19) := by
    rw [not_or, not_lt, not_not]
    exact ⟨hsize, hfirst⟩
  rw [decodeHandshake, dif_neg hnot]
  exact ⟨_, rfl⟩

/-- The decoder does not look behind a handshake. -/
theorem decodeHandshake_take {data : Bytes} (hsize : 68 ≤ data.length) :
    decodeHandshake (data.take 68) = decodeHandshake data := by
  have hfields : ∀ first count, first + count ≤ 68 →
      ((data.take 68).drop first).take count = (data.drop first).take count := by
    intro first count hinside
    rw [List.drop_take, List.take_take, Nat.min_eq_left (by omega)]
  have hfirst : (data.take 68)[0]? = data[0]? := by rw [List.getElem?_take, if_pos (by decide)]
  have hlength : (data.take 68).length = 68 := List.length_take_of_le hsize
  refine Option.ext fun hs => ?_
  rw [decodeHandshake_eq_some_iff, decodeHandshake_eq_some_iff, infoHashField, infoHashField,
    hlength, hfirst, hfields 20 8 (by decide), hfields 28 20 (by decide),
    hfields 48 20 (by decide)]
  exact and_congr_left fun _ => iff_of_true le_rfl hsize

/-- What can be decoded is what names the protocol. -/
theorem decodesHandshake_iff (data : Bytes) : DecodesHandshake data ↔ NamesProtocol data := by
  constructor
  · intro h hsize hfirst
    obtain ⟨hs, hdecoded⟩ := exists_decodeHandshake hsize hfirst
    exact ((take_eq_encodeHandshake_iff hsize hs).mp ((h hs).mp hdecoded).2).2
  · intro h hs
    constructor
    · intro hdecoded
      obtain ⟨hsize, hfirst, -⟩ := decodeHandshake_eq_some_iff.mp hdecoded
      exact ⟨hsize, (take_eq_encodeHandshake_iff hsize hs).mpr ⟨hdecoded, h hsize hfirst⟩⟩
    · rintro ⟨hsize, heq⟩
      exact ((take_eq_encodeHandshake_iff hsize hs).mp heq).1

/-! ## The exchange -/

/-- A loop of `recv` gives the first bytes of what there is to be read, however it is cut. -/
theorem recvExact_eq {size : ℕ} {read : Bytes} (hread : read.length ≤ size)
    (inbound : List Bytes) :
    PeerConnection.recvExact size read inbound =
      if size ≤ read.length + (readable inbound).length then
        some (read ++ (readable inbound).take (size - read.length))
      else none := by
  induction inbound generalizing read with
  | nil =>
      rw [PeerConnection.recvExact]
      by_cases hlt : read.length < size
      · rw [if_pos hlt, if_neg (by simp [readable]; omega)]
      · rw [if_neg hlt, if_pos (by omega), Nat.sub_eq_zero_of_le (not_lt.mp hlt)]
        simp
  | cons arrived rest ih =>
      rw [PeerConnection.recvExact]
      by_cases hlt : read.length < size
      swap
      · rw [if_neg hlt, if_pos (by omega), Nat.sub_eq_zero_of_le (not_lt.mp hlt)]
        simp
      rw [if_pos hlt]
      by_cases hempty : arrived = []
      · have hnone : readable (arrived :: rest) = [] := by simp [readable, hempty]
        rw [if_pos hempty, hnone, if_neg (by simp; omega)]
      · have hmore : readable (arrived :: rest) = arrived ++ readable rest := by
          simp [readable, hempty]
        rw [if_neg hempty, hmore]
        rcases le_total (size - read.length) arrived.length with henough | hmissing
        · -- the rest of what arrived stays where it is
          have htake : (arrived.take (size - read.length)).length = size - read.length :=
            List.length_take_of_le henough
          have hfull : size - (read ++ arrived.take (size - read.length)).length = 0 := by
            rw [List.length_append, htake]
            omega
          rw [ih (by rw [List.length_append, htake]; omega), hfull, List.take_zero,
            List.append_nil, List.take_append_of_le_length henough,
            if_pos (by rw [List.length_append, htake]; omega),
            if_pos (by rw [List.length_append]; omega)]
        · have hrest : size - (read ++ arrived).length = size - read.length - arrived.length := by
            rw [List.length_append]
            omega
          rw [List.take_of_length_le hmissing, ih (by rw [List.length_append]; omega), hrest,
            List.take_append, List.take_of_length_le hmissing, List.append_assoc,
            List.length_append, List.length_append, Nat.add_assoc]

/-- A handshake is taken when it is decoded from the first bytes there are, with the info hash
that was sent. -/
theorem performHandshake_eq_true_iff (connection : PeerConnection) (network : PeerNetwork)
    (inbound : List Bytes) (infoHash peerId : List.Vector UInt8 20) :
    (connection.performHandshake network inbound infoHash peerId).1 = true ↔
      Exchanges connection network infoHash peerId ∧ 68 ≤ (readable inbound).length ∧
        ∃ hs, decodeHandshake ((readable inbound).take 68) = some hs ∧ hs.infoHash = infoHash := by
  have hzero : (0 : ℕ) + (readable inbound).length = (readable inbound).length := Nat.zero_add _
  have hempty : ([] : Bytes).length ≤ 68 := Nat.zero_le 68
  have hrecv := recvExact_eq hempty inbound
  rw [List.length_nil, hzero, List.nil_append, Nat.sub_zero] at hrecv
  unfold PeerConnection.performHandshake PeerConnection.send Exchanges
  by_cases hsocket : connection.socket < 0
  · simp [hsocket]
  by_cases hsend : network.sendAll
      (encodeHandshake (PeerConnection.ownHandshake infoHash peerId)) = true
  swap
  · simp [hsocket, hsend]
  by_cases hsize : 68 ≤ (readable inbound).length
  swap
  · rw [if_neg hsize] at hrecv
    simp [hsocket, hsend, hrecv, hsize]
  rw [if_pos hsize] at hrecv
  cases hdecoded : decodeHandshake ((readable inbound).take 68) with
  | none => simp [hsocket, hsend, hrecv, hdecoded]
  | some hs => simp [hsocket, hsend, hrecv, hdecoded, hsize, Int32.not_lt.mp hsocket]

/-- A peer with the right hash is accepted when it names the protocol. -/
theorem acceptsGenuine_iff (connection : PeerConnection) (network : PeerNetwork)
    (inbound : List Bytes) (infoHash peerId : List.Vector UInt8 20) :
    AcceptsGenuine connection network inbound infoHash peerId ↔
      (Exchanges connection network infoHash peerId →
        infoHashField (readable inbound) = infoHash.toList →
          NamesProtocol (readable inbound)) := by
  unfold AcceptsGenuine
  rw [performHandshake_eq_true_iff]
  constructor
  · intro h hexchanges hinfoHash hsize hfirst
    obtain ⟨hs, hdecoded⟩ := exists_decodeHandshake hsize hfirst
    have hsame : hs.infoHash = infoHash := by
      obtain ⟨-, -, -, hfield, -⟩ := decodeHandshake_eq_some_iff.mp hdecoded
      exact Subtype.ext (hfield.symm.trans hinfoHash)
    obtain ⟨genuine, -, hgenuine⟩ :=
      h ⟨hexchanges, hsize, hs, by rw [decodeHandshake_take hsize, hdecoded], hsame⟩
    exact ((take_eq_encodeHandshake_iff hsize genuine).mp hgenuine).2
  · rintro h ⟨hexchanges, hsize, hs, hdecoded, rfl⟩
    rw [decodeHandshake_take hsize] at hdecoded
    obtain ⟨-, hfirst, -, hinfoHash, -⟩ := decodeHandshake_eq_some_iff.mp hdecoded
    exact ⟨hs, rfl, (take_eq_encodeHandshake_iff hsize hs).mpr
      ⟨hdecoded, h hexchanges hinfoHash hsize hfirst⟩⟩

/-- **Handshakes.**  The decoder is the inverse of the encoder on the data that names the protocol,
if it is as long as a handshake and begins like one.  A connection takes the handshakes of the
protocol only, where the bytes it reads, if they have the info hash it sent, name the protocol.
SRCLINE: PeerProtocol.cpp:21-41, PeerConnection.cpp:100-112 -/
theorem decodesHandshake_and_acceptsGenuine_iff (data : Bytes) (connection : PeerConnection)
    (network : PeerNetwork) (inbound : List Bytes) (infoHash peerId : List.Vector UInt8 20) :
    (DecodesHandshake data ↔ NamesProtocol data) ∧
      (AcceptsGenuine connection network inbound infoHash peerId ↔
        (Exchanges connection network infoHash peerId →
          infoHashField (readable inbound) = infoHash.toList →
            NamesProtocol (readable inbound))) :=
  ⟨decodesHandshake_iff data, acceptsGenuine_iff connection network inbound infoHash peerId⟩

/-- A byte 19 and zeros are decoded as a handshake, and taken as one where the info hash is zero,
without the name of the protocol. -/
theorem decodesHandshake_and_acceptsGenuine_fails :
    (¬ ∀ data, DecodesHandshake data) ∧
      ¬ ∀ connection network inbound infoHash peerId,
        AcceptsGenuine connection network inbound infoHash peerId := by
  have hunnamed : ¬ NamesProtocol (19 :: List.replicate 67 0) := fun hnames =>
    absurd (hnames (by decide) rfl) (by decide)
  refine ⟨fun h => hunnamed ((decodesHandshake_iff _).mp (h _)), fun h => ?_⟩
  have hnames := (acceptsGenuine_iff ⟨0⟩ ⟨fun _ => 0, fun _ => true⟩
    [19 :: List.replicate 67 0] (List.Vector.replicate 20 0) (List.Vector.replicate 20 0)).mp
    (h _ _ _ _ _)
  exact hunnamed (hnames ⟨by decide, rfl⟩ (by decide))

end Vtfs.Analysis
