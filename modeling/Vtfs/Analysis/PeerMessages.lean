import Vtfs.Model.PeerProtocol

/-!
# Decoding a frame stays inside it

The check of a frame's size adds 4 to its length field in 32 bits, so for the four greatest
lengths the sum is below 4 and any frame passes.  `decodeMessage` then reads past the end unless
the frame really has its 4 GiB (`decodeMessage_inBounds_iff`).
-/

set_option autoImplicit false

namespace Vtfs.Analysis

open Vtfs.Library
open Vtfs.Library.BigEndian (fromBigEndian wordOfBytes)
open Vtfs.Model

/-- The length field of a frame. -/
def lengthField (data : Bytes) : ℕ := fromBigEndian (data.take 4)

/-- Every read is inside the frame. -/
def InBounds (result : Except Fault (Option PeerMessage)) : Prop := ∃ message, result = .ok message

/-- A read inside the vector gives the byte. -/
theorem readAt_of_lt {data : Bytes} {index : ℕ} (h : index < data.length) :
    readAt data index = .ok data[index] := by
  simp [readAt, List.getElem?_eq_getElem h]

/-- A read outside is a fault. -/
theorem readAt_of_ge {data : Bytes} {index : ℕ} (h : data.length ≤ index) :
    readAt data index = .error ⟨index, data.length⟩ := by
  simp [readAt, List.getElem?_eq_none h]

/-- A frame of at least four bytes has its length field in front. -/
theorem exists_length {data : Bytes} (h : 4 ≤ data.length) :
    ∃ b0 b1 b2 b3 rest, data = b0 :: b1 :: b2 :: b3 :: rest := by
  match data, h with
  | b0 :: b1 :: b2 :: b3 :: rest, _ => exact ⟨b0, b1, b2, b3, rest, rfl⟩

/-- What `decodeMessage` does past the length field. -/
theorem decodeMessage_cases {data : Bytes} (h : 4 ≤ data.length) :
    ∃ length : UInt32, length.toNat = lengthField data ∧
      (length = 0 → decodeMessage data = .ok (some ⟨keepAlive, []⟩)) ∧
      (length ≠ 0 → data.length < (length + 4).toNat → decodeMessage data = .ok none) ∧
      (length ≠ 0 → (length + 4).toNat ≤ data.length →
        decodeMessage data = readPayload data length.toNat) := by
  obtain ⟨b0, b1, b2, b3, rest, rfl⟩ := exists_length h
  have hdecode : decodeMessage (b0 :: b1 :: b2 :: b3 :: rest) =
      if wordOfBytes b0 b1 b2 b3 = 0 then .ok (some ⟨keepAlive, []⟩)
      else if (b0 :: b1 :: b2 :: b3 :: rest).length < (wordOfBytes b0 b1 b2 b3 + 4).toNat then
        .ok none
      else readPayload (b0 :: b1 :: b2 :: b3 :: rest) (wordOfBytes b0 b1 b2 b3).toNat := by
    rw [decodeMessage, if_neg (not_lt.mpr h)]
    rfl
  refine ⟨wordOfBytes b0 b1 b2 b3, BigEndian.wordOfBytes_toNat b0 b1 b2 b3, ?_, ?_, ?_⟩
  · intro hzero
    rw [hdecode, if_pos hzero]
  · intro hzero hshort
    rw [hdecode, if_neg hzero, if_pos hshort]
  · intro hzero hlong
    rw [hdecode, if_neg hzero, if_neg (not_lt.mpr hlong)]

/-- The sum of the length and four wraps around near the largest length. -/
theorem add_four_toNat (length : UInt32) :
    (length + 4).toNat =
      if length.toNat < 2 ^ 32 - 4 then length.toNat + 4 else length.toNat + 4 - 2 ^ 32 := by
  have hlt : length.toNat < 2 ^ 32 := length.toNat_lt
  rw [UInt32.toNat_add]
  have hfour : (4 : UInt32).toNat = 4 := rfl
  rw [hfour]
  split
  · omega
  · omega

/-- A payload that is there is read. -/
theorem readPayload_eq {data : Bytes} {n : ℕ} {type : UInt8} (hpos : 0 < n)
    (h : 4 + n ≤ data.length) (htype : data[4]? = some type) :
    readPayload data n = .ok (some ⟨type, (data.drop 5).take (n - 1)⟩) := by
  have hrange : readRange data 5 (4 + n) = .ok ((data.drop 5).take (n - 1)) := by
    have hcount : 4 + n - 5 = n - 1 := by omega
    rw [readRange, if_neg (by omega), hcount]
  have hread : readAt data 4 = .ok type := by rw [readAt, htype]
  rw [readPayload, hread, hrange]
  rfl

/-- A payload that fits is there. -/
theorem readPayload_of_le {data : Bytes} {n : ℕ} (hpos : 0 < n) (h : 4 + n ≤ data.length) :
    ∃ type, readPayload data n = .ok (some ⟨type, (data.drop 5).take (n - 1)⟩) :=
  ⟨data[4], readPayload_eq hpos h (List.getElem?_eq_getElem (by omega))⟩

/-- A frame that is shorter than it says is read past its end. -/
theorem readPayload_of_gt {data : Bytes} {n : ℕ} (hpos : 0 < n) (h : data.length < 4 + n) :
    ∃ fault, readPayload data n = .error fault := by
  by_cases hfour : 4 < data.length
  · have hrange : readRange data 5 (4 + n) = .error ⟨4 + n - 1, data.length⟩ := by
      rw [readRange, if_pos (by omega)]
    refine ⟨⟨4 + n - 1, data.length⟩, ?_⟩
    rw [readPayload, readAt_of_lt hfour, hrange]
    rfl
  · refine ⟨⟨4, data.length⟩, ?_⟩
    rw [readPayload, readAt_of_ge (not_lt.mp hfour)]
    rfl

/-- A frame whose payload is decoded has as many bytes as it says, and the payload is the bytes
after the type. -/
theorem payload_of_decodeMessage {data : Bytes} {message : PeerMessage}
    (h : decodeMessage data = .ok (some message)) (hne : lengthField data ≠ 0) :
    4 + lengthField data ≤ data.length ∧
      message.payload = (data.drop 5).take (lengthField data - 1) := by
  have hlong : 4 ≤ data.length := by
    by_contra hshort
    rw [decodeMessage, if_pos (not_le.mp hshort)] at h
    exact absurd h (by simp)
  obtain ⟨length, hlength, -, hnone, hpayload⟩ := decodeMessage_cases hlong
  rw [← hlength] at hne ⊢
  have h0 : length ≠ 0 := fun hzero => hne (by rw [hzero]; rfl)
  have hpos : 0 < length.toNat := Nat.pos_of_ne_zero hne
  by_cases hcheck : data.length < (length + 4).toNat
  · rw [hnone h0 hcheck] at h
    exact absurd h (by simp)
  rw [hpayload h0 (not_lt.mp hcheck)] at h
  by_cases hinside : 4 + length.toNat ≤ data.length
  · obtain ⟨type, hread⟩ := readPayload_of_le hpos hinside
    rw [hread] at h
    obtain rfl := Option.some.inj (Except.ok.inj h)
    exact ⟨hinside, rfl⟩
  · obtain ⟨fault, hread⟩ := readPayload_of_gt hpos (not_le.mp hinside)
    rw [hread] at h
    exact absurd h (by simp)

/-- **Reads of a frame.**  `decodeMessage` reads inside the frame if and only if the frame has
no length field, or one whose sum with 4 fits 32 bits, or as many bytes as it says; and where it
does and comes to the payload, the frame has as many bytes as it says.
SRCLINE: PeerProtocol.cpp:59-79 -/
theorem decodeMessage_inBounds_iff (data : Bytes) :
    (InBounds (decodeMessage data) ↔
      data.length < 4 ∨ lengthField data < 2 ^ 32 - 4 ∨ 4 + lengthField data ≤ data.length) ∧
    ∀ message, decodeMessage data = .ok (some message) → lengthField data ≠ 0 →
      4 + lengthField data ≤ data.length ∧
        message.payload = (data.drop 5).take (lengthField data - 1) := by
  refine ⟨?_, fun message hmessage hne => payload_of_decodeMessage hmessage hne⟩
  by_cases hshort : data.length < 4
  · have hnone : decodeMessage data = .ok none := by rw [decodeMessage, if_pos hshort]
    exact ⟨fun _ => Or.inl hshort, fun _ => ⟨none, hnone⟩⟩
  obtain ⟨length, hlength, hzero, hlong, hpayload⟩ := decodeMessage_cases (not_lt.mp hshort)
  have hsum := add_four_toNat length
  rw [← hlength]
  by_cases h0 : length = 0
  · have h0' : length.toNat = 0 := by rw [h0]; rfl
    exact ⟨fun _ => by omega, fun _ => ⟨_, hzero h0⟩⟩
  have hpos : 0 < length.toNat := Nat.pos_of_ne_zero fun h => h0 (UInt32.toNat_inj.mp h)
  by_cases hcheck : data.length < (length + 4).toNat
  · refine ⟨fun _ => ?_, fun _ => ⟨none, hlong h0 hcheck⟩⟩
    have hlt : length.toNat < 2 ^ 32 := length.toNat_lt
    by_contra hcontra
    rw [if_neg (by omega)] at hsum
    omega
  -- the check passes: the reads are inside exactly when the frame is as long as it says
  rw [hpayload h0 (not_lt.mp hcheck)]
  by_cases hinside : 4 + length.toNat ≤ data.length
  · obtain ⟨type, hread⟩ := readPayload_of_le hpos hinside
    exact ⟨fun _ => Or.inr (Or.inr hinside), fun _ => ⟨_, hread⟩⟩
  · obtain ⟨fault, hread⟩ := readPayload_of_gt hpos (not_le.mp hinside)
    have hwrap : ¬ length.toNat < 2 ^ 32 - 4 := fun hlt => by
      rw [if_pos hlt] at hsum
      omega
    refine ⟨fun ⟨message, hmessage⟩ => ?_, fun hcases => ?_⟩
    · rw [hread] at hmessage
      exact absurd hmessage (by simp)
    · rcases hcases with h | h | h
      · exact absurd h hshort
      · exact absurd h hwrap
      · exact absurd h hinside

/-- Four bytes with every bit set are a frame of length `2 ^ 32 - 1`: `data[4]` is read. -/
theorem decodeMessage_outOfBounds :
    ¬ (∀ data : Bytes, InBounds (decodeMessage data)) ∧
      decodeMessage [255, 255, 255, 255] = .error ⟨4, 4⟩ := by
  have hfault : decodeMessage [255, 255, 255, 255] = .error ⟨4, 4⟩ := by rfl
  refine ⟨fun h => ?_, hfault⟩
  obtain ⟨message, hmessage⟩ := h [255, 255, 255, 255]
  rw [hfault] at hmessage
  exact absurd hmessage (by simp)

end Vtfs.Analysis
