import Vtfs.Analysis.PeerMessages

/-!
# Messages and frames

`messageFrame` and `decodeMessage` are compared in both directions.  A message is read back from
its frame, whatever follows (`decode_encodeMessage`).  A frame is written back from its message
unless its type is the byte that stands for a keep-alive (`encode_decode_frame`): the decoder
takes that byte from a frame with a length, and the encoder writes a keep-alive as the frame
without one.
-/

set_option autoImplicit false

namespace Vtfs.Analysis

open Vtfs.Library
open Vtfs.Library.BigEndian (bytesOfWord fromBigEndian)
open Vtfs.Model

/-- The message has one frame: its length fits the length field and its sum with 4, and a
keep-alive carries nothing. -/
structure Framable (message : PeerMessage) : Prop where
  small : 1 + message.payload.length < 2 ^ 32 - 4
  bare : message.type = keepAlive → message.payload = []

/-- The bytes of the first frame in the data: the length field and as many bytes as it says. -/
def frameOf (data : Bytes) : Bytes := data.take (4 + lengthField data)

/-! ## The length field -/

/-- A word is read back from its bytes. -/
theorem wordOfBytes_fromBigEndian (w : UInt32) : fromBigEndian (bytesOfWord w) = w.toNat := by
  rw [bytesOfWord, ← BigEndian.wordOfBytes_toNat, BigEndian.wordOfBytes_byteOfWord32]

/-- The length field of a frame is its first word. -/
theorem lengthField_append (w : UInt32) (rest : Bytes) :
    lengthField (bytesOfWord w ++ rest) = w.toNat := by
  rw [lengthField, List.take_left' (BigEndian.length_bytesOfWord w), wordOfBytes_fromBigEndian]

/-- The first four bytes are those of the word they make. -/
theorem take_lengthField {data : Bytes} (h : 4 ≤ data.length) :
    data.take 4 = bytesOfWord (lengthField data).toUInt32 := by
  obtain ⟨b0, b1, b2, b3, rest, rfl⟩ := exists_length h
  have hfield : lengthField (b0 :: b1 :: b2 :: b3 :: rest) =
      (BigEndian.wordOfBytes b0 b1 b2 b3).toNat :=
    (BigEndian.wordOfBytes_toNat b0 b1 b2 b3).symm
  rw [hfield, Nat.toUInt32_eq, UInt32.ofNat_toNat, BigEndian.bytesOfWord_wordOfBytes]
  rfl

/-! ## From a message to its frame and back -/

/-- The frame of a keep-alive is four zeros. -/
theorem messageFrame_keepAlive {message : PeerMessage} (h : message.type = keepAlive) :
    messageFrame message = [0, 0, 0, 0] := by
  rw [messageFrame, if_pos h]

/-- The frame of any other message is its length, its type and its payload. -/
theorem messageFrame_of_ne {message : PeerMessage} (h : message.type ≠ keepAlive) :
    messageFrame message =
      bytesOfWord (1 + message.payload.length).toUInt32 ++ message.type :: message.payload := by
  rw [messageFrame, if_neg h]

/-- Such a frame takes five bytes more than its payload. -/
theorem length_messageFrame_of_ne {message : PeerMessage} (h : message.type ≠ keepAlive) :
    (messageFrame message).length = message.payload.length + 5 := by
  rw [messageFrame_of_ne h, List.length_append, BigEndian.length_bytesOfWord, List.length_cons]
  omega

/-- The size of the vector is that of the frame, with 32 bits. -/
theorem size_toNat (count : ℕ) :
    ((4 : UInt32) + (1 + count).toUInt32).toNat = (count + 5) % 2 ^ 32 := by
  have hfour : (4 : UInt32).toNat = 4 := rfl
  rw [UInt32.toNat_add, hfour, Nat.toUInt32_eq, UInt32.toNat_ofNat', Nat.add_mod_mod]
  congr 1
  omega

/-- The encoder stays inside its vector for a keep-alive, and for a message whose frame is smaller
than `2 ^ 32` bytes; then it gives the frame. -/
theorem encodeMessage_eq_ok_iff (message : PeerMessage) (frame : Bytes) :
    encodeMessage message = .ok frame ↔
      frame = messageFrame message ∧
        (message.type = keepAlive ∨ message.payload.length + 5 < 2 ^ 32) := by
  by_cases hkeep : message.type = keepAlive
  · rw [encodeMessage, if_pos hkeep, Except.ok.injEq]
    exact ⟨fun h => ⟨h.symm, Or.inl hkeep⟩, fun h => h.1.symm⟩
  have hlength := length_messageFrame_of_ne hkeep
  have hsize := size_toNat message.payload.length
  rw [encodeMessage, if_neg hkeep, writeFrame, hsize, hlength]
  by_cases hsmall : message.payload.length + 5 < 2 ^ 32
  · rw [Nat.mod_eq_of_lt hsmall, if_neg (lt_irrefl _), Nat.sub_self, List.replicate_zero,
      List.append_nil, Except.ok.injEq]
    exact ⟨fun h => ⟨h.symm, Or.inr hsmall⟩, fun h => h.1.symm⟩
  · have hwrapped : (message.payload.length + 5) % 2 ^ 32 < message.payload.length + 5 :=
      (Nat.mod_lt _ (by decide)).trans_le (not_lt.mp hsmall)
    rw [if_pos hwrapped]
    exact iff_of_false (by simp) fun h => hsmall (h.2.resolve_left hkeep)

/-- The encoder gives the frame of every message that has one. -/
theorem encodeMessage_of_framable {message : PeerMessage} (h : Framable message) :
    encodeMessage message = .ok (messageFrame message) := by
  have hsmall := h.small
  exact (encodeMessage_eq_ok_iff message _).mpr ⟨rfl, Or.inr (by omega)⟩

/-- Four zeros are decoded as a keep-alive. -/
theorem decodeMessage_keepAlive (rest : Bytes) :
    decodeMessage ([0, 0, 0, 0] ++ rest) = .ok (some ⟨keepAlive, []⟩) := rfl

/-- A frame with a type is decoded to its type and its payload. -/
theorem decodeMessage_frame {type : UInt8} {payload : Bytes} (rest : Bytes)
    (hsmall : 1 + payload.length < 2 ^ 32 - 4) :
    decodeMessage (bytesOfWord (1 + payload.length).toUInt32 ++ type :: payload ++ rest) =
      .ok (some ⟨type, payload⟩) := by
  generalize hdata : bytesOfWord (1 + payload.length).toUInt32 ++ type :: payload ++ rest = data
  have hword : (1 + payload.length).toUInt32.toNat = 1 + payload.length := by
    rw [UInt32.toNat_ofNat']
    exact Nat.mod_eq_of_lt (by omega)
  have hfield : lengthField data = 1 + payload.length := by
    rw [← hdata, List.append_assoc, lengthField_append, hword]
  have hsize : data.length = 4 + (1 + payload.length) + rest.length := by
    rw [← hdata]
    simp only [List.length_append, BigEndian.length_bytesOfWord, List.length_cons]
    omega
  have hlong : 4 ≤ data.length := by omega
  obtain ⟨length, hlength, -, -, hread⟩ := decodeMessage_cases hlong
  have hsum := add_four_toNat length
  rw [if_pos (by omega)] at hsum
  have hne : length ≠ 0 := by
    rintro rfl
    have hzero : (0 : UInt32).toNat = 0 := rfl
    omega
  have htype : data[4]? = some type := by rw [← hdata]; rfl
  have hpayload : (data.drop 5).take (1 + payload.length - 1) = payload := by
    have hdrop : data.drop 5 = payload ++ rest := by rw [← hdata]; rfl
    rw [hdrop, Nat.add_sub_cancel_left, List.take_left]
  rw [hread hne (by omega), hlength, hfield, readPayload_eq (by omega) (by omega) htype, hpayload]

/-- A frame is decoded as its message, whatever follows. -/
theorem decodeMessage_messageFrame {message : PeerMessage} (h : Framable message)
    (rest : Bytes) : decodeMessage (messageFrame message ++ rest) = .ok (some message) := by
  by_cases htype : message.type = keepAlive
  · rw [messageFrame_keepAlive htype, decodeMessage_keepAlive, ← htype, ← h.bare htype]
  · rw [messageFrame_of_ne htype, decodeMessage_frame rest h.small]

/-- **A message is read back from its frame**, whatever follows; so frames that are written one
after the other are taken apart in one way only.
SRCLINE: PeerProtocol.cpp:43-79 -/
theorem decode_encodeMessage {message : PeerMessage} (h : Framable message) (rest : Bytes) :
    ∃ frame, encodeMessage message = .ok frame ∧
      decodeMessage (frame ++ rest) = .ok (some message) ∧
      ∀ (other : PeerMessage) (frame' rest' : Bytes), Framable other →
        encodeMessage other = .ok frame' → frame' ++ rest' = frame ++ rest →
        other = message ∧ rest' = rest := by
  have hdecode := decodeMessage_messageFrame h rest
  refine ⟨_, encodeMessage_of_framable h, hdecode, fun other frame' rest' hother hframe heq => ?_⟩
  obtain ⟨rfl, -⟩ := (encodeMessage_eq_ok_iff other frame').mp hframe
  have hsame := decodeMessage_messageFrame hother rest'
  rw [heq, hdecode] at hsame
  obtain rfl := Option.some.inj (Except.ok.inj hsame)
  exact ⟨rfl, List.append_cancel_left heq⟩

/-- A request, with the first bytes of another frame after it. -/
theorem decode_encodeMessage_request :
    ∃ frame, encodeMessage ⟨request, [0, 0, 0, 1]⟩ = .ok frame ∧
      decodeMessage (frame ++ [0, 0]) = .ok (some ⟨request, [0, 0, 0, 1]⟩) := by
  have hframable : Framable ⟨request, [0, 0, 0, 1]⟩ :=
    ⟨by decide, fun h => absurd h (by decide)⟩
  obtain ⟨frame, hframe, hdecode, -⟩ := decode_encodeMessage hframable [0, 0]
  exact ⟨frame, hframe, hdecode⟩

/-! ## From a frame to its message and back -/

/-- What a decoded message says of the data: it has no length and is a keep-alive, or the first
frame is its length, its type and its payload. -/
theorem frame_of_decodeMessage {data : Bytes} {message : PeerMessage}
    (h : decodeMessage data = .ok (some message)) :
    4 ≤ data.length ∧
      ((lengthField data = 0 ∧ message = ⟨keepAlive, []⟩) ∨
        (lengthField data = 1 + message.payload.length ∧ data[4]? = some message.type ∧
          frameOf data = bytesOfWord (1 + message.payload.length).toUInt32 ++
            message.type :: message.payload)) := by
  have hlong : 4 ≤ data.length := by
    by_contra hshort
    rw [decodeMessage, if_pos (not_le.mp hshort)] at h
    exact absurd h (by simp)
  refine ⟨hlong, ?_⟩
  obtain ⟨length, hlength, hzero, hnone, hread⟩ := decodeMessage_cases hlong
  by_cases h0 : length = 0
  · have hmessage := (hzero h0).symm.trans h
    refine Or.inl ⟨?_, (Option.some.inj (Except.ok.inj hmessage)).symm⟩
    rw [← hlength, h0]
    rfl
  have hne : lengthField data ≠ 0 := by
    rw [← hlength]
    exact fun hnat => h0 (UInt32.toNat_inj.mp hnat)
  obtain ⟨hinside, hpayload⟩ := payload_of_decodeMessage h hne
  have hcheck : ¬ data.length < (length + 4).toNat := by
    intro hshort
    rw [hnone h0 hshort] at h
    exact absurd h (by simp)
  have htype : data[4]? = some data[4] := List.getElem?_eq_getElem (by omega)
  rw [hread h0 (not_lt.mp hcheck), hlength, readPayload_eq (by omega) hinside htype] at h
  obtain rfl := Option.some.inj (Except.ok.inj h)
  have hcount : lengthField data = 1 + ((data.drop 5).take (lengthField data - 1)).length := by
    rw [List.length_take, List.length_drop]
    omega
  refine Or.inr ⟨hcount, htype, ?_⟩
  have hsplit : data.drop 4 = data[4] :: data.drop 5 := List.drop_eq_getElem_cons (by omega)
  have hsucc : lengthField data = lengthField data - 1 + 1 := by omega
  rw [← hcount, ← take_lengthField hlong, frameOf, List.take_add, hsplit]
  nth_rewrite 1 [hsucc]
  rw [List.take_succ_cons]

/-- A frame without a length is the frame of a keep-alive. -/
theorem frameOf_of_zero {data : Bytes} (hlong : 4 ≤ data.length) (hzero : lengthField data = 0) :
    frameOf data = [0, 0, 0, 0] := by
  rw [frameOf, hzero, Nat.add_zero, take_lengthField hlong, hzero]
  rfl

/-- What the encoder writes for a decoded message is the frame, when the frame has no length or
its type is not that of a keep-alive. -/
theorem messageFrame_eq_frameOf_iff {data : Bytes} {message : PeerMessage}
    (h : decodeMessage data = .ok (some message)) :
    messageFrame message = frameOf data ↔
      lengthField data = 0 ∨ data[4]? ≠ some keepAlive := by
  obtain ⟨hlong, ⟨hzero, rfl⟩ | ⟨hfield, htype, hframe⟩⟩ := frame_of_decodeMessage h
  · refine iff_of_true ?_ (Or.inl hzero)
    rw [messageFrame_keepAlive rfl, frameOf_of_zero hlong hzero]
  rw [hframe, htype]
  by_cases hkeep : message.type = keepAlive
  · refine iff_of_false (fun heq => ?_) (by rw [hkeep, hfield]; simp)
    rw [messageFrame_keepAlive hkeep] at heq
    have hsize := congrArg List.length heq
    simp only [List.length_append, BigEndian.length_bytesOfWord, List.length_cons,
      List.length_nil] at hsize
    omega
  · exact iff_of_true (messageFrame_of_ne hkeep) (Or.inr (by simpa using hkeep))

/-- **A frame is written back from its message** if and only if it has no length, or its type is
not the byte of a keep-alive and its length leaves four bytes to `2 ^ 32`.  Two frames with one
message are equal if and only if both or neither of them has a length.
SRCLINE: PeerProtocol.cpp:43-79 -/
theorem encode_decode_frame {data : Bytes} {message : PeerMessage}
    (h : decodeMessage data = .ok (some message)) :
    (encodeMessage message = .ok (frameOf data) ↔
        lengthField data = 0 ∨
          (data[4]? ≠ some keepAlive ∧ lengthField data < 2 ^ 32 - 4)) ∧
      ∀ other : Bytes, decodeMessage other = .ok (some message) →
        (frameOf other = frameOf data ↔ (lengthField other = 0 ↔ lengthField data = 0)) := by
  obtain ⟨hlong, hcases⟩ := frame_of_decodeMessage h
  refine ⟨?_, fun other hother => ?_⟩
  · rw [encodeMessage_eq_ok_iff, eq_comm, messageFrame_eq_frameOf_iff h]
    rcases hcases with ⟨hzero, rfl⟩ | ⟨hfield, htype, -⟩
    · exact iff_of_true ⟨Or.inl hzero, Or.inl rfl⟩ (Or.inl hzero)
    -- with a length, the message is not the keep-alive that the encoder writes without one
    simp only [htype, ne_eq, Option.some.injEq, hfield]
    constructor
    · rintro ⟨hwritten, hfits⟩
      have hne := hwritten.resolve_left (by omega)
      have hsmall := hfits.resolve_left hne
      exact Or.inr ⟨hne, by omega⟩
    · rintro (hzero | ⟨hne, hsmall⟩)
      · omega
      · exact ⟨Or.inr hne, Or.inr (by omega)⟩
  · obtain ⟨hlong', hcases'⟩ := frame_of_decodeMessage hother
    -- a frame without a length has four bytes, one with a length has more
    rcases hcases with ⟨hzero, -⟩ | ⟨hfield, -, hframe⟩ <;>
      rcases hcases' with ⟨hzero', -⟩ | ⟨hfield', -, hframe'⟩
    · rw [frameOf_of_zero hlong hzero, frameOf_of_zero hlong' hzero', hzero, hzero']
      simp
    · refine iff_of_false (fun heq => ?_) (by omega)
      rw [frameOf_of_zero hlong hzero, hframe'] at heq
      exact absurd (congrArg List.length heq) (by simp)
    · refine iff_of_false (fun heq => ?_) (by omega)
      rw [frameOf_of_zero hlong' hzero', hframe] at heq
      exact absurd (congrArg List.length heq) (by simp)
    · exact iff_of_true (hframe'.trans hframe.symm) (by omega)

/-- A frame of the type `interested` is written back. -/
theorem encode_decode_frame_interested :
    encodeMessage ⟨interested, []⟩ = .ok (frameOf [0, 0, 0, 1, 2]) := by
  have hdecode : decodeMessage [0, 0, 0, 1, 2] = .ok (some ⟨interested, []⟩) := rfl
  exact ((encode_decode_frame hdecode).1).mpr (Or.inr ⟨by decide, by decide⟩)

/-- A frame of length 1 with the type 255 is decoded to a keep-alive, as the empty frame is. -/
theorem encode_decode_frame_fails :
    ¬ (∀ (data : Bytes) (message : PeerMessage), decodeMessage data = .ok (some message) →
        encodeMessage message = .ok (frameOf data)) ∧
      ¬ ∀ (data other : Bytes) (message : PeerMessage),
        decodeMessage data = .ok (some message) → decodeMessage other = .ok (some message) →
        frameOf other = frameOf data := by
  have hdecode : decodeMessage [0, 0, 0, 1, 255] = .ok (some ⟨keepAlive, []⟩) := rfl
  have hempty : decodeMessage [0, 0, 0, 0] = .ok (some ⟨keepAlive, []⟩) := rfl
  refine ⟨fun h => ?_, fun h => ?_⟩
  · have hwritten := h _ _ hdecode
    rw [encodeMessage, if_pos rfl] at hwritten
    exact absurd (Except.ok.inj hwritten) (by decide)
  · exact absurd (h _ _ _ hdecode hempty) (by decide)

end Vtfs.Analysis
