import Vtfs.Model.Sha1
import Vtfs.Interface.Sha1Standard
import Mathlib.Data.List.Range

/-!
# The SHA-1 class computes the standard's digest

First, one block: the class's rounds are the standard's steps (`processBlock_eq`).  Then the
stream: `Buffered s m` says that the object has taken in the message `m`, with the fold over its
complete blocks in the state and the rest in the buffer.  Every write and every processed buffer
keeps it, so `final` pads the message it has taken in, however it was cut.
-/

set_option autoImplicit false

namespace Vtfs.Analysis

open Vtfs.Library
open Vtfs.Library.BigEndian (bigEndian fromBigEndian byteOfWord32 byteOfWord64 wordOfBytes)
open Vtfs.Model
open Vtfs.Interface

/-! ## One block -/

/-- The class's words as the standard's hash value. -/
def asHash (v : Sha1Words) : Sha1Standard.Hash := ⟨v.a, v.b, v.c, v.d, v.e⟩

/-- The first function of the code is `Ch`. -/
theorem choice_eq (b c d : UInt32) :
    ((b &&& c) ||| (~~~b &&& d)) = Sha1Standard.Ch b c d := by
  apply UInt32.toBitVec_inj.mp
  simp only [Sha1Standard.Ch, UInt32.toBitVec_or, UInt32.toBitVec_xor, UInt32.toBitVec_and,
    UInt32.toBitVec_not]
  ext i hi
  simp only [BitVec.getElem_or, BitVec.getElem_xor, BitVec.getElem_and, BitVec.getElem_not]
  cases b.toBitVec[i] <;> simp

/-- The third one is `Maj`. -/
theorem majority_eq (b c d : UInt32) :
    ((b &&& c) ||| (b &&& d) ||| (c &&& d)) = Sha1Standard.Maj b c d := by
  apply UInt32.toBitVec_inj.mp
  simp only [Sha1Standard.Maj, UInt32.toBitVec_or, UInt32.toBitVec_xor, UInt32.toBitVec_and]
  ext i hi
  simp only [BitVec.getElem_or, BitVec.getElem_xor, BitVec.getElem_and]
  cases b.toBitVec[i] <;> cases c.toBitVec[i] <;> simp

/-- The functions and constants are those of the standard. -/
theorem roundFunction_eq (i : ℕ) (b c d : UInt32) :
    roundFunction i b c d = (Sha1Standard.f i b c d, Sha1Standard.K i) := by
  unfold roundFunction Sha1Standard.f Sha1Standard.K
  by_cases h20 : i < 20
  · simp [h20, Nat.le_of_lt_succ h20, choice_eq]
  · by_cases h40 : i < 40
    · simp [h20, h40, Nat.le_of_lt_succ h40, show ¬ i ≤ 19 by omega, Sha1Standard.Parity]
    · by_cases h60 : i < 60
      · simp [h20, h40, h60, Nat.le_of_lt_succ h60, show ¬ i ≤ 19 by omega,
          show ¬ i ≤ 39 by omega, majority_eq]
      · simp [h20, h40, h60, show ¬ i ≤ 19 by omega, show ¬ i ≤ 39 by omega,
          show ¬ i ≤ 59 by omega, Sha1Standard.Parity]

/-- Four bytes of a text, one by one. -/
theorem take_four_drop {s : Bytes} {p : ℕ} (h : p + 4 ≤ s.length) :
    (s.drop p).take 4 = [s.getD p 0, s.getD (p + 1) 0, s.getD (p + 2) 0, s.getD (p + 3) 0] := by
  have hcons : ∀ k, p + k < s.length →
      s.drop (p + k) = s.getD (p + k) 0 :: s.drop (p + (k + 1)) := by
    intro k hk
    rw [List.drop_eq_getElem_cons hk, List.getD_eq_getElem _ _ hk, Nat.add_assoc]
  have h0 := hcons 0 (by omega)
  rw [Nat.add_zero] at h0
  rw [h0, hcons 1 (by omega), hcons 2 (by omega), hcons 3 (by omega)]
  rfl

/-- The shifted bytes of a block are the standard's message words. -/
theorem blockWords_eq {block : Bytes} (hblock : block.length = 64) :
    blockWords block = (List.range 16).map (Sha1Standard.W block) := by
  apply List.map_congr_left
  intro i hi
  have hi16 : i < 16 := List.mem_range.mp hi
  have hword := take_four_drop (s := block) (p := i * 4) (by omega)
  rw [Sha1Standard.W, if_pos hi16, Sha1Standard.M, Nat.mul_comm 4 i, hword,
    ← BigEndian.wordOfBytes_toNat, UInt32.ofNat_toNat]

/-- Appending `n` words to the first sixteen gives the schedule that far. -/
theorem words_upTo {block : Bytes} (hblock : block.length = 64) (n : ℕ) :
    (List.range' 16 n).foldl (fun soFar i => soFar ++ [nextWord soFar i]) (blockWords block) =
      (List.range (16 + n)).map (Sha1Standard.W block) := by
  induction n with
  | zero => exact blockWords_eq hblock
  | succ n ih =>
      have hread : ∀ k, k < 16 + n →
          ((List.range (16 + n)).map (Sha1Standard.W block)).getD k 0 =
            Sha1Standard.W block k := by
        intro k hk
        simp [List.getD_eq_getElem?_getD, hk]
      have hnext : nextWord ((List.range (16 + n)).map (Sha1Standard.W block)) (16 + n) =
          Sha1Standard.W block (16 + n) := by
        rw [Sha1Standard.W, if_neg (by omega), nextWord, hread _ (by omega), hread _ (by omega),
          hread _ (by omega), hread _ (by omega)]
        rfl
      rw [List.range'_concat, List.foldl_append, ih, Nat.one_mul, ← Nat.add_assoc,
        List.range_succ, List.map_append]
      simp only [List.foldl_cons, List.foldl_nil, hnext, List.map_cons, List.map_nil]

/-- A round is a step of the standard. -/
theorem round_eq {block : Bytes} (hblock : block.length = 64) (v : Sha1Words) {i : ℕ}
    (hi : i < 80) :
    asHash (roundStep (words block) v i) = Sha1Standard.step block (asHash v) i := by
  have hword : (words block).getD i 0 = Sha1Standard.W block i := by
    rw [words, words_upTo hblock 64]
    simp [List.getD_eq_getElem?_getD, hi]
  simp only [roundStep, roundFunction_eq, hword, asHash, Sha1Standard.step]
  rfl

/-- So are any number of rounds. -/
theorem rounds_eq {block : Bytes} (hblock : block.length = 64) (v : Sha1Words) {n : ℕ}
    (hn : n ≤ 80) :
    asHash ((List.range n).foldl (roundStep (words block)) v) =
      (List.range n).foldl (Sha1Standard.step block) (asHash v) := by
  induction n with
  | zero => rfl
  | succ n ih =>
      rw [List.range_succ, List.foldl_append, List.foldl_append, ← ih (by omega)]
      exact round_eq hblock _ (by omega)

/-- A block is taken in as by the standard. -/
theorem processBlock_eq {block : Bytes} (hblock : block.length = 64) (state : Sha1Words) :
    asHash (processBlock state block) = Sha1Standard.compress (asHash state) block := by
  have hrounds := rounds_eq hblock state (n := 80) le_rfl
  rw [Sha1Standard.compress, ← hrounds]
  simp only [processBlock, asHash, UInt32.add_comm]

/-- So are blocks. -/
theorem foldl_processBlock_eq {blocks : List Bytes} (h : ∀ block ∈ blocks, block.length = 64)
    (state : Sha1Words) :
    asHash (blocks.foldl processBlock state) =
      blocks.foldl Sha1Standard.compress (asHash state) := by
  induction blocks generalizing state with
  | nil => rfl
  | cons block blocks ih =>
      rw [List.foldl_cons, List.foldl_cons, ih fun b hb => h b (List.mem_cons_of_mem _ hb),
        processBlock_eq (h block (by simp))]

/-! ## The buffer -/

/-- The object has taken in the message `m`: the complete blocks are in the state and the rest
is at the front of the buffer. -/
structure Buffered (s : Sha1) (m : Bytes) : Prop where
  buffer_length : s.buffer.length = 64
  bufferSize_le : s.bufferSize ≤ 64
  absorbs : Absorbs processBlock 64 Sha1.initial.state m s.state (s.buffer.take s.bufferSize)

namespace Buffered

variable {s : Sha1} {m : Bytes}

/-- At the beginning nothing was taken in. -/
theorem initial : Buffered Sha1.initial [] where
  buffer_length := by decide
  bufferSize_le := by decide
  absorbs := Absorbs.initial

/-- Bytes that fit may be copied. -/
theorem copy (h : Buffered s m) (chunk : Bytes) (hfits : s.bufferSize + chunk.length ≤ 64) :
    Buffered (s.copy chunk) (m ++ chunk) := by
  have hlength := h.buffer_length
  have hfront : (s.buffer.take s.bufferSize ++ chunk).length = s.bufferSize + chunk.length := by
    rw [List.length_append, List.length_take]
    omega
  refine ⟨?_, hfits, ?_⟩
  · simp only [Sha1.copy, List.length_append, List.length_take, List.length_drop]
    omega
  · have hwrite := h.absorbs.write chunk
    simp only [Sha1.copy]
    rwa [← hfront, List.take_left]

/-- A full buffer may be flushed. -/
theorem flush (h : Buffered s m) (hfull : s.bufferSize = 64) : Buffered s.flush m := by
  have hlength := h.buffer_length
  have hwhole : s.buffer.take s.bufferSize = s.buffer := List.take_of_length_le (by omega)
  have habsorbs := h.absorbs
  rw [hwhole] at habsorbs
  refine ⟨by rw [Sha1.flush_buffer, hlength], by rw [Sha1.flush_bufferSize]; omega, ?_⟩
  rw [Sha1.flush_state, Sha1.flush_buffer, Sha1.flush_bufferSize, List.take_zero]
  exact habsorbs.flush hlength

/-- A byte may be put where there is room. -/
theorem put (h : Buffered s m) (b : UInt8) (hroom : s.bufferSize < 64) :
    Buffered (s.put b) (m ++ [b]) := by
  have hlength := h.buffer_length
  have htake : (s.buffer.set s.bufferSize b).take (s.bufferSize + 1) =
      s.buffer.take s.bufferSize ++ [b] := by
    rw [List.take_succ_eq_append_getElem (by rw [List.length_set]; omega), List.getElem_set_self,
      List.take_set_of_le le_rfl]
  refine ⟨by simpa [Sha1.put] using hlength, hroom, ?_⟩
  simpa only [Sha1.put, htake] using h.absorbs.write [b]

/-- The buffer has what is left over of whole blocks. -/
theorem bufferSize_eq (h : Buffered s m) (hroom : s.bufferSize < 64) :
    s.bufferSize = m.length % 64 := by
  have hmod := h.absorbs.length_mod
  have hlength := h.buffer_length
  rw [List.length_take] at hmod
  omega

end Buffered

/-! ## `update` -/

/-- The loop takes in all the data, and leaves room. -/
theorem updateLoop_spec {rounds : ℕ} {s : Sha1} {m : Bytes} (data : Bytes) (h : Buffered s m)
    (hroom : s.bufferSize < 64) (hrounds : data.length ≤ rounds) :
    Buffered (s.updateLoop rounds data) (m ++ data) ∧
      (s.updateLoop rounds data).bufferSize < 64 ∧
      (s.updateLoop rounds data).bitCount = s.bitCount := by
  induction rounds generalizing s m data with
  | zero =>
      have hnil : data = [] := List.eq_nil_of_length_eq_zero (by omega)
      subst hnil
      exact ⟨by simpa [Sha1.updateLoop] using h, hroom, rfl⟩
  | succ rounds ih =>
      rw [Sha1.updateLoop]
      split
      · rename_i hzero
        have hnil : data = [] := List.eq_nil_of_length_eq_zero hzero
        subst hnil
        exact ⟨by simpa using h, hroom, rfl⟩
      · rename_i hpos
        have hchunk : (data.take (min data.length (64 - s.bufferSize))).length =
            min data.length (64 - s.bufferSize) := by
          rw [List.length_take]
          omega
        have hcopy := h.copy (data.take (min data.length (64 - s.bufferSize)))
          (by omega)
        have hsplit : m ++ data = m ++ data.take (min data.length (64 - s.bufferSize)) ++
            data.drop (min data.length (64 - s.bufferSize)) := by
          rw [List.append_assoc, List.take_append_drop]
        have hrest : (data.drop (min data.length (64 - s.bufferSize))).length ≤ rounds := by
          rw [List.length_drop]
          omega
        have hsize : (s.copy (data.take (min data.length (64 - s.bufferSize)))).bufferSize =
            s.bufferSize + min data.length (64 - s.bufferSize) := by
          simp only [Sha1.copy, hchunk]
        have hcount : (s.copy (data.take (min data.length (64 - s.bufferSize)))).bitCount =
            s.bitCount := rfl
        rw [hsplit]
        dsimp only
        split
        · rename_i hfull
          obtain ⟨hbuffered, hsmall, hbits⟩ := ih _ (hcopy.flush hfull) (by simp) hrest
          exact ⟨hbuffered, hsmall, by rw [hbits, Sha1.flush_bitCount, hcount]⟩
        · rename_i hpart
          obtain ⟨hbuffered, hsmall, hbits⟩ := ih _ hcopy (by omega) hrest
          exact ⟨hbuffered, hsmall, by rw [hbits, hcount]⟩

/-- What is known of the object between calls: the message is taken in, the buffer has room, and
the length is counted in bits modulo `2 ^ 64`. -/
structure Holds (s : Sha1) (m : Bytes) : Prop extends Buffered s m where
  room : s.bufferSize < 64
  bitCount_eq : s.bitCount = UInt64.ofNat (8 * m.length)

/-- At the beginning the object holds nothing. -/
theorem holds_initial : Holds Sha1.initial [] :=
  ⟨Buffered.initial, by decide, rfl⟩

/-- An update adds its data. -/
theorem Holds.update {s : Sha1} {m : Bytes} (h : Holds s m) (data : Bytes) :
    Holds (s.update data) (m ++ data) := by
  have hstart : Buffered
      { s with bitCount := s.bitCount + UInt64.ofNat data.length * 8 } m :=
    ⟨h.buffer_length, h.bufferSize_le, h.absorbs⟩
  obtain ⟨hbuffered, hroom, hbits⟩ := updateLoop_spec data hstart h.room le_rfl
  refine ⟨hbuffered, hroom, ?_⟩
  rw [Sha1.update, hbits, h.bitCount_eq, List.length_append, Nat.mul_add, UInt64.ofNat_add,
    UInt64.ofNat_mul 8 data.length, UInt64.mul_comm]
  rfl

/-- So do several. -/
theorem Holds.updates {s : Sha1} {m : Bytes} (h : Holds s m) (chunks : List Bytes) :
    Holds (chunks.foldl Sha1.update s) (m ++ chunks.flatten) := by
  induction chunks generalizing s m with
  | nil => simpa using h
  | cons chunk chunks ih =>
      have hrest := ih (h.update chunk)
      rwa [List.append_assoc, ← List.flatten_cons] at hrest

/-! ## `final` -/

/-- A byte that is put is not counted. -/
theorem put_bitCount (s : Sha1) (b : UInt8) : (s.put b).bitCount = s.bitCount := rfl

/-- It takes one place. -/
theorem put_bufferSize (s : Sha1) (b : UInt8) : (s.put b).bufferSize = s.bufferSize + 1 := rfl

/-- Bytes may be put where there is room for them. -/
theorem Buffered.puts {s : Sha1} {m : Bytes} (h : Buffered s m) (values : Bytes)
    (hroom : s.bufferSize + values.length ≤ 64) :
    Buffered (values.foldl Sha1.put s) (m ++ values) ∧
      (values.foldl Sha1.put s).bufferSize = s.bufferSize + values.length ∧
      (values.foldl Sha1.put s).bitCount = s.bitCount := by
  induction values generalizing s m with
  | nil => exact ⟨by simpa using h, rfl, rfl⟩
  | cons b values ih =>
      rw [List.length_cons] at hroom
      obtain ⟨hbuffered, hsize, hbits⟩ := ih (h.put b (by omega)) (by rw [put_bufferSize]; omega)
      refine ⟨by simpa using hbuffered, ?_, ?_⟩
      · rw [List.foldl_cons, hsize, put_bufferSize, List.length_cons]
        omega
      · rw [List.foldl_cons, hbits, put_bitCount]

/-- Filling with zeros is putting zeros. -/
theorem zeroFill_eq (limit : ℕ) (s : Sha1) :
    s.zeroFill limit = (List.replicate (limit - s.bufferSize) 0).foldl Sha1.put s := by
  unfold Sha1.zeroFill
  generalize limit - s.bufferSize = n
  induction n generalizing s with
  | zero => rfl
  | succ n ih => rw [Function.iterate_succ_apply, ih, List.replicate_succ, List.foldl_cons]

/-- Zeros fill the buffer up to a limit. -/
theorem Buffered.zeroFill {s : Sha1} {m : Bytes} (h : Buffered s m) (limit : ℕ)
    (hlimit : limit ≤ 64) (hle : s.bufferSize ≤ limit) :
    Buffered (s.zeroFill limit) (m ++ List.replicate (limit - s.bufferSize) 0) ∧
      (s.zeroFill limit).bufferSize = limit ∧ (s.zeroFill limit).bitCount = s.bitCount := by
  rw [zeroFill_eq]
  obtain ⟨hbuffered, hsize, hbits⟩ :=
    h.puts (List.replicate (limit - s.bufferSize) 0) (by rw [List.length_replicate]; omega)
  refine ⟨hbuffered, ?_, hbits⟩
  rw [hsize, List.length_replicate]
  omega

/-- A byte below the highest of a number modulo `2 ^ 64` is that byte of the number. -/
theorem byteOfWord64_ofNat (n : ℕ) {i : ℕ} (hi : i < 8) :
    byteOfWord64 (UInt64.ofNat n) i = UInt8.ofNat (n / 256 ^ i) := by
  have hpow : (2 : ℕ) ^ 64 = 256 ^ i * 256 ^ (8 - i) := by
    rw [← Nat.pow_add, Nat.add_sub_cancel' hi.le]
    norm_num
  have hbyte : (256 : ℕ) ∣ 256 ^ (8 - i) := dvd_pow_self _ (by omega)
  rw [BigEndian.byteOfWord64_eq _ hi]
  apply UInt8.toNat_inj.mp
  rw [UInt8.toNat_ofNat', UInt8.toNat_ofNat', UInt64.toNat_ofNat', hpow,
    Nat.mod_mul_right_div_self]
  exact Nat.mod_mod_of_dvd _ hbyte

/-- The bytes of the bit count are the big-endian length field. -/
theorem lengthField_eq (n : ℕ) :
    [7, 6, 5, 4, 3, 2, 1, 0].map (byteOfWord64 (UInt64.ofNat n)) = bigEndian 8 n := by
  have hindex : [7, 6, 5, 4, 3, 2, 1, 0] = (List.range 8).map fun i => 8 - 1 - i := by decide
  rw [hindex, List.map_map]
  exact List.map_congr_left fun i _ => byteOfWord64_ofNat n (show 8 - 1 - i < 8 by omega)

/-- The bytes of a word, the most significant first. -/
theorem wordBytes_eq (w : UInt32) : Sha1.wordBytes w = bigEndian 4 w.toNat := by
  have hindex : Sha1.wordBytes w = (List.range 4).map fun i => byteOfWord32 w (4 - 1 - i) := rfl
  rw [hindex]
  exact List.map_congr_left fun i _ => BigEndian.byteOfWord32_eq w (by omega)

/-- The zeros that `final` writes are as many as the standard's padding has: up to the length
field of this block, or through the rest of it and up to the length field of the next. -/
theorem padding_eq (m : Bytes) :
    Sha1Standard.padding m =
      [0x80] ++ List.replicate
        (if 56 < m.length % 64 + 1 then 64 - (m.length % 64 + 1) + 56
          else 56 - (m.length % 64 + 1)) 0 ++
        bigEndian 8 (8 * m.length) := by
  have hzeros : (Sha1Standard.zeroBits (8 * m.length) - 7) / 8 =
      if 56 < m.length % 64 + 1 then 64 - (m.length % 64 + 1) + 56
        else 56 - (m.length % 64 + 1) := by
    have hmod := (Sha1Standard.zeroBits_least (8 * m.length)).1
    have hlt : Sha1Standard.zeroBits (8 * m.length) < 512 := Nat.mod_lt _ (by decide)
    split <;> omega
  rw [Sha1Standard.padding, hzeros]
  simp

/-- The bytes of the length are put one by one. -/
theorem putLength_eq (s : Sha1) :
    [7, 6, 5, 4, 3, 2, 1, 0].foldl (fun t i => t.put (byteOfWord64 t.bitCount i)) s =
      ([7, 6, 5, 4, 3, 2, 1, 0].map (byteOfWord64 s.bitCount)).foldl Sha1.put s := rfl

/-- The marker and the zeros leave the buffer at the length field. -/
theorem Holds.padded {s : Sha1} {m : Bytes} (h : Holds s m) :
    ∃ padded : Sha1, padded.bufferSize = 56 ∧ padded.bitCount = s.bitCount ∧
      Buffered padded (m ++ ([0x80] ++ List.replicate
        (if 56 < m.length % 64 + 1 then 64 - (m.length % 64 + 1) + 56
          else 56 - (m.length % 64 + 1)) 0)) ∧
      s.finish = ([7, 6, 5, 4, 3, 2, 1, 0].foldl (fun t i => t.put (byteOfWord64 t.bitCount i))
        padded).flush := by
  have hsize := h.bufferSize_eq h.room
  have hmarked := h.put 0x80 h.room
  have hmarkedSize : (s.put 0x80).bufferSize = m.length % 64 + 1 := by
    rw [put_bufferSize, hsize]
  rw [Sha1.finish, hmarkedSize]
  split
  · -- the length field does not fit behind the marker: zeros to the end, and one more block
    obtain ⟨hfilled, hfull, hbits⟩ := hmarked.zeroFill 64 le_rfl (by omega)
    obtain ⟨hpadded, hend, hbits'⟩ := (hfilled.flush hfull).zeroFill 56 (by omega)
      (by rw [Sha1.flush_bufferSize]; omega)
    refine ⟨_, hend, ?_, ?_, rfl⟩
    · rw [hbits', Sha1.flush_bitCount, hbits, put_bitCount]
    · rw [Sha1.flush_bufferSize, hmarkedSize] at hpadded
      rw [List.replicate_add]
      simpa [List.append_assoc] using hpadded
  · obtain ⟨hpadded, hend, hbits⟩ := hmarked.zeroFill 56 (by omega) (by omega)
    refine ⟨_, hend, ?_, ?_, rfl⟩
    · rw [hbits, put_bitCount]
    · rw [hmarkedSize] at hpadded
      simpa [List.append_assoc] using hpadded

/-- After `finish` the state is the fold over the blocks of the padded message. -/
theorem Holds.finish {s : Sha1} {m : Bytes} (h : Holds s m) :
    s.finish.state = (blocksOf 64 (m ++ Sha1Standard.padding m)).foldl processBlock
      Sha1.initial.state := by
  obtain ⟨padded, hend, hbits, hpadded, hfinish⟩ := h.padded
  rw [hfinish, putLength_eq, hbits, h.bitCount_eq, lengthField_eq]
  obtain ⟨hwhole, hfull, -⟩ := hpadded.puts (bigEndian 8 (8 * m.length))
    (by rw [hend, BigEndian.length_bigEndian])
  rw [hend, BigEndian.length_bigEndian] at hfull
  have habsorbs := (hwhole.flush hfull).absorbs
  rw [Sha1.flush_bufferSize, List.take_zero] at habsorbs
  rw [habsorbs.state_eq (by omega), padding_eq]
  simp only [List.append_assoc]

/-- The digest of an object that has taken in `m` is the standard's digest of `m`. -/
theorem Holds.final {s : Sha1} {m : Bytes} (h : Holds s m) : s.final.1 = Sha1Standard.sha1 m := by
  have hstate := foldl_processBlock_eq
    (fun _ => length_of_mem_blocksOf 64 (m ++ Sha1Standard.padding m))
    Sha1.initial.state
  rw [← h.finish] at hstate
  have hstart : asHash Sha1.initial.state = Sha1Standard.H0 := rfl
  rw [hstart] at hstate
  simp only [Sha1.final, wordBytes_eq, Sha1Standard.sha1, ← hstate, asHash]

/-- The digest of a message is that of the standard. -/
theorem digest_eq_sha1 (m : Bytes) : Sha1.digest m = Sha1Standard.sha1 m :=
  (holds_initial.update m).final

/-- **The class computes SHA-1.**  For every sequence of `update` calls, `final` returns the
standard's digest of the concatenation; `digest` is one such sequence.  The standard defines the
digest of messages of fewer than `2 ^ 64` bits; the class counts the bits modulo `2 ^ 64`, as
`padding` does, so the equation needs no bound.
SRCLINE: Sha1.cpp:17-126 -/
theorem update_final_eq_sha1 :
    (∀ chunks : List Bytes, (chunks.foldl Sha1.update Sha1.initial).final.1 =
      Sha1Standard.sha1 chunks.flatten) ∧
    ∀ m : Bytes, Sha1.digest m = Sha1Standard.sha1 m := by
  refine ⟨fun chunks => ?_, digest_eq_sha1⟩
  exact (holds_initial.updates chunks).final

example : Sha1.toHex (Sha1.digest (bytes "abc")) =
    bytes "a9993e364706816aba3e25717850c26c9cd0d89d" := by
  decide +kernel

end Vtfs.Analysis
