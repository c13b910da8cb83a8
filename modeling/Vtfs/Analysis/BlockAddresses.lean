import Vtfs.Interface.BlockAddresses
import Vtfs.Analysis.StreamRequests

/-!
# Division by the piece length

The piece length of a torrent is an integer of its file, cast to 64 bits without a sign and then
to 32 bits, and `pumpOnce` divides by what is left.  The divisor is zero for the multiples of
`2 ^ 32` (`neverDividesByZero_iff`), and the address of a block is what was meant for the requests
that `Addressable` describes (`pumpOnce_addresses_iff`).
-/

set_option autoImplicit false

namespace Vtfs.Analysis

open Vtfs.Library
open Vtfs.Model
open Vtfs.Interface

/-! ## Division by a length that is cut off -/

/-- A piece and a place in it are the quotient and the remainder of the address. -/
theorem div_mod_of_address {i j length first : ℕ} (h : i * length + j = first)
    (hj : j < length) : first / length = i ∧ first % length = j := by
  refine (Nat.div_mod_unique (by omega)).mpr ⟨?_, hj⟩
  rw [← h, Nat.mul_comm, Nat.add_comm]

/-- The quotient and the rest for a length modulo `B`, the quotient cut off at `B` too, are an
address for the whole length if and only if the quotient for the whole length is below `B`, its
rest is a rest for the length that is cut off, and what was cut off comes out even. -/
theorem cut_address_iff {B length first : ℕ} (hB : 0 < B) (hcut : 0 < length % B) :
    first / (length % B) % B * length + first % (length % B) = first ↔
      first / length < B ∧ first % length < length % B ∧
        length % B ∣ first / length * (length / B) := by
  have hlength := Nat.div_add_mod length B
  have hle : length % B ≤ length := Nat.mod_le _ _
  constructor
  · intro haddress
    have hrest := Nat.mod_lt first hcut
    obtain ⟨hquotient, hsame⟩ := div_mod_of_address haddress (hrest.trans_le hle)
    refine ⟨by rw [hquotient]; exact Nat.mod_lt _ hB, by rw [hsame]; exact hrest, ?_⟩
    -- both quotients times their lengths are the position without the rest
    refine ⟨first / (length % B) / B, ?_⟩
    have hcutSplit := Nat.div_add_mod' first (length % B)
    have hover := Nat.div_add_mod (first / (length % B)) B
    apply Nat.eq_of_mul_eq_mul_left hB
    rw [hquotient]
    generalize first / (length % B) = q at *
    generalize length / B = h at *
    generalize length % B = m at *
    generalize q % B = i at *
    generalize q / B = k at *
    have hproducts : i * length = q * m := by omega
    apply Nat.add_right_cancel (m := i * m)
    calc B * (i * h) + i * m = i * (B * h + m) := by ring
      _ = (B * k + i) * m := by rw [hlength, hproducts, hover]
      _ = B * (m * k) + i * m := by ring
  · rintro ⟨hsmall, hearly, k, heven⟩
    have hsplit := Nat.div_add_mod' first length
    generalize first / length = i at *
    generalize first % length = r at *
    have hfirst : first = r + length % B * (B * k + i) := by
      calc first = i * (B * (length / B) + length % B) + r := by rw [hlength, hsplit]
        _ = B * (i * (length / B)) + i * (length % B) + r := by ring
        _ = B * (length % B * k) + i * (length % B) + r := by rw [heven]
        _ = r + length % B * (B * k + i) := by ring
    have hquotient : first / (length % B) = B * k + i := by
      rw [hfirst, Nat.add_mul_div_left _ _ hcut, Nat.div_eq_of_lt hearly, Nat.zero_add]
    have hrest : first % (length % B) = r := by
      rw [hfirst, Nat.add_mul_mod_self_left, Nat.mod_eq_of_lt hearly]
    rw [hquotient, hrest, Nat.mul_add_mod, Nat.mod_eq_of_lt hsmall, hsplit]

/-! ## The divisor -/

/-- The length that is divided by is the one of the pieces in 32 bits. -/
theorem toNat_divisor (pieceLength : UInt64) :
    pieceLength.toUInt32.toUInt64.toNat = pieceLength.toNat % 2 ^ 32 := by
  simp

/-- It is not zero when there is a remainder in 32 bits. -/
theorem divisor_ne_zero_iff {pieceLength : UInt64} :
    pieceLength.toUInt32 ≠ 0 ↔ 0 < pieceLength.toNat % 2 ^ 32 := by
  rw [Nat.pos_iff_ne_zero, ne_eq, ne_eq, ← UInt32.toNat_inj, UInt64.toNat_toUInt32]
  rfl

/-- The divisor for an integer of the file is zero when the integer is a multiple of `2 ^ 32`. -/
theorem toUInt32_toUInt64_eq_zero_iff (length : Int64) :
    length.toUInt64.toUInt32 = 0 ↔ (2 : ℤ) ^ 32 ∣ length.toInt := by
  have hzero : length.toUInt64.toUInt32 = 0 ↔ length.toUInt64.toNat % 2 ^ 32 = 0 := by
    rw [← UInt32.toNat_inj, UInt64.toNat_toUInt32]
    rfl
  rw [hzero, toInt_eq_of_toUInt64]
  split
  · omega
  · omega

section Division

variable {engine t : TorrentEngine} {announced : Option (List TrackerPeer)}
  {network : PeerNetwork}

/-- With such a length no block divides by zero. -/
theorem blockFor_ne_divisionByZero {metadata : TorrentMetadata}
    (h : metadata.pieceLength.toUInt32 ≠ 0) (request : StreamRequest) :
    TorrentEngine.blockFor metadata request ≠ .error .divisionByZero := by
  unfold TorrentEngine.blockFor
  simp only
  split
  · simp
  · rw [if_neg h]
    simp

/-- A fault of a call is one of the block for the request in front. -/
theorem pumpOnce_ne_divisionByZero (h : engine.metadata.pieceLength.toUInt32 ≠ 0) :
    engine.pumpOnce announced network ≠ .error .divisionByZero := by
  by_cases hrunning : engine.running = true
  · rw [pumpOnce_of_running hrunning]
    unfold TorrentEngine.serveFront
    split
    · next connection front rest _ _ =>
      apply except_bind_ne_error (blockFor_ne_divisionByZero h front)
      exact fun block => except_pure_ne_error _ _
    · exact except_pure_ne_error _ _
  · rw [TorrentEngine.pumpOnce, if_pos hrunning]
    simp

/-- No call changes the torrent. -/
theorem nextEngine_metadata {call : EngineCall} (h : nextEngine engine call = some t) :
    t.metadata = engine.metadata := by
  cases call with
  | start => rw [← Option.some.inj h]; rfl
  | stop => rw [← Option.some.inj h]; rfl
  | requestFileData request =>
      rw [← Option.some.inj h]
      show (engine.requestFileData request).metadata = engine.metadata
      unfold TorrentEngine.requestFileData
      split <;> rfl
  | pumpOnce announced network =>
      obtain ⟨⟨after, frames⟩, hcall, rfl⟩ := Option.map_eq_some_iff.mp h
      cases hpump : engine.pumpOnce announced network with
      | error fault => simp [engineCall, hpump, Except.toOption] at hcall
      | ok result =>
          simp only [engineCall, hpump, Except.toOption, Option.some.injEq] at hcall
          subst hcall
          by_cases hrunning : engine.running = true
          · rw [pumpOnce_of_running hrunning] at hpump
            exact (serveFront_cases hpump).1
          · rw [TorrentEngine.pumpOnce, if_pos hrunning] at hpump
            rw [← (Prod.mk.inj (Except.ok.inj hpump)).1]

/-- The metadata of the engine stay those it was created with. -/
theorem metadata_of_reachable {metadata : TorrentMetadata}
    (h : Reachable nextEngine anyAction (TorrentEngine.create metadata) engine) :
    engine.metadata = metadata :=
  h.invariant (I := fun e => e.metadata = metadata) rfl fun _ _ _ hs _ hnext =>
    (nextEngine_metadata hnext).trans hs

/-- A state with a peer and a request is reached from any metadata. -/
theorem reachable_ready (metadata : TorrentMetadata) :
    ∃ engine, Reachable nextEngine anyAction (TorrentEngine.create metadata) engine ∧
      engine.peerConnection ≠ none ∧ engine.requests ≠ [] ∧ engine.metadata = metadata :=
  ⟨⟨metadata, true, [⟨0, 0, 1⟩], defaultBootstrapNodes, some ⟨3⟩⟩, Reachable.of_endOf
    [.start, .pumpOnce none (socketThree true), .requestFileData ⟨0, 0, 1⟩] rfl,
    Option.some_ne_none _, List.cons_ne_nil _ _, rfl⟩

/-- An engine never divides by zero exactly when the length is not zero in 32 bits. -/
theorem neverDividesByZero_iff_divisor {metadata : TorrentMetadata} :
    NeverDividesByZero metadata ↔ metadata.pieceLength.toUInt32 ≠ 0 := by
  constructor
  · intro h
    obtain ⟨engine, hreach, hpeer, hrequest, hmetadata⟩ := reachable_ready metadata
    have hdivisor := h.divisor engine hreach hpeer hrequest
    rwa [hmetadata] at hdivisor
  · intro h
    refine ⟨fun engine hreach _ _ => ?_, fun engine hreach announced network => ?_⟩
    · rwa [metadata_of_reachable hreach]
    · apply pumpOnce_ne_divisionByZero
      rwa [metadata_of_reachable hreach]

end Division

/-- **Division by zero.**  With the metadata of an accepted torrent `pumpOnce` never divides by
zero, in any state it reaches, if and only if the torrent's piece length is no multiple of
`2 ^ 32`.
SRCLINE: TorrentMetadata.cpp:60-68, TorrentEngine.cpp:88-98 -/
theorem neverDividesByZero_iff {raw : StringView} {root : BencodeValue}
    {metadata : TorrentMetadata} (hparses : Parses raw root) (haccepts : Accepts raw metadata) :
    NeverDividesByZero metadata ↔
      ∀ length, pieceLengthGiven root = some length → ¬ (2 : ℤ) ^ 32 ∣ length.toInt := by
  obtain ⟨root', hparses', hmetadata⟩ := accepts_iff.mp haccepts
  obtain rfl := parses_unique hparses hparses'
  obtain ⟨entries, info, rfl, hinfo, -, -, ⟨length, hfind, hlength⟩, -⟩ :=
    metadataOf_eq_ok hmetadata
  have hgiven : pieceLengthGiven (.dictionary entries) = some length := by
    simp only [pieceLengthGiven, hinfo, hfind]
  rw [neverDividesByZero_iff_divisor, hlength, ne_eq, toUInt32_toUInt64_eq_zero_iff, hgiven]
  simp only [Option.some.injEq, forall_eq']

/-- A torrent of one piece. -/
theorem neverDividesByZero_onePiece :
    ∃ root metadata, Parses onePieceTorrent root ∧ Accepts onePieceTorrent metadata ∧
      NeverDividesByZero metadata := by
  obtain ⟨root, metadata, hparses, haccepts, hlength⟩ :
      ∃ root metadata, Parses onePieceTorrent root ∧ Accepts onePieceTorrent metadata ∧
        pieceLengthGiven root = some 8 :=
    exists_parses_of pieceLengthGiven 40 (by decide +kernel) (by decide +kernel)
  refine ⟨root, metadata, hparses, haccepts,
    (neverDividesByZero_iff hparses haccepts).mpr fun length hgiven => ?_⟩
  obtain rfl := Option.some.inj (hlength.symm.trans hgiven)
  have height : (8 : Int64).toInt = 8 := by decide
  omega

/-- A torrent with the piece length 0. -/
def zeroPieceTorrent : StringView :=
  ⟨bytes "d4:infod6:lengthi5e4:name1:a12:piece lengthi0e6:pieces0:ee", by decide⟩

/-- A torrent whose pieces have a length of zero. -/
theorem neverDividesByZero_fails :
    ¬ ∀ raw metadata, Accepts raw metadata → NeverDividesByZero metadata := by
  intro h
  obtain ⟨metadata, haccepts, hlength⟩ :
      ∃ metadata, Accepts zeroPieceTorrent metadata ∧ metadata.pieceLength = 0 :=
    exists_accepts_of (·.pieceLength) 40 (by decide +kernel)
  have hdivisor := neverDividesByZero_iff_divisor.mp (h _ _ haccepts)
  rw [hlength] at hdivisor
  exact hdivisor rfl

/-! ## The address of a block -/

section Address

variable {metadata : TorrentMetadata} {request : StreamRequest} {block : TorrentEngine.Block}
  {file : TorrentFileRecord}

/-- A block has the length that was asked for, up to the limit. -/
theorem blockFor_length (h : TorrentEngine.blockFor metadata request = .ok block) :
    block.length.toNat = blockLength request := by
  obtain ⟨file, -, -, rfl⟩ := blockFor_eq_ok h
  exact toNat_min_uInt32 _ _

/-- The numbers of a block, for a position of 64 bits. -/
theorem blockFor_address (h : TorrentEngine.blockFor metadata request = .ok block)
    (hfile : fileOf metadata request = some file)
    (hsmall : firstPosition file request < 2 ^ 64) :
    0 < metadata.pieceLength.toNat % 2 ^ 32 ∧
      block.pieceIndex.toNat =
        firstPosition file request / (metadata.pieceLength.toNat % 2 ^ 32) % 2 ^ 32 ∧
      block.pieceOffset.toNat =
        firstPosition file request % (metadata.pieceLength.toNat % 2 ^ 32) := by
  obtain ⟨other, hother, hdivisor, rfl⟩ := blockFor_eq_ok h
  obtain rfl := Option.some.inj (hfile.symm.trans hother)
  have hcut := divisor_ne_zero_iff.mp hdivisor
  have hglobal : (file.offset + request.offset).toNat = firstPosition file request := by
    rw [UInt64.toNat_add]
    exact Nat.mod_eq_of_lt hsmall
  refine ⟨hcut, ?_, ?_⟩
  · simp only [UInt64.toNat_toUInt32, UInt64.toNat_div, toNat_divisor, hglobal]
  · simp only [UInt64.toNat_toUInt32, UInt64.toNat_mod, toNat_divisor, hglobal]
    exact Nat.mod_eq_of_lt ((Nat.mod_lt _ hcut).trans (Nat.mod_lt _ (by decide)))

/-- The block for a request addresses the first byte of the request as it should, if and only if
this is addressable. -/
theorem addresses_blockFor_iff (hblock : TorrentEngine.blockFor metadata request = .ok block)
    (hfile : fileOf metadata request = some file) :
    Addresses metadata block (firstPosition file request) ↔
      Addressable metadata (firstPosition file request) (blockLength request) := by
  have htotal : metadata.totalSize.toNat < 2 ^ 64 := metadata.totalSize.toNat_lt
  have hlength := blockFor_length hblock
  have haddress := blockFor_address hblock hfile
  have hle := Nat.mod_le metadata.pieceLength.toNat (2 ^ 32)
  constructor
  · intro h
    have hinTorrent := h.inTorrent
    rw [h.position, hlength] at hinTorrent
    obtain ⟨hcut, hindex, hoffset⟩ := haddress (by omega)
    have hposition := h.position
    have hoffsetLt : block.pieceOffset.toNat < metadata.pieceLength.toNat :=
      (hoffset ▸ Nat.mod_lt _ hcut).trans_le hle
    obtain ⟨hquotient, hrest⟩ := div_mod_of_address hposition hoffsetLt
    have hfits := hposition
    rw [hindex, hoffset, cut_address_iff (by decide) hcut] at hfits
    exact
      { nonempty := hlength ▸ h.nonempty
        samePiece := by rw [hrest, ← hlength]; exact h.inPiece
        piece := by rw [hquotient]; exact h.piece
        inTorrent := hinTorrent
        small := hfits.1
        early := hfits.2.1
        even := hfits.2.2 }
  · intro h
    have hinTorrent := h.inTorrent
    obtain ⟨hcut, hindex, hoffset⟩ := haddress (by omega)
    have hposition := (cut_address_iff (by decide) hcut).mpr ⟨h.small, h.early, h.even⟩
    rw [← hindex, ← hoffset] at hposition
    have hoffsetLt : block.pieceOffset.toNat < metadata.pieceLength.toNat :=
      (hoffset ▸ Nat.mod_lt _ hcut).trans_le hle
    obtain ⟨hquotient, hrest⟩ := div_mod_of_address hposition hoffsetLt
    exact
      { position := hposition
        piece := hquotient ▸ h.piece
        nonempty := hlength ▸ h.nonempty
        inPiece := by rw [← hrest, hlength]; exact h.samePiece
        inTorrent := by rw [hposition, hlength]; exact hinTorrent }

end Address

/-! ## What a call asks for -/

/-- The frame that says interested asks for no block. -/
theorem requestedBlock_interested : requestedBlock (messageFrame ⟨interested, []⟩) = none := rfl

/-- A frame that asks for a block is the one for the request in front. -/
theorem block_of_pumpOnce {engine after : TorrentEngine} {announced : Option (List TrackerPeer)}
    {network : PeerNetwork} {frames : List Bytes} {frame : Bytes} {block : TorrentEngine.Block}
    (hcall : engine.pumpOnce announced network = .ok (after, frames)) (hframe : frame ∈ frames)
    (hblock : requestedBlock frame = some block) :
    ∃ front, engine.requests.head? = some front ∧
      TorrentEngine.blockFor engine.metadata front = .ok block := by
  by_cases hrunning : engine.running = true
  · rw [pumpOnce_of_running hrunning] at hcall
    obtain ⟨-, -, ⟨-, rfl⟩ | ⟨connection, front, asked, -, hqueue, hasked, rfl⟩⟩ :=
      serveFront_cases hcall
    · cases hframe
    · have hqueue : engine.requests = front :: after.requests := hqueue
      refine ⟨front, by rw [hqueue]; rfl, ?_⟩
      -- of the two frames only the second one asks for a block
      have hcases : frame = messageFrame ⟨interested, []⟩ ∨
          frame = PeerConnection.requestFrame asked.pieceIndex asked.pieceOffset asked.length := by
        have hsend : ∀ sent, frame ∈ (connection.send network sent).2 → frame = sent := by
          intro sent hmem
          unfold PeerConnection.send at hmem
          split at hmem
          · cases hmem
          · split at hmem
            · exact List.mem_singleton.mp hmem
            · cases hmem
        rcases List.mem_append.mp hframe with hfirst | hsecond
        · exact Or.inl (hsend _ hfirst)
        · split at hsecond
          · exact Or.inr (hsend _ hsecond)
          · cases hsecond
      rcases hcases with rfl | rfl
      · rw [requestedBlock_interested] at hblock
        cases hblock
      · rw [requestedBlock_requestFrame] at hblock
        obtain rfl := Option.some.inj hblock
        exact hasked
  · rw [TorrentEngine.pumpOnce, if_pos hrunning] at hcall
    obtain ⟨-, rfl⟩ := Prod.mk.inj (Except.ok.inj hcall)
    cases hframe

/-- **The address of a block.**  In every state that the engine reaches, a block that a call of
`pumpOnce` asks for is for the request in front, and it addresses the first byte of the request
as it should if and only if this is addressable.
SRCLINE: TorrentEngine.cpp:88-98, PeerConnection.cpp:119-135 -/
theorem pumpOnce_addresses_iff {metadata : TorrentMetadata} {engine after : TorrentEngine}
    {announced : Option (List TrackerPeer)} {network : PeerNetwork} {frames : List Bytes}
    {frame : Bytes} {block : TorrentEngine.Block}
    (hreach : Reachable nextEngine anyAction (TorrentEngine.create metadata) engine)
    (hcall : engine.pumpOnce announced network = .ok (after, frames)) (hframe : frame ∈ frames)
    (hblock : requestedBlock frame = some block) :
    ∃ front file, engine.requests.head? = some front ∧ fileOf metadata front = some file ∧
      (Addresses metadata block (firstPosition file front) ↔
        Addressable metadata (firstPosition file front) (blockLength front)) := by
  obtain ⟨front, hfront, hasked⟩ := block_of_pumpOnce hcall hframe hblock
  rw [metadata_of_reachable hreach] at hasked
  obtain ⟨file, hfile, -⟩ := blockFor_eq_ok hasked
  exact ⟨front, file, hfront, hfile, addresses_blockFor_iff hasked hfile⟩

/-! ## Concrete requests -/

/-- A torrent with two pieces of one byte each. -/
def twoPieceTorrent : StringView :=
  ⟨bytes "d4:infod6:lengthi2e4:name1:a12:piece lengthi1e6:pieces40:" ++
    List.replicate 40 (byte 'x') ++ bytes "ee", by decide⟩

/-- Its metadata. -/
def twoPieceMetadata : TorrentMetadata where
  name := bytes "a"
  infoHashHex := bytes "a854396feab42eec8209e7a9c9f01ef53a4dedcf"
  announceUrl := []
  totalSize := 2
  pieceLength := 1
  pieceCount := 2
  pieceHashes := [List.replicate 20 (byte 'x'), List.replicate 20 (byte 'x')]
  files := [⟨bytes "a", 2, 0⟩]

/-- The torrent of two pieces loads. -/
theorem accepts_twoPieceTorrent : Accepts twoPieceTorrent twoPieceMetadata :=
  accepts_of_value? 60 (by decide +kernel)

/-- The engine with one request in its queue. -/
def engineAsked (request : StreamRequest) : TorrentEngine :=
  ⟨twoPieceMetadata, true, [request], [], none⟩

/-- An engine that was asked once is reached. -/
theorem reachable_engineAsked (request : StreamRequest) :
    Reachable nextEngine anyAction (TorrentEngine.create twoPieceMetadata)
      (engineAsked request) :=
  Reachable.of_endOf [.start, .requestFileData request] rfl

/-- The second byte of the torrent is asked for as the first byte of its second piece. -/
theorem pumpOnce_addresses_secondByte : Addresses twoPieceMetadata ⟨1, 0, 1⟩ 1 := by
  have hcall : (engineAsked ⟨0, 1, 1⟩).pumpOnce none (socketThree true) = .ok (_, _) := rfl
  obtain ⟨front, file, hfront, hfile, haddresses⟩ :=
    pumpOnce_addresses_iff (reachable_engineAsked ⟨0, 1, 1⟩) hcall
      (List.mem_cons_of_mem _ (List.mem_singleton_self _)) (requestedBlock_requestFrame 1 0 1)
  obtain rfl := Option.some.inj hfront
  obtain rfl := Option.some.inj hfile
  exact haddresses.mpr
    ⟨by decide, by decide, by decide, by decide, by decide, by decide, by decide⟩

/-- Two bytes from the start are asked for as a block of two bytes in a piece of one. -/
theorem pumpOnce_addresses_fails : ¬ ∀ raw metadata, Accepts raw metadata →
    ∀ engine, Reachable nextEngine anyAction (TorrentEngine.create metadata) engine →
    ∀ announced network after frames, engine.pumpOnce announced network = .ok (after, frames) →
    ∀ frame ∈ frames, ∀ block, requestedBlock frame = some block →
    ∀ front file, engine.requests.head? = some front → fileOf metadata front = some file →
      front.offset.toNat + front.length.toNat ≤ file.size.toNat →
      Addresses metadata block (firstPosition file front) := by
  intro h
  have haddresses := h _ _ accepts_twoPieceTorrent _ (reachable_engineAsked ⟨0, 0, 2⟩) none
    (socketThree true) _ _ rfl _ (List.mem_cons_of_mem _ (List.mem_singleton_self _)) _
    (requestedBlock_requestFrame 0 0 2) _ ⟨bytes "a", 2, 0⟩ rfl rfl (by decide)
  exact absurd haddresses.inPiece (by decide)

end Vtfs.Analysis
