import Onx.Networking.Rldp

/-!
# What sender and receiver do with chunks

* `RldpConfig.Accepts`                 a payload and a configuration that a sender is made of;
* `encode_frameAt`                     **each frame of such a sender can be encoded**;
* `nextRound_spec`, `mem_applyAck`     the packets of a round, and the numbers in an acknowledgement;
* `Holds`                              the receiver has the chunks of a set of numbers, and no others;
* `Holds.payload`, `Holds.ack`         the payload once all are there, and the acknowledgement of them.
-/

namespace Onx
open ByteBits

/-- the number of chunks of a payload -/
abbrev RldpConfig.chunks (config : RldpConfig) (payload : Bytes) : Nat :=
  payload.length ⌈/⌉ config.chunkSize

/-- what `new` checks -/
structure RldpConfig.Accepts (config : RldpConfig) (payload : Bytes) : Prop where
  nonempty : payload ≠ []
  length_le : payload.length ≤ MAX_TRANSFER_SIZE
  chunkSize_pos : 0 < config.chunkSize
  chunkSize_lt : config.chunkSize < 2^16
  redundancy_pos : 0 < config.redundancy
  packetsPerRound_pos : 0 < config.packetsPerRound
  chunks_lt : config.chunks payload < 2^16

section
variable {c : Crypto} {transferId : Uint256} {payload : Bytes} {config : RldpConfig}

/-- a sender before its first round -/
def RldpSender.fresh (c : Crypto) (transferId : Uint256) (payload : Bytes) (config : RldpConfig) :
    RldpSender where
  frames := (List.range (config.chunks payload)).map (frameAt c transferId payload config)
  transferId := transferId
  acknowledged := ∅
  lastAckSeq := 0
  config := config
  cursor := 0

theorem RldpSender.new_ok {sender : RldpSender}
    (h : RldpSender.new c transferId payload config = .ok sender) :
    config.Accepts payload ∧ sender = RldpSender.fresh c transferId payload config := by
  unfold RldpSender.new at h
  split_ifs at h with hbad hmany
  push Not at hbad
  obtain ⟨hne, hlen, hsize, hlarge, hredundancy, hpackets⟩ := hbad
  cases h
  refine ⟨⟨hne, hlen, Nat.pos_of_ne_zero hsize, ?_, Nat.pos_of_ne_zero hredundancy,
    Nat.pos_of_ne_zero hpackets, ?_⟩, rfl⟩
  · omega
  · show payload.length ⌈/⌉ config.chunkSize < 2^16
    omega

theorem chunkAt_eq_piece (payload : Bytes) (size i : Nat) :
    chunkAt payload size i = Pieces.piece size 0 payload i := by
  have hstop : min (i * size + size) payload.length - i * size
      = min size (payload.length - i * size) := by omega
  have htake : (payload.drop (i * size)).take (min size (payload.length - i * size))
      = (payload.drop (i * size)).take size := by
    rw [← List.length_drop, List.take_eq_take_min]
    simp
  unfold chunkAt Pieces.piece
  dsimp only
  rw [hstop, htake]
  congr 2
  omega

@[simp] theorem length_chunkAt (payload : Bytes) (size i : Nat) :
    (chunkAt payload size i).length = size := by
  rw [chunkAt_eq_piece, Pieces.length_piece]

/-! ## frames -/

namespace RldpConfig.Accepts
variable (h : config.Accepts payload)
include h

theorem length_lt : payload.length < 2^32 := by
  have := h.length_le
  unfold MAX_TRANSFER_SIZE at this
  omega

theorem toNat_totalSize : (BitVec.ofNat 32 payload.length).toNat = payload.length := by
  rw [BitVec.toNat_ofNat, Nat.mod_eq_of_lt h.length_lt]

theorem toNat_chunkSize : (BitVec.ofNat 16 config.chunkSize).toNat = config.chunkSize := by
  rw [BitVec.toNat_ofNat, Nat.mod_eq_of_lt h.chunkSize_lt]

theorem toNat_chunkCount : (BitVec.ofNat 16 (config.chunks payload)).toNat = config.chunks payload := by
  rw [BitVec.toNat_ofNat, Nat.mod_eq_of_lt h.chunks_lt]

theorem toNat_seqNo {i : Nat} (hi : i < config.chunks payload) : (BitVec.ofNat 16 i).toNat = i := by
  rw [BitVec.toNat_ofNat, Nat.mod_eq_of_lt (hi.trans h.chunks_lt)]

theorem chunks_pos : 0 < config.chunks payload := by
  have hcover := Pieces.length_le_ceilDiv config.chunkSize payload h.chunkSize_pos
  have hlen : 0 < payload.length := List.length_pos_iff.mpr h.nonempty
  exact Nat.pos_of_mul_pos_right (hlen.trans_le hcover)

theorem validateDimensions_ok :
    validateDimensions (BitVec.ofNat 32 payload.length) (BitVec.ofNat 16 config.chunkSize)
      (BitVec.ofNat 16 (config.chunks payload)) = .ok () := by
  have hnonzero : ∀ {w : Nat} {x : BitVec w}, 0 < x.toNat → x ≠ 0 := by
    intro w x hpos hzero
    rw [hzero] at hpos
    simp at hpos
  unfold validateDimensions
  rw [if_neg]
  push Not
  refine ⟨hnonzero ?_, ?_, hnonzero ?_, hnonzero ?_, ?_⟩
  · rw [h.toNat_totalSize]
    exact List.length_pos_iff.mpr h.nonempty
  · rw [h.toNat_totalSize]
    exact h.length_le
  · rw [h.toNat_chunkSize]
    exact h.chunkSize_pos
  · rw [h.toNat_chunkCount]
    exact h.chunks_pos
  · rw [h.toNat_totalSize, h.toNat_chunkSize, h.toNat_chunkCount]

/-- **Each frame can be encoded.** -/
theorem encode_frameAt {i : Nat} (hi : i < config.chunks payload) :
    ∃ wire, (frameAt c transferId payload config i).encode = .ok wire := by
  unfold RldpDataFrame.encode frameAt
  dsimp only
  rw [h.validateDimensions_ok]
  refine ⟨_, if_neg ?_⟩
  push Not
  rw [length_chunkAt, h.toNat_chunkSize]
  refine ⟨?_, rfl⟩
  show (BitVec.ofNat 16 i).toNat < (BitVec.ofNat 16 (config.chunks payload)).toNat
  rw [h.toNat_seqNo hi, h.toNat_chunkCount]
  exact hi

end RldpConfig.Accepts

end

/-! ## rounds -/

namespace RldpSender

theorem emit_eq {packetsPerRound : Nat} {frame : RldpDataFrame} {wire : Bytes}
    (hwire : frame.encode = .ok wire) (copies : Nat) {packets : List Bytes}
    (hle : packets.length ≤ packetsPerRound) :
    emit packetsPerRound frame copies packets
      = some (packets ++ List.replicate (min copies (packetsPerRound - packets.length)) wire) := by
  induction copies generalizing packets with
  | zero => simp [emit]
  | succ copies ih =>
    unfold emit
    by_cases hfull : packets.length = packetsPerRound
    · simp [hfull]
    · have hlen : (packets ++ [wire]).length = packets.length + 1 := by simp
      rw [if_neg hfull, hwire]
      dsimp only
      rw [ih (by omega), hlen, List.append_assoc, List.singleton_append, ← List.replicate_succ]
      congr 3
      omega

/-- what a sender sends in a round: frames that are not acknowledged -/
def Sends (self : RldpSender) (packets : List Bytes) : Prop :=
  ∀ wire ∈ packets, ∃ frame ∈ self.frames, frame.seqNo ∉ self.acknowledged
    ∧ frame.encode = .ok wire

theorem roundLoop_spec {self : RldpSender}
    (hframes : ∀ frame ∈ self.frames, ∃ wire, frame.encode = .ok wire) (left : Nat) {cursor : Nat}
    (hcursor : cursor < self.frames.length) {packets : List Bytes}
    (hle : packets.length ≤ self.config.packetsPerRound) (hsends : self.Sends packets) :
    ∃ cursor' packets', roundLoop self left cursor packets = some (cursor', packets')
      ∧ cursor' < self.frames.length ∧ packets'.length ≤ self.config.packetsPerRound
      ∧ self.Sends packets' := by
  induction left generalizing cursor packets with
  | zero => exact ⟨cursor, packets, rfl, hcursor, hle, hsends⟩
  | succ left ih =>
    have hnext : (cursor + 1) % self.frames.length < self.frames.length :=
      Nat.mod_lt _ (by omega)
    unfold roundLoop
    by_cases hroom : packets.length < self.config.packetsPerRound
    · rw [if_pos hroom, List.getElem?_eq_getElem hcursor]
      simp only [Option.bind_eq_bind, Option.bind_some]
      by_cases hack : self.frames[cursor].seqNo ∈ self.acknowledged
      · rw [if_pos hack]
        exact ih hnext hle hsends
      · obtain ⟨wire, hwire⟩ := hframes _ (List.getElem_mem hcursor)
        rw [if_neg hack, emit_eq hwire self.config.redundancy hle, Option.bind_some]
        refine ih hnext ?_ ?_
        · simp
          omega
        · intro w hw
          rcases List.mem_append.mp hw with hold | hnew
          · exact hsends w hold
          · rw [List.eq_of_mem_replicate hnew]
            exact ⟨_, List.getElem_mem hcursor, hack, hwire⟩
    · rw [if_neg hroom]
      exact ⟨cursor, packets, rfl, hcursor, hle, hsends⟩

/-- **A round**: it panics only if there can be no vector of its size. -/
theorem nextRound_spec {self : RldpSender}
    (hframes : ∀ frame ∈ self.frames, ∃ wire, frame.encode = .ok wire)
    (hcursor : self.cursor < self.frames.length)
    (hsize : self.config.packetsPerRound * 24 ≤ ISIZE_MAX) :
    ∃ cursor packets, self.nextRound = some ({ self with cursor := cursor }, packets)
      ∧ cursor < self.frames.length ∧ packets.length ≤ self.config.packetsPerRound
      ∧ self.Sends packets := by
  obtain ⟨cursor, packets, hloop, hcursor', hle, hsends⟩ :=
    roundLoop_spec hframes self.frames.length hcursor
      (show ([] : List Bytes).length ≤ _ from Nat.zero_le _) (fun w hw => absurd hw List.not_mem_nil)
  refine ⟨cursor, packets, ?_, hcursor', hle, hsends⟩
  unfold nextRound
  rw [if_neg (Nat.not_lt.mpr hsize), hloop]
  rfl

/-! ## acknowledgements -/

/-- a fold whose steps add elements -/
theorem mem_foldl {α β : Type} {step : Finset α → β → Finset α} {R : β → α → Prop}
    (hstep : ∀ s b q, q ∈ step s b ↔ q ∈ s ∨ R b q) (l : List β) {s : Finset α} {q : α} :
    q ∈ l.foldl step s ↔ q ∈ s ∨ ∃ b ∈ l, R b q := by
  induction l generalizing s with
  | nil => simp
  | cons b l ih =>
    rw [List.foldl_cons, ih, hstep, or_assoc]
    simp

theorem and_one_shiftLeft_ne_zero {byte : Byte} {bit : Nat} (hbit : bit < 8) :
    byte &&& (1#8 <<< bit) ≠ 0 ↔ byte.getLsbD bit = true := by
  have hbits : ∀ k, (byte &&& 1#8 <<< bit).getLsbD k = (byte.getLsbD k && decide (bit = k)) := by
    intro k
    rw [BitVec.getLsbD_and, getLsbD_one_shiftLeft hbit]
  constructor
  · intro hne
    by_contra hclear
    refine hne (BitVec.eq_of_getLsbD_eq fun k _ => ?_)
    rw [hbits]
    by_cases hk : bit = k
    · rw [← hk, Bool.eq_false_of_not_eq_true hclear]
      simp
    · simp [hk]
  · intro hset hzero
    have h := hbits bit
    rw [hzero, hset] at h
    simp at h

theorem mem_applyByte {frames : Nat} (s : Finset Uint16) (byteAndIndex : Byte × Nat) (q : Uint16) :
    q ∈ applyByte frames s byteAndIndex ↔ q ∈ s ∨ ∃ bit < 8, byteAndIndex.2 * 8 + bit < frames
        ∧ byteAndIndex.1.getLsbD bit = true ∧ q = BitVec.ofNat 16 (byteAndIndex.2 * 8 + bit) := by
  unfold applyByte
  rw [mem_foldl (R := fun bit q => byteAndIndex.2 * 8 + bit < frames
    ∧ byteAndIndex.1 &&& (1#8 <<< bit) ≠ 0 ∧ q = BitVec.ofNat 16 (byteAndIndex.2 * 8 + bit))]
  · refine or_congr Iff.rfl (exists_congr fun bit => ?_)
    rw [List.mem_range]
    exact and_congr_right fun hbit => by rw [and_one_shiftLeft_ne_zero hbit]
  · intro s bit q
    dsimp only
    split_ifs with h
    · rw [Finset.mem_insert]
      tauto
    · tauto

theorem applyAck_keeps {self t : RldpSender} {ack : RldpAckFrame} (h : self.applyAck ack = .ok t) :
    ∃ lastAckSeq acknowledged,
      t = { self with lastAckSeq := lastAckSeq, acknowledged := acknowledged } := by
  unfold applyAck at h
  split_ifs at h
  · cases h
    exact ⟨_, _, rfl⟩
  · cases h
    exact ⟨_, _, rfl⟩

/-- **The numbers in an acknowledgement** that counts are those of its bits. -/
theorem mem_applyAck_iff {self t : RldpSender} {ack : RldpAckFrame} (h : self.applyAck ack = .ok t)
    (htransfer : ack.transferId = self.transferId) (hseq : self.lastAckSeq < ack.ackSeq) {q : Uint16} :
    q ∈ t.acknowledged ↔ q ∈ self.acknowledged ∨ ∃ seq < self.frames.length,
      getBit lsbFirst ack.receivedMask seq = true ∧ q = BitVec.ofNat 16 seq := by
  unfold applyAck at h
  rw [if_neg (not_or.mpr ⟨not_not.mpr htransfer, not_le.mpr hseq⟩)] at h
  split_ifs at h
  cases h
  show q ∈ List.foldl _ _ _ ↔ _
  rw [mem_foldl mem_applyByte]
  refine or_congr_right ⟨?_, ?_⟩
  · rintro ⟨⟨byte, i⟩, hmem, bit, hbit, hlt, hset, rfl⟩
    refine ⟨i * 8 + bit, hlt, ?_, rfl⟩
    have hget := List.mk_mem_zipIdx_iff_getElem?.mp hmem
    unfold getBit
    rw [show (i * 8 + bit) / 8 = i by omega, show (i * 8 + bit) % 8 = bit by omega, hget]
    exact hset
  · rintro ⟨seq, hlt, hset, rfl⟩
    unfold getBit at hset
    cases hbyte : ack.receivedMask[seq / 8]? with
    | none =>
      rw [hbyte] at hset
      exact absurd hset (by simp)
    | some byte =>
      rw [hbyte] at hset
      have hsplit : seq / 8 * 8 + seq % 8 = seq := Nat.div_add_mod' seq 8
      refine ⟨(byte, seq / 8), List.mk_mem_zipIdx_iff_getElem?.mpr hbyte, seq % 8,
        Nat.mod_lt seq (by decide), ?_, hset, ?_⟩
      · rwa [hsplit]
      · rw [hsplit]

theorem mem_applyAck {self t : RldpSender} {ack : RldpAckFrame} (h : self.applyAck ack = .ok t)
    {q : Uint16} (hq : q ∈ t.acknowledged) :
    q ∈ self.acknowledged ∨ ∃ seq < self.frames.length,
      getBit lsbFirst ack.receivedMask seq = true ∧ q = BitVec.ofNat 16 seq := by
  by_cases hstale : ack.transferId ≠ self.transferId ∨ ack.ackSeq ≤ self.lastAckSeq
  · unfold applyAck at h
    rw [if_pos hstale] at h
    cases h
    exact .inl hq
  · obtain ⟨htransfer, hseq⟩ := not_or.mp hstale
    exact (mem_applyAck_iff h (not_not.mp htransfer) (not_le.mp hseq)).mp hq

end RldpSender

/-! ## numbers of chunks -/

/-- the numbers below `n` as words -/
def numbers (n : Nat) : Finset Uint16 := (Finset.range n).image (BitVec.ofNat 16)

theorem mem_numbers {n i : Nat} (hi : i < n) : BitVec.ofNat 16 i ∈ numbers n :=
  Finset.mem_image_of_mem _ (Finset.mem_range.mpr hi)

theorem card_numbers {n : Nat} (hn : n < 2^16) : (numbers n).card = n := by
  unfold numbers
  rw [Finset.card_image_of_injOn, Finset.card_range]
  intro i hi j hj h
  have hi := Finset.mem_range.mp hi
  have hj := Finset.mem_range.mp hj
  exact BitVec.eq_of_ofNat_eq (hi.trans hn) (hj.trans hn) h

/-- as many numbers below `n` as there are -/
theorem eq_numbers {n : Nat} (hn : n < 2^16) {s : Finset Uint16} (hs : s ⊆ numbers n)
    (hcard : s.card = n) : s = numbers n :=
  Finset.eq_of_subset_of_card_le hs (by rw [card_numbers hn, hcard])

/-! ## the receiver -/

section
variable {c : Crypto} {transferId : Uint256} {payload : Bytes} {config : RldpConfig}
  {arrived : Set Nat} {r : RldpReceiver}

/-- the receiver of a payload has the chunks whose numbers are in `arrived` -/
structure Holds (c : Crypto) (transferId : Uint256) (payload : Bytes) (config : RldpConfig)
    (arrived : Set Nat) (r : RldpReceiver) : Prop where
  transferId_eq : r.transferId = transferId
  digest_eq : r.digest = c.sha256 payload
  totalSize_eq : r.totalSize = payload.length
  chunkSize_eq : r.chunkSize = config.chunkSize
  chunkCount_eq : r.chunkCount = config.chunks payload
  get?_iff : ∀ q data, r.chunks.get? q = some data
    ↔ ∃ i < config.chunks payload, i ∈ arrived ∧ q = BitVec.ofNat 16 i
      ∧ data = chunkAt payload config.chunkSize i

theorem fromFrame_holds (ha : config.Accepts payload) (i : Nat) :
    ∃ r, RldpReceiver.fromFrame (frameAt c transferId payload config i) = .ok r
      ∧ Holds c transferId payload config ∅ r := by
  unfold RldpReceiver.fromFrame frameAt
  dsimp only
  rw [ha.validateDimensions_ok]
  refine ⟨_, rfl, rfl, rfl, ha.toNat_totalSize, ha.toNat_chunkSize, ha.toNat_chunkCount, ?_⟩
  intro q data
  have hempty : (∅ : OrdMap Uint16 Bytes).get? q = none := rfl
  rw [hempty]
  simp

namespace Holds

theorem mem_keys (h : Holds c transferId payload config arrived r) {q : Uint16} :
    q ∈ r.chunks.keys ↔ ∃ i < config.chunks payload, i ∈ arrived ∧ q = BitVec.ofNat 16 i := by
  rw [OrdMap.mem_keys_iff]
  constructor
  · rintro ⟨data, hdata⟩
    obtain ⟨i, hi, hmem, hq, _⟩ := (h.get?_iff q data).mp hdata
    exact ⟨i, hi, hmem, hq⟩
  · rintro ⟨i, hi, hmem, hq⟩
    exact ⟨_, (h.get?_iff q _).mpr ⟨i, hi, hmem, hq, rfl⟩⟩

/-- the chunks are complete when all have arrived -/
theorem size_eq_iff (ha : config.Accepts payload) (h : Holds c transferId payload config arrived r) :
    r.chunks.size = r.chunkCount ↔ ∀ i < config.chunks payload, i ∈ arrived := by
  have hcard : r.chunks.keys.toFinset.card = r.chunks.size := by
    rw [List.toFinset_card_of_nodup r.chunks.keys_nodup, OrdMap.length_keys]
  have hsub : r.chunks.keys.toFinset ⊆ numbers (config.chunks payload) := by
    intro q hq
    obtain ⟨i, hi, _, rfl⟩ := h.mem_keys.mp (List.mem_toFinset.mp hq)
    exact mem_numbers hi
  rw [h.chunkCount_eq, ← hcard]
  constructor
  · intro hall i hi
    have hmem := mem_numbers hi
    rw [← eq_numbers ha.chunks_lt hsub hall, List.mem_toFinset] at hmem
    obtain ⟨j, hj, harrived, hij⟩ := h.mem_keys.mp hmem
    rwa [BitVec.eq_of_ofNat_eq (hi.trans ha.chunks_lt) (hj.trans ha.chunks_lt) hij]
  · intro hall
    rw [← card_numbers ha.chunks_lt]
    congr 1
    refine hsub.antisymm fun q hq => ?_
    obtain ⟨i, hi, rfl⟩ := Finset.mem_image.mp hq
    have hi := Finset.mem_range.mp hi
    exact List.mem_toFinset.mpr (h.mem_keys.mpr ⟨i, hi, hall i hi, rfl⟩)

theorem gather_eq (h : Holds c transferId payload config arrived r) {is : List Nat}
    (hall : ∀ i ∈ is, i < config.chunks payload ∧ i ∈ arrived) :
    RldpReceiver.gather r.chunks is
      = .ok (is.flatMap (Pieces.piece config.chunkSize 0 payload)) := by
  induction is with
  | nil => rfl
  | cons i is ih =>
    obtain ⟨hi, harrived⟩ := hall i List.mem_cons_self
    have hget := (h.get?_iff _ _).mpr ⟨i, hi, harrived, rfl, rfl⟩
    unfold RldpReceiver.gather
    rw [hget]
    dsimp only
    rw [ih fun j hj => hall j (List.mem_cons_of_mem _ hj), List.flatMap_cons, chunkAt_eq_piece]
    rfl

/-- **The payload comes out** when all chunks have arrived, and nothing comes out before. -/
theorem payload_eq (ha : config.Accepts payload) (h : Holds c transferId payload config arrived r) :
    ((∀ i < config.chunks payload, i ∈ arrived) → r.payload c = .ok (some payload))
    ∧ (¬ (∀ i < config.chunks payload, i ∈ arrived) → r.payload c = .ok none) := by
  unfold RldpReceiver.payload
  rw [← h.size_eq_iff ha]
  refine ⟨fun hsize => ?_, fun hsize => if_pos hsize⟩
  have hall := (h.size_eq_iff ha).mp hsize
  have hcount : (BitVec.ofNat 16 r.chunkCount).toNat = config.chunks payload := by
    rw [h.chunkCount_eq, BitVec.toNat_ofNat, Nat.mod_eq_of_lt ha.chunks_lt]
  have hgather := h.gather_eq fun i (hi : i ∈ List.range (config.chunks payload)) =>
    ⟨List.mem_range.mp hi, hall i (List.mem_range.mp hi)⟩
  have hjoin : ((List.range (config.chunks payload)).flatMap
      (Pieces.piece config.chunkSize 0 payload)).take r.totalSize = payload := by
    rw [h.totalSize_eq]
    exact Pieces.take_join config.chunkSize 0 payload
      (Pieces.length_le_ceilDiv config.chunkSize payload ha.chunkSize_pos)
  rw [if_neg (not_not.mpr hsize), hcount, hgather]
  show (if c.sha256 _ ≠ _ then _ else _) = _
  rw [hjoin, h.digest_eq]
  exact if_neg (not_not.mpr rfl)

theorem get?_keep (chunks : OrdMap Uint16 Bytes) (k q : Uint16) (data : Bytes) :
    (RldpReceiver.keep chunks k data).get? q
      = if q = k then some ((chunks.get? k).getD data) else chunks.get? q := by
  unfold RldpReceiver.keep
  split_ifs with hthere hq hq
  · obtain ⟨x, hx⟩ := OrdMap.contains_iff.mp hthere
    rw [hq, hx]
    rfl
  · rfl
  · have hnone : chunks.get? k = none := by
      unfold OrdMap.contains at hthere
      simpa using hthere
    rw [hq, OrdMap.get?_insert_self, hnone]
    rfl
  · rw [OrdMap.get?_insert_of_ne _ _ hq]

/-- a chunk that is there already is kept: it is the same -/
theorem keep_eq (ha : config.Accepts payload) (h : Holds c transferId payload config arrived r)
    {i : Nat} (hi : i < config.chunks payload) :
    Holds c transferId payload config (insert i arrived) { r with
      chunks := RldpReceiver.keep r.chunks (BitVec.ofNat 16 i)
        (chunkAt payload config.chunkSize i) } := by
  have hsame : (r.chunks.get? (BitVec.ofNat 16 i)).getD (chunkAt payload config.chunkSize i)
      = chunkAt payload config.chunkSize i := by
    cases hget : r.chunks.get? (BitVec.ofNat 16 i) with
    | none => rfl
    | some data =>
      obtain ⟨j, hj, _, hij, rfl⟩ := (h.get?_iff _ _).mp hget
      rw [BitVec.eq_of_ofNat_eq (hi.trans ha.chunks_lt) (hj.trans ha.chunks_lt) hij]
      rfl
  refine ⟨h.transferId_eq, h.digest_eq, h.totalSize_eq, h.chunkSize_eq, h.chunkCount_eq, ?_⟩
  intro q data
  dsimp only
  rw [get?_keep, hsame]
  split_ifs with hq
  · subst hq
    constructor
    · intro hdata
      cases hdata
      exact ⟨i, hi, Set.mem_insert i arrived, rfl, rfl⟩
    · rintro ⟨j, hj, _, hij, rfl⟩
      rw [BitVec.eq_of_ofNat_eq (hi.trans ha.chunks_lt) (hj.trans ha.chunks_lt) hij]
  · rw [h.get?_iff]
    constructor
    · rintro ⟨j, hj, hmem, hrest⟩
      exact ⟨j, hj, Set.mem_insert_of_mem i hmem, hrest⟩
    · rintro ⟨j, hj, hmem, rfl, hdata⟩
      rcases hmem with rfl | hmem
      · exact absurd rfl hq
      · exact ⟨j, hj, hmem, rfl, hdata⟩

/-- **A frame comes in**: its chunk is there afterwards. -/
theorem ingest_eq (ha : config.Accepts payload) (h : Holds c transferId payload config arrived r)
    {i : Nat} (hi : i < config.chunks payload) :
    ∃ r', r.ingest c (frameAt c transferId payload config i) = (r', r'.payload c)
      ∧ Holds c transferId payload config (insert i arrived) r' := by
  refine ⟨_, if_neg ?_, h.keep_eq ha hi⟩
  push Not
  refine ⟨h.transferId_eq.symm, h.digest_eq.symm, ?_, ?_, ?_⟩
  · rw [h.totalSize_eq]
    exact ha.toNat_totalSize
  · rw [h.chunkSize_eq]
    exact ha.toNat_chunkSize
  · rw [h.chunkCount_eq]
    exact ha.toNat_chunkCount

theorem mark_eq {is : List Uint16} {mask : Bytes} (h : ∀ q ∈ is, q.toNat / 8 < mask.length) :
    RldpReceiver.mark is mask = some (setBits lsbFirst (is.map BitVec.toNat) mask) := by
  induction is generalizing mask with
  | nil => rfl
  | cons q is ih =>
    unfold RldpReceiver.mark
    rw [if_pos (h q List.mem_cons_self), ih]
    · rfl
    · intro j hj
      rw [length_setBit]
      exact h j (List.mem_cons_of_mem _ hj)

/-- **The acknowledgement** has the bits of the chunks that have arrived. -/
theorem ack_eq (ha : config.Accepts payload) (h : Holds c transferId payload config arrived r) :
    ∃ r' a, r.ack = some (r', a) ∧ Holds c transferId payload config arrived r'
      ∧ ∀ i < config.chunks payload, getBit lsbFirst a.receivedMask i = true → i ∈ arrived := by
  have hkeys : ∀ q ∈ r.chunks.keys,
      q.toNat / 8 < (zeros (r.chunkCount ⌈/⌉ 8)).length := by
    intro q hq
    obtain ⟨i, hi, _, rfl⟩ := h.mem_keys.mp hq
    rw [length_zeros, ha.toNat_seqNo hi, h.chunkCount_eq, Nat.ceilDiv_eq_add_pred_div]
    omega
  unfold RldpReceiver.ack
  rw [mark_eq hkeys]
  refine ⟨_, _, rfl, ⟨h.transferId_eq, h.digest_eq, h.totalSize_eq, h.chunkSize_eq,
    h.chunkCount_eq, h.get?_iff⟩, fun i hi hbit => ?_⟩
  dsimp only at hbit
  rw [getBit_setBits lsbFirst, getBit_zeros, Bool.or_false, decide_eq_true_eq] at hbit
  · obtain ⟨q, hq, rfl⟩ := List.mem_map.mp hbit
    obtain ⟨j, hj, harrived, rfl⟩ := h.mem_keys.mp hq
    rwa [ha.toNat_seqNo hj]
  · intro j hj
    obtain ⟨q, hq, rfl⟩ := List.mem_map.mp hj
    exact hkeys q hq

end Holds

end

end Onx
