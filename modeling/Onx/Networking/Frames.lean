import Onx.Lib.Slices
import Onx.Networking.Rldp

/-!
# The bytes of frames

Both decoders with each access to the input, and which bytes are the encoding of a frame.

* `RldpDataFrame.read_eq`, `RldpAckFrame.read_eq`    no access is out of bounds;
* `RldpDataFrame.encode_iff`                         **data frames**: the frames that are encoded, and
                                                     the bytes that are accepted;
* `RldpAckFrame.not_encoded`                         acknowledgements: no bytes that are accepted are
                                                     the encoding of what they decode to;
* `frame_codecs`                                     both, and that no bytes are accepted as both.
-/

namespace Onx
open Checked

/-! ## reading -/

/-- `from_be_bytes(bytes[start..stop].try_into().unwrap())` -/
def fieldAt (n w : Nat) (bytes : Bytes) (start stop : Nat) : Option (BitVec w) := do
  let part ← range bytes start stop
  let array ← copy n part
  some (decodeWord w array)

/-- `RldpDataFrame::decode` with its accesses -/
def RldpDataFrame.read (wire : Bytes) : Run NetworkError RldpDataFrame :=
  if wire.length < DATA_HEADER_LEN then throw .malformedRldpFrame
  else do
    let tag ← fieldAt 4 32 wire 0 4
    if tag ≠ DATA_TAG then throw .malformedRldpFrame
    else do
      let transferId ← fieldAt 32 256 wire 4 36
      let payloadDigest ← fieldAt 32 256 wire 36 68
      let totalSize ← fieldAt 4 32 wire 68 72
      let chunkSize ← fieldAt 2 16 wire 72 74
      let chunkCount ← fieldAt 2 16 wire 74 76
      let seqNo ← fieldAt 2 16 wire 76 78
      let dataLen ← fieldAt 2 16 wire 78 80
      Run.ofExcept id (validateDimensions totalSize chunkSize chunkCount)
      if seqNo ≥ chunkCount ∨ dataLen.toNat ≠ chunkSize.toNat
          ∨ wire.length ≠ DATA_HEADER_LEN + dataLen.toNat then
        throw .malformedRldpFrame
      else do
        let chunkData ← rangeFrom wire 80
        pure ⟨transferId, payloadDigest, totalSize, chunkSize, chunkCount, seqNo, chunkData⟩

/-- `RldpAckFrame::decode` with its accesses -/
def RldpAckFrame.read (wire : Bytes) : Run NetworkError RldpAckFrame :=
  if wire.length < ACK_HEADER_LEN then throw .malformedRldpFrame
  else do
    let tag ← fieldAt 4 32 wire 0 4
    if tag ≠ ACK_TAG then throw .malformedRldpFrame
    else do
      let transferId ← fieldAt 32 256 wire 4 36
      let ackSeq ← fieldAt 4 32 wire 36 40
      let len ← fieldAt 2 16 wire 40 42
      if wire.length ≠ ACK_HEADER_LEN + len.toNat then throw .malformedRldpFrame
      else do
        let receivedMask ← rangeFrom wire 42
        pure ⟨transferId, ackSeq, receivedMask⟩

section
variable {wire : Bytes}

theorem fieldAt_eq {n w a b : Nat} (hn : b - a = n) (h : a ≤ b) (hb : b ≤ wire.length) :
    fieldAt n w wire a b = some (decodeWord w (field wire a b)) := by
  unfold fieldAt
  rw [range_field h hb]
  show (copy n (field wire a b)).bind _ = _
  rw [copy_eq ((length_field hb).trans hn)]
  rfl

/-- **No access is out of bounds.** -/
theorem RldpDataFrame.read_eq (wire : Bytes) :
    (RldpDataFrame.read wire).run = some (RldpDataFrame.decode wire) := by
  unfold RldpDataFrame.read RldpDataFrame.decode
  by_cases hshort : wire.length < DATA_HEADER_LEN
  · rw [if_pos hshort, if_pos (.inl hshort)]
    rfl
  have hlen : 80 ≤ wire.length := Nat.not_lt.mp hshort
  rw [if_neg hshort]
  rw [fieldAt_eq (by omega) (by omega) (by omega), fieldAt_eq (by omega) (by omega) (by omega),
    fieldAt_eq (by omega) (by omega) (by omega), fieldAt_eq (by omega) (by omega) (by omega),
    fieldAt_eq (by omega) (by omega) (by omega), fieldAt_eq (by omega) (by omega) (by omega),
    fieldAt_eq (by omega) (by omega) (by omega), fieldAt_eq (by omega) (by omega) (by omega)]
  rw [rangeFrom_eq hlen]
  simp only [Run.lift_some, pure_bind]
  by_cases htag : decodeWord 32 (field wire 0 4) ≠ DATA_TAG
  · rw [if_pos htag, if_pos (.inr htag)]
    rfl
  · rw [if_neg htag, if_neg (not_or.mpr ⟨hshort, htag⟩)]
    cases validateDimensions (decodeWord 32 (field wire 68 72)) (decodeWord 16 (field wire 72 74))
      (decodeWord 16 (field wire 74 76)) with
    | error e => rfl
    | ok u =>
      show ExceptT.run (if _ then _ else _) = some (if _ then _ else _)
      split_ifs <;> rfl

theorem RldpAckFrame.read_eq (wire : Bytes) :
    (RldpAckFrame.read wire).run = some (RldpAckFrame.decode wire) := by
  unfold RldpAckFrame.read RldpAckFrame.decode
  by_cases hshort : wire.length < ACK_HEADER_LEN
  · rw [if_pos hshort, if_pos (.inl hshort)]
    rfl
  have hlen : 44 ≤ wire.length := Nat.not_lt.mp hshort
  rw [if_neg hshort, fieldAt_eq (by omega) (by omega) (by omega),
    fieldAt_eq (by omega) (by omega) (by omega), fieldAt_eq (by omega) (by omega) (by omega),
    fieldAt_eq (by omega) (by omega) (by omega), rangeFrom_eq (by omega)]
  simp only [Run.lift_some, pure_bind]
  by_cases htag : decodeWord 32 (field wire 0 4) ≠ ACK_TAG
  · rw [if_pos htag, if_pos (.inr htag)]
    rfl
  · rw [if_neg htag, if_neg (not_or.mpr ⟨hshort, htag⟩)]
    split_ifs <;> rfl

end

/-! ## data frames -/

namespace RldpDataFrame
variable {f : RldpDataFrame} {wire : Bytes}

/-- consistent dimensions, a number among them, and a chunk of their size -/
structure WellFormed (f : RldpDataFrame) : Prop where
  dimensions : validateDimensions f.totalSize f.chunkSize f.chunkCount = .ok ()
  seqNo_lt : f.seqNo < f.chunkCount
  length_eq : f.chunkData.length = f.chunkSize.toNat

/-- **The frames that can be encoded.** -/
theorem encode_iff : (∃ wire, f.encode = .ok wire) ↔ f.WellFormed := by
  constructor
  · rintro ⟨wire, h⟩
    unfold RldpDataFrame.encode at h
    cases hv : validateDimensions f.totalSize f.chunkSize f.chunkCount with
    | error e =>
      rw [hv] at h
      cases h
    | ok u =>
      rw [hv] at h
      replace h : (if _ then _ else _) = _ := h
      split_ifs at h with hbad
      obtain ⟨hseq, hlen⟩ := not_or.mp hbad
      exact ⟨hv, not_le.mp hseq, not_not.mp hlen⟩
  · rintro ⟨hv, hseq, hlen⟩
    unfold RldpDataFrame.encode
    rw [hv]
    exact ⟨_, if_neg (not_or.mpr ⟨not_le.mpr hseq, not_not.mpr hlen⟩)⟩

/-- what is accepted is a frame that can be encoded, of the length it says -/
theorem decode_ok (h : decode wire = .ok f) :
    f.WellFormed ∧ wire.length = 80 + f.chunkSize.toNat ∧ decodeWord 32 (field wire 0 4) = DATA_TAG
      ∧ (decodeWord 16 (field wire 78 80)).toNat = f.chunkSize.toNat
      ∧ f = ⟨decodeWord 256 (field wire 4 36), decodeWord 256 (field wire 36 68),
        decodeWord 32 (field wire 68 72), decodeWord 16 (field wire 72 74),
        decodeWord 16 (field wire 74 76), decodeWord 16 (field wire 76 78), wire.drop 80⟩ := by
  unfold decode at h
  split_ifs at h with hshort
  obtain ⟨hlen, htag⟩ := not_or.mp hshort
  dsimp only at h
  cases hv : validateDimensions (decodeWord 32 (field wire 68 72)) (decodeWord 16 (field wire 72 74))
      (decodeWord 16 (field wire 74 76)) with
  | error e =>
    rw [hv] at h
    cases h
  | ok u =>
    rw [hv] at h
    replace h : (if _ then _ else _) = _ := h
    split_ifs at h with hbad
    obtain ⟨hseq, hbad⟩ := not_or.mp hbad
    obtain ⟨hsize, htotal⟩ := not_or.mp hbad
    have hsize := not_not.mp hsize
    have htotal : wire.length = 80 + _ := not_not.mp htotal
    cases h
    refine ⟨⟨hv, not_le.mp hseq, ?_⟩, htotal.trans (by rw [hsize]), not_not.mp htag, hsize, rfl⟩
    show (wire.drop 80).length = (decodeWord 16 (field wire 72 74)).toNat
    rw [List.length_drop, htotal, hsize, Nat.add_sub_cancel_left]

/-- **Bytes that are accepted are the encoding of their frame.** -/
theorem encode_decode (h : decode wire = .ok f) : f.encode = .ok wire := by
  obtain ⟨hf, hlen, htag, hsize, rfl⟩ := decode_ok h
  have hdata : BitVec.ofNat 16 (wire.drop 80).length = decodeWord 16 (field wire 78 80) := by
    rw [hf.length_eq, ← hsize, BitVec.ofNat_toNat, BitVec.setWidth_eq]
  unfold RldpDataFrame.encode
  rw [hf.dimensions]
  show (if _ then _ else _) = _
  rw [if_neg (not_or.mpr ⟨not_le.mpr hf.seqNo_lt, not_not.mpr hf.length_eq⟩), ← htag, hdata,
    encodeWord_field (n:=4) rfl (by omega) rfl, encodeWord_field (n:=32) rfl (by omega) rfl,
    encodeWord_field (n:=32) rfl (by omega) rfl, encodeWord_field (n:=4) rfl (by omega) rfl,
    encodeWord_field (n:=2) rfl (by omega) rfl, encodeWord_field (n:=2) rfl (by omega) rfl,
    encodeWord_field (n:=2) rfl (by omega) rfl, encodeWord_field (n:=2) rfl (by omega) rfl]
  rw [field_append_drop, field_append_drop, field_append_drop, field_append_drop, field_append_drop,
    field_append_drop, field_append_drop, field_append_drop, List.drop_zero]
  all_goals omega

end RldpDataFrame

/-! ## acknowledgements -/

namespace RldpAckFrame
variable {a : RldpAckFrame} {wire : Bytes}

theorem decode_ok (h : decode wire = .ok a) :
    decodeWord 32 (field wire 0 4) = ACK_TAG
      ∧ wire.length = 44 + (decodeWord 16 (field wire 40 42)).toNat ∧ a.receivedMask = wire.drop 42 := by
  unfold decode at h
  dsimp only at h
  split_ifs at h with hshort hlen
  cases h
  exact ⟨not_not.mp (not_or.mp hshort).2, not_not.mp hlen, rfl⟩

/-- **Bytes that are accepted are not the encoding of their frame**: the mask has taken in two bytes
that the length does not count. -/
theorem not_encoded (h : decode wire = .ok a) : a.encode ≠ wire := by
  obtain ⟨_, hlen, hmask⟩ := decode_ok h
  intro heq
  have hword : decodeWord 16 (field wire 40 42) = BitVec.ofNat 16 a.receivedMask.length := by
    rw [← heq]
    simp [RldpAckFrame.encode, field_head, field_skip, decodeWord_encodeWord]
  rw [hmask, List.length_drop, hlen] at hword
  have hnat := congrArg BitVec.toNat hword
  rw [BitVec.toNat_ofNat] at hnat
  omega

end RldpAckFrame

/-- no bytes are accepted as both -/
theorem tags_differ {wire : Bytes} {f : RldpDataFrame} {a : RldpAckFrame}
    (hf : RldpDataFrame.decode wire = .ok f) (ha : RldpAckFrame.decode wire = .ok a) : False := by
  have htag := (RldpDataFrame.decode_ok hf).2.2.1
  rw [(RldpAckFrame.decode_ok ha).1] at htag
  exact absurd htag (by decide)

/-! ## both -/

/-- what is claimed of data frames -/
structure DataCodec (f : RldpDataFrame) (wire : Bytes) : Prop where
  encodes : (∃ wire, f.encode = .ok wire) ↔ f.WellFormed
  produced : (∃ wire, f.encode = .ok wire) ↔ ∃ wire, RldpDataFrame.decode wire = .ok f
  decode_encode : f.encode = .ok wire → RldpDataFrame.decode wire = .ok f
  encode_decode : RldpDataFrame.decode wire = .ok f → f.encode = .ok wire

/-- what is claimed of acknowledgements -/
structure AckCodec (a : RldpAckFrame) (wire : Bytes) : Prop where
  decode_encode : a.receivedMask.length < 2^16 → RldpAckFrame.decode a.encode = .ok a
  encode_decode : RldpAckFrame.decode wire = .ok a → a.encode = wire

/-- what is claimed of both -/
structure Separate (f : RldpDataFrame) (a : RldpAckFrame) (wire : Bytes) : Prop where
  exclusive : RldpDataFrame.decode wire = .ok f → RldpAckFrame.decode wire ≠ .ok a
  data_returns : (RldpDataFrame.read wire).run = some (RldpDataFrame.decode wire)
  ack_returns : (RldpAckFrame.read wire).run = some (RldpAckFrame.decode wire)

theorem dataCodec (f : RldpDataFrame) (wire : Bytes) : DataCodec f wire where
  encodes := RldpDataFrame.encode_iff
  produced := ⟨fun ⟨wire, h⟩ => ⟨wire, RldpDataFrame.decode_encode h⟩,
    fun ⟨wire, h⟩ => ⟨wire, RldpDataFrame.encode_decode h⟩⟩
  decode_encode := RldpDataFrame.decode_encode
  encode_decode := RldpDataFrame.encode_decode

theorem separate (f : RldpDataFrame) (a : RldpAckFrame) (wire : Bytes) : Separate f a wire where
  exclusive hf ha := tags_differ hf ha
  data_returns := RldpDataFrame.read_eq wire
  ack_returns := RldpAckFrame.read_eq wire

/-- **The codecs of frames.**  Data frames and their encodings are one to one, no decoder panics, and
no bytes are accepted by both; but no acknowledgement is read back, and no bytes that are accepted as
one are its encoding. -/
theorem frame_codecs (f : RldpDataFrame) (a : RldpAckFrame) (wire : Bytes) :
    DataCodec f wire ∧ Separate f a wire ∧ RldpAckFrame.decode a.encode ≠ .ok a
    ∧ (RldpAckFrame.decode wire = .ok a → a.encode ≠ wire) := by
  refine ⟨dataCodec f wire, separate f a wire, fun h => ?_, RldpAckFrame.not_encoded⟩
  rw [RldpAckFrame.decode_encode] at h
  cases h

/-- **An acknowledgement of one chunk is not read back.** -/
theorem ack_lost : ¬ AckCodec ⟨7, 1, [1]⟩ (RldpAckFrame.encode ⟨7, 1, [1]⟩) := by
  intro h
  have hread := h.decode_encode (by decide)
  rw [RldpAckFrame.decode_encode] at hread
  cases hread

end Onx
