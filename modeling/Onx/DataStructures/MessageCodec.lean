import Onx.DataStructures.Message
import Onx.Lib.Slices

/-!
# Reading messages

`from_bytes` of addresses and messages, with each access to the input and each sum.

* `Message.fromBytes_cases`     bytes are read exactly if they are a fixed part with a known tag and
                                as many currencies as declared, and then they are written back;
* `Message.fromBytes_toBytes`   what is written reads back;
* `Message.message_codec`       **the codec of messages**, which does not panic.
-/

namespace Onx
open Checked

abbrev DataRun := Run DataStructureError

/-! ## the reader -/

/-- `decode_exact` of an unsigned integer of `n` bytes -/
def decodeExact (n w : Nat) (bytes : Bytes) : Except PrimitiveError (BitVec w) := do
  exactLength n bytes
  .ok (decodeWord w bytes)

/-- `decode_exact(&bytes[start..stop])?` -/
def wordAt (n w : Nat) (bytes : Bytes) (start stop : Nat) : DataRun (BitVec w) := do
  let part ← range bytes start stop
  Run.ofExcept .primitive (decodeExact n w part)

def MessageType.fromTag (tag : Byte) : Except DataStructureError MessageType :=
  if tag = 0x01 then .ok .internal
  else if tag = 0x02 then .ok .externalInbound
  else if tag = 0x03 then .ok .externalOutbound
  else .error (.invalidMessageType tag)

def FullAddress.fromBytes (bytes : Bytes) : DataRun FullAddress :=
  if bytes.length < 36 then throw (.truncatedInput 36 bytes.length)
  else if bytes.length > 36 then throw (.trailingBytes (bytes.length - 36))
  else do
    let part ← range bytes 0 4
    let wcBytes ← copy 4 part
    let part ← range bytes 4 36
    let acctBytes ← copy 32 part
    pure ⟨⟨decodeWord 32 wcBytes⟩, ⟨decodeWord 256 acctBytes⟩⟩

namespace Message

def FIXED_BYTE_LENGTH : Nat := 1 + 36 + 36 + 16 + 4 + 8 + 32

/-- the loop over the extra currencies, from `offset` on -/
def readCurrencies (bytes : Bytes) : Nat → Nat → DataRun (List (Uint32 × Uint128) × Nat)
  | 0, offset => pure ([], offset)
  | n + 1, offset => do
    let start ← add offset 4
    let currencyId ← wordAt 4 32 bytes offset start
    let start ← add offset 4
    let stop ← add offset 20
    let value ← wordAt 16 128 bytes start stop
    let offset ← add offset 20
    let (pairs, offset) ← readCurrencies bytes n offset
    pure ((currencyId, value) :: pairs, offset)

def fromBytes (bytes : Bytes) : DataRun Message :=
  if bytes.length < FIXED_BYTE_LENGTH then
    throw (.truncatedInput FIXED_BYTE_LENGTH bytes.length)
  else do
    let tag ← (bytes[0]? : Option Byte)
    let msgType ← Run.ofExcept id (MessageType.fromTag tag)
    let part ← range bytes 1 37
    let srcAddress ← FullAddress.fromBytes part
    let part ← range bytes 37 73
    let destAddress ← FullAddress.fromBytes part
    let amountNanos ← wordAt 16 128 bytes 73 89
    let count ← wordAt 4 32 bytes 89 93
    -- `checked_mul` and `checked_add`
    if count.toNat * 20 ≥ 2^64 then throw (.truncatedInput (2^64 - 1) bytes.length)
    else if FIXED_BYTE_LENGTH + count.toNat * 20 ≥ 2^64 then
      throw (.truncatedInput (2^64 - 1) bytes.length)
    else
      let expected := FIXED_BYTE_LENGTH + count.toNat * 20
      if bytes.length < expected then throw (.truncatedInput expected bytes.length)
      else if bytes.length > expected then throw (.trailingBytes (bytes.length - expected))
      else do
        -- a pair of a `u32` and a `u128` takes 32 bytes
        withCapacity 32 count.toNat
        let (extraCurrencies, offset) ← readCurrencies bytes count.toNat 93
        let stop ← add offset 8
        let createdLt ← wordAt 8 64 bytes offset stop
        let start ← add offset 8
        let stop ← add offset 40
        let bodyCellHash ← wordAt 32 256 bytes start stop
        pure ⟨msgType, srcAddress, destAddress, amountNanos, extraCurrencies, createdLt, bodyCellHash⟩

end Message

/-! ## what it reads -/

section
variable {bytes : Bytes}

theorem decodeExact_eq {n w : Nat} (h : bytes.length = n) :
    decodeExact n w bytes = .ok (decodeWord w bytes) := by
  unfold decodeExact exactLength
  rw [if_neg (by omega), if_neg (by omega)]
  rfl

theorem wordAt_eq {n w a b : Nat} (hn : b - a = n) (h : a ≤ b) (hb : b ≤ bytes.length) :
    wordAt n w bytes a b = pure (decodeWord w (field bytes a b)) := by
  unfold wordAt
  rw [Run.range_bind h hb, decodeExact_eq ((length_field hb).trans hn)]
  rfl

theorem MessageType.fromTag_ok {tag : Byte} {t : MessageType} (h : fromTag tag = .ok t) :
    t.tag = tag := by
  unfold fromTag at h
  split_ifs at h with h1 h2 h3
  · cases h
    exact h1.symm
  · cases h
    exact h2.symm
  · cases h
    exact h3.symm

theorem MessageType.fromTag_tag (t : MessageType) : fromTag t.tag = .ok t := by
  cases t <;> rfl

theorem FullAddress.fromBytes_ok (h : bytes.length = 36) :
    ∃ a, FullAddress.fromBytes bytes = pure a ∧ a.toBytes = bytes := by
  have hw : (field bytes 0 4).length = 4 := length_field (by omega)
  have hid : (field bytes 4 36).length = 32 := length_field (by omega)
  refine ⟨⟨⟨decodeWord 32 (field bytes 0 4)⟩, ⟨decodeWord 256 (field bytes 4 36)⟩⟩, ?_, ?_⟩
  · unfold FullAddress.fromBytes
    rw [if_neg (by omega), if_neg (by omega), range_field (by omega) (by omega),
      range_field (by omega) (by omega)]
    simp only [Run.lift_some, pure_bind, copy_eq hw, copy_eq hid]
  · show encodeWord 4 (decodeWord 32 (field bytes 0 4))
      ++ encodeWord 32 (decodeWord 256 (field bytes 4 36)) = bytes
    rw [encodeWord_decodeWord (n:=4) rfl hw, encodeWord_decodeWord (n:=32) rfl hid, field_zero,
      take_append_field bytes (by omega), ← h, List.take_length]

namespace Message

/-- the loop within the input -/
theorem readCurrencies_ok (hlen : bytes.length < 2^63) : ∀ (n offset : Nat),
    offset + n * 20 ≤ bytes.length → ∃ pairs,
      readCurrencies bytes n offset = pure (pairs, offset + n * 20) ∧ pairs.length = n
      ∧ currenciesBytes pairs = field bytes offset (offset + n * 20) := by
  intro n
  induction n with
  | zero =>
    intro offset _
    refine ⟨[], ?_, rfl, ?_⟩
    · rw [Nat.zero_mul, Nat.add_zero]
      rfl
    · unfold field
      simp [currenciesBytes]
  | succ n ih =>
    intro offset hoffset
    obtain ⟨pairs, hread, hpairs, hbytes⟩ := ih (offset + 20) (by omega)
    have hstop : offset + 20 + n * 20 = offset + (n + 1) * 20 := by omega
    rw [hstop] at hread hbytes
    refine ⟨(decodeWord 32 (field bytes offset (offset + 4)),
      decodeWord 128 (field bytes (offset + 4) (offset + 20))) :: pairs, ?_, congrArg (· + 1) hpairs, ?_⟩
    · unfold readCurrencies
      rw [Run.add_bind (by omega), wordAt_eq (by omega) (by omega) (by omega), pure_bind,
        Run.add_bind (by omega), Run.add_bind (by omega), wordAt_eq (by omega) (by omega) (by omega),
        pure_bind, Run.add_bind (by omega), hread]
      rfl
    · show currencyBytes _ ++ currenciesBytes pairs = _
      unfold currencyBytes
      rw [encodeWord_field (n:=4) rfl (by omega) (by omega),
        encodeWord_field (n:=16) rfl (by omega) (by omega), hbytes,
        field_append bytes (by omega) (by omega), field_append bytes (by omega) (by omega)]

/-- a fixed part with a known tag, and as many bytes as the count asks for -/
structure Framed (bytes : Bytes) : Prop where
  fixed : FIXED_BYTE_LENGTH ≤ bytes.length
  tag : ∃ type, MessageType.fromTag (bytes.headD 0) = .ok type
  length_eq : bytes.length = FIXED_BYTE_LENGTH + (decodeWord 32 (field bytes 89 93)).toNat * 20

/-- the fields of the input, written in their order, are the input -/
theorem toBytes_fields {m : Message} {n : Nat} (hlen : bytes.length = 93 + n * 20 + 40)
    (htag : [m.msgType.tag] = field bytes 0 1) (hsrc : m.srcAddress.toBytes = field bytes 1 37)
    (hdest : m.destAddress.toBytes = field bytes 37 73)
    (hamount : m.amountNanos = decodeWord 128 (field bytes 73 89))
    (hcount : BitVec.ofNat 32 m.extraCurrencies.length = decodeWord 32 (field bytes 89 93))
    (hcurrencies : currenciesBytes m.extraCurrencies = field bytes 93 (93 + n * 20))
    (hlt : m.createdLt = decodeWord 64 (field bytes (93 + n * 20) (93 + n * 20 + 8)))
    (hhash : m.bodyCellHash = decodeWord 256 (field bytes (93 + n * 20 + 8) (93 + n * 20 + 40))) :
    m.toBytes = bytes := by
  unfold toBytes
  rw [htag, hsrc, hdest, hamount, hcount, hcurrencies, hlt, hhash,
    encodeWord_field (n:=16) rfl (by omega) (by omega),
    encodeWord_field (n:=4) rfl (by omega) (by omega),
    encodeWord_field (n:=8) rfl (by omega) (by omega),
    encodeWord_field (n:=32) rfl (by omega) (by omega)]
  rw [field_append, field_append, field_append, field_append, field_append, field_append,
    field_append, field_zero, List.take_of_length_le]
  all_goals omega

/-- **Messages that are read**: the bytes that are framed, and no others. -/
theorem fromBytes_cases (hlen : bytes.length < 2^63) :
    (¬ Framed bytes ∧ ∃ e, fromBytes bytes = throw e) ∨
    (Framed bytes ∧ ∃ m, fromBytes bytes = pure m ∧ m.toBytes = bytes
      ∧ m.extraCurrencies.length < 2^32) := by
  by_cases hfixed : bytes.length < FIXED_BYTE_LENGTH
  · refine .inl ⟨fun h => absurd h.fixed (Nat.not_le.mpr hfixed), ?_⟩
    unfold fromBytes
    rw [if_pos hfixed]
    exact ⟨_, rfl⟩
  have hfixed' : 133 ≤ bytes.length := Nat.not_lt.mp hfixed
  obtain ⟨first, rest, rfl⟩ : ∃ first rest, bytes = first :: rest :=
    List.exists_cons_of_length_pos (by omega)
  cases htag : MessageType.fromTag first with
  | error e =>
    refine .inl ⟨fun h => ?_, e, ?_⟩
    · obtain ⟨t, ht⟩ := h.tag
      rw [List.headD_cons, htag] at ht
      cases ht
    · unfold fromBytes
      rw [if_neg hfixed]
      simp only [List.getElem?_cons_zero, Run.lift_some, pure_bind, htag]
      rfl
  | ok t =>
    generalize hbytes : first :: rest = bytes at *
    obtain ⟨src, hsrc, hsrcBytes⟩ := FullAddress.fromBytes_ok
      (@length_field bytes 1 37 (by omega))
    obtain ⟨dest, hdest, hdestBytes⟩ := FullAddress.fromBytes_ok
      (@length_field bytes 37 73 (by omega))
    have hcount := (decodeWord 32 (field bytes 89 93)).isLt
    have hhead : bytes[0]? = some first := by
      rw [← hbytes]
      rfl
    have hhead' : bytes.headD 0 = first := by
      rw [← hbytes]
      rfl
    unfold fromBytes
    rw [if_neg hfixed, hhead, range_field (by omega) (by omega), range_field (by omega) (by omega),
      wordAt_eq (by omega) (by omega) (by omega), wordAt_eq (by omega) (by omega) (by omega)]
    simp only [Run.lift_some, pure_bind, htag, Run.ofExcept, hsrc, hdest]
    rw [if_neg (by omega), if_neg (by omega)]
    by_cases hshort : bytes.length < FIXED_BYTE_LENGTH + (decodeWord 32 (field bytes 89 93)).toNat * 20
    · refine .inl ⟨fun h => absurd h.length_eq (Nat.ne_of_lt hshort), ?_⟩
      rw [if_pos hshort]
      exact ⟨_, rfl⟩
    by_cases hlong : bytes.length > FIXED_BYTE_LENGTH + (decodeWord 32 (field bytes 89 93)).toNat * 20
    · refine .inl ⟨fun h => absurd h.length_eq (Nat.ne_of_gt hlong), ?_⟩
      rw [if_neg hshort, if_pos hlong]
      exact ⟨_, rfl⟩
    have hexact : bytes.length
        = FIXED_BYTE_LENGTH + (decodeWord 32 (field bytes 89 93)).toNat * 20 := by omega
    have hfit : bytes.length = 93 + (decodeWord 32 (field bytes 89 93)).toNat * 20 + 40 := by
      rw [hexact]
      unfold FIXED_BYTE_LENGTH
      omega
    obtain ⟨pairs, hread, hpairs, hcurrencies⟩ := readCurrencies_ok hlen
      (decodeWord 32 (field bytes 89 93)).toNat 93 (by omega)
    rw [if_neg hshort, if_neg hlong, withCapacity_eq (by omega), hread]
    simp only [Run.lift_some, pure_bind]
    rw [add_eq (by omega), add_eq (by omega)]
    simp only [Run.lift_some, pure_bind]
    rw [wordAt_eq (by omega) (by omega) (by omega), wordAt_eq (by omega) (by omega) (by omega)]
    refine .inr ⟨⟨hfixed', ⟨t, hhead'.symm ▸ htag⟩, hexact⟩, _, rfl, ?_, ?_⟩
    · have hfirst : [first] = field bytes 0 1 := by
        rw [← hbytes]
        rfl
      have hwritten : BitVec.ofNat 32 pairs.length = decodeWord 32 (field bytes 89 93) := by
        rw [hpairs, BitVec.ofNat_toNat, BitVec.setWidth_eq]
      exact toBytes_fields hfit ((MessageType.fromTag_ok htag).symm ▸ hfirst) hsrcBytes hdestBytes rfl
        hwritten hcurrencies rfl rfl
    · exact hpairs ▸ hcount

/-- a message that is written declares its currencies -/
theorem framed_toBytes {m : Message} (h : m.extraCurrencies.length < 2^32) : Framed m.toBytes := by
  have hlen := length_toBytes m
  have hcount : field m.toBytes 89 93 = encodeWord 4 (BitVec.ofNat 32 m.extraCurrencies.length) := by
    have hprefix : ([m.msgType.tag] ++ m.srcAddress.toBytes ++ m.destAddress.toBytes
        ++ encodeWord 16 m.amountNanos).length = 89 := by simp
    unfold toBytes
    rw [List.append_assoc, List.append_assoc, List.append_assoc, field_skip (by omega), hprefix,
      field_head (length_encodeWord 4 _)]
  refine ⟨?_, ⟨m.msgType, MessageType.fromTag_tag m.msgType⟩, ?_⟩
  · unfold FIXED_BYTE_LENGTH
    omega
  · rw [hcount, decodeWord_encodeWord (n:=4) rfl, BitVec.toNat_ofNat, Nat.mod_eq_of_lt h]
    unfold FIXED_BYTE_LENGTH
    omega

/-- **A message that is written reads back.** -/
theorem fromBytes_toBytes {m : Message} (h : m.extraCurrencies.length < 2^32) :
    fromBytes m.toBytes = pure m := by
  have hlen : m.toBytes.length < 2^63 := by
    rw [length_toBytes]
    omega
  rcases fromBytes_cases hlen with ⟨hframe, _⟩ | ⟨_, m', hread, hbytes, _⟩
  · exact absurd (framed_toBytes h) hframe
  · rw [hread, toBytes_inj hbytes]

/-- two messages with one hash are the same, or their bytes are a collision of SHA-256 -/
theorem messageHash_inj (c : Crypto) {m m' : Message} (h : m.messageHash c = m'.messageHash c) :
    m = m' ∨ DOMAIN_TAG.bytes ++ m.toBytes ≠ DOMAIN_TAG.bytes ++ m'.toBytes
      ∧ c.sha256 (DOMAIN_TAG.bytes ++ m.toBytes) = c.sha256 (DOMAIN_TAG.bytes ++ m'.toBytes) := by
  by_cases heq : m = m'
  · exact .inl heq
  · refine .inr ⟨fun hbytes => heq (toBytes_inj (List.append_cancel_left hbytes)), h⟩

/-- **The codec of messages.**  Messages read back; no slice makes the reader panic; what it accepts
is what is written, so that the encodings it accepts are the bytes of messages; and the hash
determines the message up to collisions. -/
theorem message_codec (c : Crypto) :
    (∀ m : Message, m.extraCurrencies.length < 2^32 → (fromBytes m.toBytes).run = some (.ok m))
    ∧ (∀ slice : Slice, (fromBytes slice.bytes).run ≠ none)
    ∧ (∀ (slice : Slice) (m : Message), (fromBytes slice.bytes).run = some (.ok m) →
      m.toBytes = slice.bytes)
    ∧ (∀ slice : Slice, (∃ m, (fromBytes slice.bytes).run = some (.ok m)) ↔
      ∃ m : Message, m.extraCurrencies.length < 2^32 ∧ m.toBytes = slice.bytes)
    ∧ ∀ m m' : Message, m.messageHash c = m'.messageHash c →
      m = m' ∨ DOMAIN_TAG.bytes ++ m.toBytes ≠ DOMAIN_TAG.bytes ++ m'.toBytes
        ∧ c.sha256 (DOMAIN_TAG.bytes ++ m.toBytes) = c.sha256 (DOMAIN_TAG.bytes ++ m'.toBytes) := by
  refine ⟨fun m h => ?_, fun slice => ?_, fun slice m h => ?_, fun slice => ⟨?_, ?_⟩,
    fun m m' h => messageHash_inj c h⟩
  · rw [fromBytes_toBytes h]
    rfl
  · rcases fromBytes_cases slice.length_lt with ⟨_, e, hread⟩ | ⟨_, m, hread, _⟩
    · rw [hread]
      nofun
    · rw [hread]
      nofun
  · rcases fromBytes_cases slice.length_lt with ⟨_, e, hread⟩ | ⟨_, m', hread, hbytes, _⟩
    · rw [hread] at h
      cases h
    · rw [hread] at h
      rw [← Except.ok.inj (Option.some.inj h), hbytes]
  · rintro ⟨m, h⟩
    rcases fromBytes_cases slice.length_lt with ⟨_, e, hread⟩ | ⟨_, m', hread, hbytes, hcount⟩
    · rw [hread] at h
      cases h
    · exact ⟨m', hcount, hbytes⟩
  · rintro ⟨m, hcount, hbytes⟩
    refine ⟨m, ?_⟩
    rw [← hbytes, fromBytes_toBytes hcount]
    rfl

/-- a message with an extra currency -/
def sample : Message where
  msgType := .internal
  srcAddress := ⟨.BASIC, ⟨1⟩⟩
  destAddress := ⟨.MASTERCHAIN, ⟨2⟩⟩
  amountNanos := 1000
  extraCurrencies := [(7, 500)]
  createdLt := 10
  bodyCellHash := 3

theorem message_codec_sample : (fromBytes sample.toBytes).run = some (.ok sample) :=
  (message_codec sampleCrypto).1 sample (by decide)

end Message
end

end Onx
