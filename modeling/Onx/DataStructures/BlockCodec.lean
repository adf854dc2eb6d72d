import Onx.DataStructures.Block
import Onx.DataStructures.MessageCodec

/-!
# Reading block headers

`from_bytes` of shards and headers, with each access to the input.

* `BlockHeader.ofFields`            the header that is written in the bytes, with no check;
* `BlockHeader.fromBytes_reads`     it is what is read, if it has the magic number, a shard and as many
                                    parents as its flags say;
* `BlockHeader.ofFields_toBytes`    what is written is written again.
-/

namespace Onx
open Checked

namespace ShardIdent

def fromBytes (bytes : Bytes) : DataRun ShardIdent :=
  if bytes.length < 12 then throw (.truncatedInput 12 bytes.length)
  else if bytes.length > 12 then throw (.trailingBytes (bytes.length - 12))
  else do
    let part ← range bytes 0 4
    let wcBytes ← copy 4 part
    let shardPrefixIdent ← wordAt 8 64 bytes 4 12
    let shard : ShardIdent := ⟨⟨decodeWord 32 wcBytes⟩, shardPrefixIdent⟩
    Run.ofExcept id shard.validate
    pure shard

/-- a marker bit behind at most 60 bits -/
def Marked (s : ShardIdent) : Prop := ∃ p : BitPrefix, p.len ≤ 60 ∧ s.shardPrefixIdent = p.marked 64

/-- the shard that is written in the bytes -/
def ofFields (bytes : Bytes) : ShardIdent :=
  ⟨⟨decodeWord 32 (field bytes 0 4)⟩, decodeWord 64 (field bytes 4 12)⟩

theorem validate_cases (s : ShardIdent) :
    (s.Marked ∧ s.validate = .ok ()) ∨ (¬ s.Marked ∧ ∃ e, s.validate = .error e) := by
  unfold validate
  cases h : s.prefixLen with
  | ok len =>
    obtain ⟨p, _, hle, hs⟩ := prefixLen_ok h
    exact .inl ⟨⟨p, hle, congrArg shardPrefixIdent hs⟩, rfl⟩
  | error e =>
    refine .inr ⟨?_, e, rfl⟩
    rintro ⟨p, hle, hp⟩
    have hs : s = ofPrefix s.workchainId p := by
      obtain ⟨w, word⟩ := s
      exact congrArg (ShardIdent.mk w) hp
    rw [hs, prefixLen_ofPrefix hle] at h
    cases h

theorem toBytes_ofFields {bytes : Bytes} (h : bytes.length = 12) : (ofFields bytes).toBytes = bytes := by
  show encodeWord 4 (decodeWord 32 (field bytes 0 4)) ++ encodeWord 8 (decodeWord 64 (field bytes 4 12)) = bytes
  rw [encodeWord_field (n:=4) rfl (by omega) (by omega),
    encodeWord_field (n:=8) rfl (by omega) (by omega), field_append bytes (by omega) (by omega),
    field_zero, ← h, List.take_length]

theorem fromBytes_reads {bytes : Bytes} (h : bytes.length = 12) :
    Run.Reads (fromBytes bytes) (ofFields bytes).Marked (ofFields bytes) := by
  have hread : fromBytes bytes
      = Run.ofExcept id (ofFields bytes).validate >>= fun _ => pure (ofFields bytes) := by
    unfold fromBytes
    rw [if_neg (by omega), if_neg (by omega), range_field (by omega) (by omega),
      wordAt_eq (by omega) (by omega) (by omega)]
    simp only [Run.lift_some, pure_bind, copy_eq (@length_field bytes 0 4 (by omega))]
    rfl
  rw [hread]
  rcases validate_cases (ofFields bytes) with ⟨hmarked, hvalid⟩ | ⟨hnot, e, he⟩
  · rw [hvalid]
    exact .accepted hmarked
  · rw [he]
    exact .refused hnot e

end ShardIdent

namespace BlockHeader

def BLOCK_HEADER_MAGIC : Uint32 := 0x1F2E3D4C
def MERGE_RESULT_FLAG : Uint16 := 0x0010

def fromBytes (bytes : Bytes) : DataRun BlockHeader :=
  if bytes.length < BYTE_LENGTH then throw (.truncatedInput BYTE_LENGTH bytes.length)
  else if bytes.length > BYTE_LENGTH then throw (.trailingBytes (bytes.length - BYTE_LENGTH))
  else do
    let magicConstructor ← wordAt 4 32 bytes 0 4
    if magicConstructor ≠ BLOCK_HEADER_MAGIC then throw (.headerMagicMismatch magicConstructor)
    else do
      let part ← range bytes 4 16
      let shard ← ShardIdent.fromBytes part
      let seqNo ← wordAt 4 32 bytes 16 20
      let flags ← wordAt 2 16 bytes 20 22
      let genUtime ← wordAt 4 32 bytes 22 26
      let startLt ← wordAt 8 64 bytes 26 34
      let endLt ← wordAt 8 64 bytes 34 42
      let prevKeyBlock ← wordAt 4 32 bytes 42 46
      let prevRefHash ← wordAt 32 256 bytes 46 78
      let prevRefHash2 ← wordAt 32 256 bytes 78 110
      let isMergeResult := flags &&& MERGE_RESULT_FLAG != 0
      let isPrev2Zero := prevRefHash2 == 0
      if !isMergeResult && !isPrev2Zero then throw .mergeParentReferenceInconsistency
      else if isMergeResult && isPrev2Zero then throw .mergeParentReferenceInconsistency
      else do
        let masterRefHash ← wordAt 32 256 bytes 110 142
        let stateRootHash ← wordAt 32 256 bytes 142 174
        let inMsgRootHash ← wordAt 32 256 bytes 174 206
        let outMsgRootHash ← wordAt 32 256 bytes 206 238
        pure ⟨magicConstructor, shard, seqNo, flags, genUtime, startLt, endLt, prevKeyBlock, prevRefHash,
          prevRefHash2, masterRefHash, stateRootHash, inMsgRootHash, outMsgRootHash⟩

/-- the header that is written in the bytes -/
def ofFields (bytes : Bytes) : BlockHeader where
  magicConstructor := decodeWord 32 (field bytes 0 4)
  shard := ShardIdent.ofFields (field bytes 4 16)
  seqNo := decodeWord 32 (field bytes 16 20)
  flags := decodeWord 16 (field bytes 20 22)
  genUtime := decodeWord 32 (field bytes 22 26)
  startLt := decodeWord 64 (field bytes 26 34)
  endLt := decodeWord 64 (field bytes 34 42)
  prevKeyBlock := decodeWord 32 (field bytes 42 46)
  prevRefHash := decodeWord 256 (field bytes 46 78)
  prevRefHash2 := decodeWord 256 (field bytes 78 110)
  masterRefHash := decodeWord 256 (field bytes 110 142)
  stateRootHash := decodeWord 256 (field bytes 142 174)
  inMsgRootHash := decodeWord 256 (field bytes 174 206)
  outMsgRootHash := decodeWord 256 (field bytes 206 238)

/-- what a header has to be: a second parent belongs to a merge result -/
structure Valid (h : BlockHeader) : Prop where
  magic : h.magicConstructor = BLOCK_HEADER_MAGIC
  shard : h.shard.Marked
  parents : h.prevRefHash2 ≠ 0 ↔ h.flags &&& MERGE_RESULT_FLAG ≠ 0

section
variable {bytes : Bytes}

theorem toBytes_ofFields (h : bytes.length = BYTE_LENGTH) : (ofFields bytes).toBytes = bytes := by
  have hlen : bytes.length = 238 := h
  have hshard : (ShardIdent.ofFields (field bytes 4 16)).toBytes = field bytes 4 16 :=
    ShardIdent.toBytes_ofFields (length_field (by omega))
  unfold toBytes ofFields
  dsimp only
  rw [hshard, encodeWord_field (n:=4) rfl (by omega) (by omega),
    encodeWord_field (n:=4) rfl (by omega) (by omega), encodeWord_field (n:=2) rfl (by omega) (by omega),
    encodeWord_field (n:=4) rfl (by omega) (by omega), encodeWord_field (n:=8) rfl (by omega) (by omega),
    encodeWord_field (n:=8) rfl (by omega) (by omega), encodeWord_field (n:=4) rfl (by omega) (by omega),
    encodeWord_field (n:=32) rfl (by omega) (by omega), encodeWord_field (n:=32) rfl (by omega) (by omega),
    encodeWord_field (n:=32) rfl (by omega) (by omega), encodeWord_field (n:=32) rfl (by omega) (by omega),
    encodeWord_field (n:=32) rfl (by omega) (by omega), encodeWord_field (n:=32) rfl (by omega) (by omega)]
  rw [field_append, field_append, field_append, field_append, field_append, field_append, field_append,
    field_append, field_append, field_append, field_append, field_append, field_append, field_zero,
    ← hlen, List.take_length]
  all_goals omega

/-- the two refusals of the reader, of a flag and of a zero hash that agree -/
theorem agree_iff (a b : Bool) : (!a && !b) = false ∧ (a && b) = false ↔ (b = false ↔ a = true) := by
  cases a <;> cases b <;> simp

/-- **Headers that are read**: the bytes of the right length in which a valid header is written. -/
theorem fromBytes_reads (bytes : Bytes) : Run.Reads (fromBytes bytes)
    (bytes.length = BYTE_LENGTH ∧ (ofFields bytes).Valid) (ofFields bytes) := by
  unfold fromBytes
  by_cases hshort : bytes.length < BYTE_LENGTH
  · rw [if_pos hshort]
    exact .refused (fun h => absurd h.1 (Nat.ne_of_lt hshort)) _
  by_cases hlong : bytes.length > BYTE_LENGTH
  · rw [if_neg hshort, if_pos hlong]
    exact .refused (fun h => absurd h.1 (Nat.ne_of_gt hlong)) _
  have hlen : bytes.length = 238 := Nat.le_antisymm (Nat.not_lt.mp hlong) (Nat.not_lt.mp hshort)
  rw [if_neg hshort, if_neg hlong, wordAt_eq (by omega) (by omega) (by omega), pure_bind]
  by_cases hmagic : decodeWord 32 (field bytes 0 4) = BLOCK_HEADER_MAGIC
  swap
  · rw [if_pos hmagic]
    exact .refused (fun h => hmagic h.2.magic) _
  rw [if_neg (not_not.mpr hmagic), Run.range_bind (by omega) (by omega)]
  have hvalid : (ofFields bytes).shard.Marked
        ∧ ((ofFields bytes).prevRefHash2 ≠ 0 ↔ (ofFields bytes).flags &&& MERGE_RESULT_FLAG ≠ 0)
      ↔ bytes.length = BYTE_LENGTH ∧ (ofFields bytes).Valid :=
    ⟨fun h => ⟨hlen, hmagic, h.1, h.2⟩, fun h => ⟨h.2.shard, h.2.parents⟩⟩
  refine Run.Reads.congr (.bind (ShardIdent.fromBytes_reads (length_field (by omega))) fun _ => ?_) hvalid
  have hword : ∀ {n w a b : Nat}, b - a = n ∧ a ≤ b ∧ b ≤ 238 →
      wordAt n w bytes a b = pure (decodeWord w (field bytes a b)) := fun ⟨hn, hab, hb⟩ =>
    wordAt_eq hn hab (hlen ▸ hb)
  rw [hword (by omega), pure_bind, hword (by omega), pure_bind, hword (by omega), pure_bind,
    hword (by omega), pure_bind, hword (by omega), pure_bind, hword (by omega), pure_bind,
    hword (by omega), pure_bind, hword (by omega), pure_bind]
  dsimp only
  have hparents : (!(decodeWord 16 (field bytes 20 22) &&& MERGE_RESULT_FLAG != 0)
        && !(decodeWord 256 (field bytes 78 110) == 0)) = false
      ∧ ((decodeWord 16 (field bytes 20 22) &&& MERGE_RESULT_FLAG != 0)
        && (decodeWord 256 (field bytes 78 110) == 0)) = false
      ↔ ((ofFields bytes).prevRefHash2 ≠ 0 ↔ (ofFields bytes).flags &&& MERGE_RESULT_FLAG ≠ 0) := by
    show _ ↔ (decodeWord 256 (field bytes 78 110) ≠ 0
      ↔ decodeWord 16 (field bytes 20 22) &&& MERGE_RESULT_FLAG ≠ 0)
    rw [agree_iff, bne_iff_ne, beq_eq_false_iff_ne]
  split_ifs with hfirst hsecond
  · exact .refused (fun h => absurd (hfirst.symm.trans (hparents.mpr h).1) (by simp)) _
  · exact .refused (fun h => absurd (hsecond.symm.trans (hparents.mpr h).2) (by simp)) _
  · rw [hword (by omega), pure_bind, hword (by omega), pure_bind, hword (by omega), pure_bind,
      hword (by omega), pure_bind]
    exact .accepted (hparents.mp ⟨Bool.eq_false_of_not_eq_true hfirst,
      Bool.eq_false_of_not_eq_true hsecond⟩)

/-- what is written is written again -/
theorem ofFields_toBytes (h : BlockHeader) : ofFields h.toBytes = h :=
  toBytes_inj (toBytes_ofFields (length_toBytes h))

end

end BlockHeader

end Onx
