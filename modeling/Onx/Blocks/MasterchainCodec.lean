import Onx.Blocks.Masterchain
import Onx.DataStructures.BlockCodec

/-!
# Reading the shard configuration

The count-prefixed entries of a masterchain block, written and read with each access and each sum.

* `MasterchainBlockExtra.Valid`           entries of shards that ascend by their bytes;
* `MasterchainBlockExtra.Framed`          bytes in which such entries are written;
* `MasterchainBlockExtra.fromBytes_reads` these are the bytes that are read;
* `block_codecs`                          **the codecs of headers and shard configurations**;
* `codecs_refuse`                         a header with four bytes behind it, and a configuration that has
                                          more entries than its count can say.
-/

namespace Onx.Blocks
open Checked

abbrev BlocksRun := Run BlocksError

namespace ShardEntry

def BYTE_LENGTH : Nat := 12 + 32 + 4

def toBytes (e : ShardEntry) : Bytes := e.shard.toBytes ++ encodeWord 32 e.blockHash ++ encodeWord 4 e.seqNo

def fromBytes (bytes : Bytes) : BlocksRun ShardEntry :=
  if bytes.length < BYTE_LENGTH then throw (.dataStructure (.truncatedInput BYTE_LENGTH bytes.length))
  else if bytes.length > BYTE_LENGTH then
    throw (.dataStructure (.trailingBytes (bytes.length - BYTE_LENGTH)))
  else do
    let part ← range bytes 0 12
    let shard ← ExceptT.adapt .dataStructure (ShardIdent.fromBytes part)
    let blockHash ← ExceptT.adapt .dataStructure (wordAt 32 256 bytes 12 44)
    let seqNo ← ExceptT.adapt .dataStructure (wordAt 4 32 bytes 44 48)
    pure ⟨shard, blockHash, seqNo⟩

/-- the entry that is written in the bytes -/
def ofFields (bytes : Bytes) : ShardEntry :=
  ⟨ShardIdent.ofFields (field bytes 0 12), decodeWord 256 (field bytes 12 44), decodeWord 32 (field bytes 44 48)⟩

theorem length_toBytes (e : ShardEntry) : e.toBytes.length = 48 := by
  simp [toBytes]

theorem toBytes_inj (e e' : ShardEntry) (h : e.toBytes = e'.toBytes) : e = e' := by
  obtain ⟨h, hseq⟩ := append_inj_be (by simp) h
  obtain ⟨hshard, hhash⟩ := append_inj_be (by simp) h
  obtain ⟨shard, hash, seq⟩ := e
  rw [ShardEntry.mk.injEq]
  exact ⟨ShardIdent.toBytes_inj hshard, encodeWord_inj (n:=32) rfl hhash, encodeWord_inj (n:=4) rfl hseq⟩

section
variable {bytes : Bytes}

theorem toBytes_ofFields (h : bytes.length = 48) : (ofFields bytes).toBytes = bytes := by
  have hshard : (ShardIdent.ofFields (field bytes 0 12)).toBytes = field bytes 0 12 :=
    ShardIdent.toBytes_ofFields (length_field (by omega))
  unfold toBytes ofFields
  rw [hshard, encodeWord_field (n:=32) rfl (by omega) (by omega),
    encodeWord_field (n:=4) rfl (by omega) (by omega), field_append bytes (by omega) (by omega),
    field_append bytes (by omega) (by omega), field_zero, ← h, List.take_length]

theorem fromBytes_reads (h : bytes.length = 48) :
    Run.Reads (fromBytes bytes) (ofFields bytes).shard.Marked (ofFields bytes) := by
  unfold fromBytes BYTE_LENGTH
  rw [if_neg (by omega), if_neg (by omega), Run.range_bind (by omega) (by omega),
    wordAt_eq (by omega) (by omega) (by omega), wordAt_eq (by omega) (by omega) (by omega)]
  have hshard := ShardIdent.fromBytes_reads (@length_field bytes 0 12 (by omega))
  refine Run.Reads.congr (.bind (hshard.adapt BlocksError.dataStructure) fun _ => ?_) (and_iff_left trivial)
  rw [Run.adapt_pure, Run.adapt_pure, pure_bind, pure_bind]
  exact .accepted trivial

end

end ShardEntry

namespace MasterchainBlockExtra

def toBytes (x : MasterchainBlockExtra) : Bytes :=
  encodeWord 4 (BitVec.ofNat 32 x.shardEntries.length) ++ x.shardEntries.flatMap ShardEntry.toBytes

/-- `to_bytes` with the vector that it reserves -/
def write (x : MasterchainBlockExtra) : Option Bytes := do
  let size ← mul x.shardEntries.length ShardEntry.BYTE_LENGTH
  let capacity ← add 4 size
  withCapacity 1 capacity
  some x.toBytes

/-- the loop over the entries, from `offset` on -/
def readEntries (bytes : Bytes) : Nat → Nat → BlocksRun (List ShardEntry)
  | 0, _ => pure []
  | n + 1, offset => do
    let stop ← add offset ShardEntry.BYTE_LENGTH
    let part ← range bytes offset stop
    let entry ← ShardEntry.fromBytes part
    let offset ← add offset ShardEntry.BYTE_LENGTH
    let shardEntries ← readEntries bytes n offset
    pure (entry :: shardEntries)

def fromBytes (bytes : Bytes) : BlocksRun MasterchainBlockExtra :=
  if bytes.length < 4 then throw (.dataStructure (.truncatedInput 4 bytes.length))
  else do
    let count ← ExceptT.adapt .dataStructure (wordAt 4 32 bytes 0 4)
    -- `checked_mul` and `checked_add`
    if count.toNat * ShardEntry.BYTE_LENGTH ≥ 2^64 then
      throw (.dataStructure (.truncatedInput (2^64 - 1) bytes.length))
    else if 4 + count.toNat * ShardEntry.BYTE_LENGTH ≥ 2^64 then
      throw (.dataStructure (.truncatedInput (2^64 - 1) bytes.length))
    else
      let expected := 4 + count.toNat * ShardEntry.BYTE_LENGTH
      if bytes.length < expected then throw (.dataStructure (.truncatedInput expected bytes.length))
      else if bytes.length > expected then
        throw (.dataStructure (.trailingBytes (bytes.length - expected)))
      else do
        -- an entry takes 56 bytes in memory
        withCapacity 56 count.toNat
        let shardEntries ← readEntries bytes count.toNat 4
        let extra : MasterchainBlockExtra := ⟨shardEntries⟩
        Run.ofExcept id extra.validate
        pure extra

/-! ## what it reads -/

/-- the bytes of the shards ascend -/
def Before (a b : ShardEntry) : Prop := a.shard.toBytes < b.shard.toBytes

instance : Trans Before Before Before := ⟨fun {a b c} (h : a.shard.toBytes < b.shard.toBytes)
  (h' : b.shard.toBytes < c.shard.toBytes) => lt_trans h h'⟩

/-- shards that ascend by their bytes -/
structure Valid (x : MasterchainBlockExtra) : Prop where
  marked : ∀ e ∈ x.shardEntries, e.shard.Marked
  ascending : x.shardEntries.Pairwise Before

theorem validate_iff (x : MasterchainBlockExtra) :
    x.validate = .ok () ↔ x.shardEntries.Pairwise Before := by
  rw [← List.isChain_iff_pairwise]
  unfold validate
  induction x.shardEntries with
  | nil => exact iff_of_true rfl .nil
  | cons a l ih =>
    cases l with
    | nil => exact iff_of_true rfl (.singleton a)
    | cons b l =>
      rw [List.isChain_cons_cons, ← ih, validateEntries]
      split_ifs with heq hgt
      · exact iff_of_false (by simp) fun h => absurd heq (ne_of_lt h.1)
      · exact iff_of_false (by simp) fun h => lt_asymm hgt h.1
      · have hlt := lt_of_le_of_ne (not_lt.mp hgt) heq
        exact ⟨fun h => ⟨hlt, h⟩, fun h => h.2⟩

/-- the entries that are written from `offset` on -/
def entriesAt (bytes : Bytes) : Nat → Nat → List ShardEntry
  | 0, _ => []
  | n + 1, offset => ShardEntry.ofFields (field bytes offset (offset + 48)) :: entriesAt bytes n (offset + 48)

/-- the count that is written in the bytes -/
def countAt (bytes : Bytes) : Nat := (decodeWord 32 (field bytes 0 4)).toNat

/-- the configuration that is written in the bytes -/
def ofFields (bytes : Bytes) : MasterchainBlockExtra := ⟨entriesAt bytes (countAt bytes) 4⟩

section
variable {bytes : Bytes}

@[simp] theorem length_entriesAt (n offset : Nat) : (entriesAt bytes n offset).length = n := by
  induction n generalizing offset with
  | zero => rfl
  | succ n ih => exact congrArg (· + 1) (ih (offset + 48))

theorem flatMap_entriesAt (n offset : Nat) (h : offset + n * 48 ≤ bytes.length) :
    (entriesAt bytes n offset).flatMap ShardEntry.toBytes = field bytes offset (offset + n * 48) := by
  induction n generalizing offset with
  | zero =>
    unfold field
    simp [entriesAt]
  | succ n ih =>
    have hstop : offset + 48 + n * 48 = offset + (n + 1) * 48 := by omega
    have hentry : (field bytes offset (offset + 48)).length = 48 := by
      rw [length_field (by omega)]
      omega
    unfold entriesAt
    rw [List.flatMap_cons, ih (offset + 48) (by omega), hstop, ShardEntry.toBytes_ofFields hentry,
      field_append bytes (by omega) (by omega)]

theorem readEntries_reads (hlen : bytes.length < 2^63) (n offset : Nat)
    (h : offset + n * 48 ≤ bytes.length) : Run.Reads (readEntries bytes n offset)
      (∀ e ∈ entriesAt bytes n offset, e.shard.Marked) (entriesAt bytes n offset) := by
  induction n generalizing offset with
  | zero => exact .accepted fun e he => absurd he List.not_mem_nil
  | succ n ih =>
    have hentry : (field bytes offset (offset + 48)).length = 48 := by
      rw [length_field (by omega)]
      omega
    unfold readEntries ShardEntry.BYTE_LENGTH entriesAt
    rw [Run.add_bind (by omega), Run.range_bind (by omega) (by omega)]
    rw [List.forall_mem_cons]
    refine .bind (ShardEntry.fromBytes_reads hentry) fun _ => ?_
    rw [Run.add_bind (by omega)]
    refine Run.Reads.congr (.bind (ih (offset + 48) (by omega)) fun _ => ?_) (and_iff_left trivial)
    exact .accepted trivial

/-- as many bytes as the count asks for -/
def Counted (bytes : Bytes) : Prop := 4 ≤ bytes.length ∧ bytes.length = 4 + countAt bytes * 48

/-- **Shard configurations that are read**: the bytes in which a valid one is written. -/
theorem fromBytes_reads (hlen : bytes.length < 2^63) :
    Run.Reads (fromBytes bytes) (Counted bytes ∧ (ofFields bytes).Valid) (ofFields bytes) := by
  unfold fromBytes
  by_cases hfixed : bytes.length < 4
  · rw [if_pos hfixed]
    exact .refused (fun h => absurd h.1.1 (Nat.not_le.mpr hfixed)) _
  have hcount := (decodeWord 32 (field bytes 0 4)).isLt
  unfold ShardEntry.BYTE_LENGTH
  rw [if_neg hfixed, wordAt_eq (by omega) (by omega) (by omega), Run.adapt_pure, pure_bind,
    if_neg (by omega), if_neg (by omega)]
  by_cases hshort : bytes.length < 4 + (decodeWord 32 (field bytes 0 4)).toNat * 48
  · rw [if_pos hshort]
    exact .refused (fun h => absurd h.1.2 (Nat.ne_of_lt hshort)) _
  by_cases hlong : bytes.length > 4 + (decodeWord 32 (field bytes 0 4)).toNat * 48
  · rw [if_neg hshort, if_pos hlong]
    exact .refused (fun h => absurd h.1.2 (Nat.ne_of_gt hlong)) _
  rw [if_neg hshort, if_neg hlong, withCapacity_eq (by omega), Run.lift_some, pure_bind]
  have hcounted : Counted bytes := ⟨Nat.not_lt.mp hfixed, Nat.le_antisymm (Nat.not_lt.mp hlong) (Nat.not_lt.mp hshort)⟩
  have hvalid : (∀ e ∈ (ofFields bytes).shardEntries, e.shard.Marked)
        ∧ (ofFields bytes).shardEntries.Pairwise Before
      ↔ Counted bytes ∧ (ofFields bytes).Valid :=
    ⟨fun h => ⟨hcounted, h.1, h.2⟩, fun h => ⟨h.2.marked, h.2.ascending⟩⟩
  refine Run.Reads.congr (.bind (readEntries_reads hlen _ 4 (by omega)) fun _ => ?_) hvalid
  have hiff := validate_iff (ofFields bytes)
  show Run.Reads (Run.ofExcept id (ofFields bytes).validate >>= fun _ => pure (ofFields bytes)) _ _
  cases hrun : (ofFields bytes).validate with
  | ok _ => exact .accepted (hiff.mp hrun)
  | error e =>
    refine .refused (fun h => ?_) e
    rw [hiff.mpr h] at hrun
    cases hrun

theorem toBytes_ofFields (h : Counted bytes) : (ofFields bytes).toBytes = bytes := by
  obtain ⟨hfixed, hlen⟩ := h
  unfold toBytes ofFields
  dsimp only
  rw [length_entriesAt, flatMap_entriesAt _ _ (by omega), ← hlen]
  unfold countAt
  rw [BitVec.ofNat_toNat, BitVec.setWidth_eq, encodeWord_field (n:=4) rfl hfixed (by omega),
    field_append bytes (by omega) hfixed, field_zero, List.take_length]

end

section
variable {x : MasterchainBlockExtra}

theorem length_toBytes (x : MasterchainBlockExtra) : x.toBytes.length = 4 + x.shardEntries.length * 48 := by
  unfold toBytes
  rw [List.length_append, length_encodeWord, length_flatMap_be ShardEntry.length_toBytes]

theorem toBytes_inj {x y : MasterchainBlockExtra} (h : x.toBytes = y.toBytes) : x = y := by
  obtain ⟨_, hentries⟩ := append_inj_be (by simp) h
  have heq := flatMap_inj_be (by omega) ShardEntry.length_toBytes ShardEntry.toBytes_inj hentries
  obtain ⟨entries⟩ := x
  exact congrArg MasterchainBlockExtra.mk heq

theorem countAt_toBytes (x : MasterchainBlockExtra) :
    countAt x.toBytes = x.shardEntries.length % 2^32 := by
  unfold countAt toBytes
  rw [field_head (length_encodeWord 4 _), decodeWord_encodeWord (n:=4) rfl, BitVec.toNat_ofNat]

theorem counted_toBytes_iff (x : MasterchainBlockExtra) :
    Counted x.toBytes ↔ x.shardEntries.length < 2^32 := by
  unfold Counted
  rw [length_toBytes, countAt_toBytes]
  omega

/-- **A valid configuration that is written reads back, if its count fits.** -/
theorem fromBytes_toBytes (hvalid : x.Valid) (hcount : x.shardEntries.length < 2^32) :
    fromBytes x.toBytes = pure x := by
  have hcounted := (counted_toBytes_iff x).mpr hcount
  have hfields : ofFields x.toBytes = x := toBytes_inj (toBytes_ofFields hcounted)
  have hlen : x.toBytes.length < 2^63 := by
    rw [length_toBytes]
    omega
  have hread := (fromBytes_reads hlen).eq_pure
  rw [hfields] at hread
  exact hread ⟨hcounted, hvalid⟩

/-- what a vector of entries holds, `to_bytes` can reserve -/
theorem write_eq (h : x.shardEntries.length * 56 < 2^63) : x.write = some x.toBytes := by
  unfold write ShardEntry.BYTE_LENGTH
  rw [mul_eq (by omega), Option.bind_eq_bind, Option.bind_some, add_eq (by omega), Option.bind_eq_bind,
    Option.bind_some, withCapacity_eq (by omega)]
  rfl

end

/-! ## the bytes that are read -/

/-- the bytes of the shard at an index -/
def shardBytes (bytes : Bytes) (i : Nat) : Bytes := field bytes (4 + i * 48) (4 + i * 48 + 12)

/-- a count, as many entries of shards, whose bytes ascend -/
structure Framed (bytes : Bytes) : Prop where
  fixed : 4 ≤ bytes.length
  length_eq : bytes.length = 4 + countAt bytes * 48
  marked : ∀ i < countAt bytes, (ShardIdent.ofFields (shardBytes bytes i)).Marked
  ascending : ∀ i j, i < j → j < countAt bytes → shardBytes bytes i < shardBytes bytes j

section
variable {bytes : Bytes}

theorem getElem_entriesAt (n offset i : Nat) (hi : i < (entriesAt bytes n offset).length) :
    (entriesAt bytes n offset)[i] =
      ShardEntry.ofFields (field bytes (offset + i * 48) (offset + i * 48 + 48)) := by
  induction n generalizing offset i with
  | zero => exact absurd hi (Nat.not_lt_zero i)
  | succ n ih =>
    cases i with
    | zero =>
      have hstart : offset + 0 * 48 = offset := by omega
      rw [hstart]
      rfl
    | succ i =>
      have hstart : offset + 48 + i * 48 = offset + (i + 1) * 48 := by omega
      have htail := ih (offset + 48) i (by simpa using hi)
      rw [hstart] at htail
      exact htail

/-- the shard of an entry, from the bytes -/
theorem shard_entriesAt {n i : Nat} (hi : i < (entriesAt bytes n 4).length) :
    ((entriesAt bytes n 4)[i]).shard = ShardIdent.ofFields (shardBytes bytes i) := by
  rw [getElem_entriesAt]
  unfold ShardEntry.ofFields shardBytes
  dsimp only
  rw [field_field bytes (by omega), Nat.add_zero]

theorem framed_iff : Framed bytes ↔ Counted bytes ∧ (ofFields bytes).Valid := by
  have hmarked : (∀ e ∈ (ofFields bytes).shardEntries, e.shard.Marked)
      ↔ ∀ i < countAt bytes, (ShardIdent.ofFields (shardBytes bytes i)).Marked := by
    show (∀ e ∈ entriesAt bytes (countAt bytes) 4, _) ↔ _
    rw [List.forall_mem_iff_getElem]
    constructor
    · intro h i hi
      have hi' : i < (entriesAt bytes (countAt bytes) 4).length := by simpa using hi
      exact shard_entriesAt hi' ▸ h i hi'
    · intro h i hi
      rw [shard_entriesAt hi]
      exact h i (by simpa using hi)
  have hascending (hcounted : Counted bytes) : (ofFields bytes).shardEntries.Pairwise Before
      ↔ ∀ i j, i < j → j < countAt bytes → shardBytes bytes i < shardBytes bytes j := by
    have hbytes : ∀ i < countAt bytes,
        (ShardIdent.ofFields (shardBytes bytes i)).toBytes = shardBytes bytes i := by
      intro i hi
      have hlen := hcounted.2
      refine ShardIdent.toBytes_ofFields ((length_field (by omega)).trans (by omega))
    show (entriesAt bytes (countAt bytes) 4).Pairwise Before ↔ _
    rw [List.pairwise_iff_getElem]
    unfold Before
    constructor
    · intro h i j hij hj
      have hlt := h i j (by simpa using hij.trans hj) (by simpa using hj) hij
      rwa [shard_entriesAt, shard_entriesAt, hbytes i (hij.trans hj), hbytes j hj] at hlt
    · intro h i j hi hj hij
      have hj' : j < countAt bytes := by simpa using hj
      rw [shard_entriesAt, shard_entriesAt, hbytes i (hij.trans hj'), hbytes j hj']
      exact h i j hij hj'
  constructor
  · intro h
    have hcounted : Counted bytes := ⟨h.fixed, h.length_eq⟩
    exact ⟨hcounted, hmarked.mpr h.marked, (hascending hcounted).mpr h.ascending⟩
  · intro ⟨hcounted, hvalid⟩
    exact ⟨hcounted.1, hcounted.2, hmarked.mp hvalid.marked, (hascending hcounted).mp hvalid.ascending⟩

end

/-! ## more entries than the count can say -/

/-- the shards of the first workchains, by the bytes of their numbers -/
def rootEntries (n : Nat) : MasterchainBlockExtra :=
  ⟨(List.range n).map fun i => ⟨ShardIdent.root ⟨BitVec.ofNat 32 i⟩, 0, 0⟩⟩

theorem length_rootEntries (n : Nat) : (rootEntries n).shardEntries.length = n := by
  unfold rootEntries
  rw [List.length_map, List.length_range]

theorem rootEntries_valid {n : Nat} (h : n ≤ 2^32) : (rootEntries n).Valid where
  marked := by
    intro e he
    obtain ⟨i, _, rfl⟩ := List.mem_map.mp he
    exact ⟨BitPrefix.root, Nat.zero_le 60, rfl⟩
  ascending := by
    unfold rootEntries
    dsimp only
    rw [List.pairwise_map]
    refine List.pairwise_lt_range.imp_of_mem fun {i j} hi hj hij => ?_
    have hj := List.mem_range.mp hj
    refine append_lt_be (by simp) (encodeWord_lt (n:=4) rfl ?_)
    show BitVec.ofNat 32 i < BitVec.ofNat 32 j
    rw [BitVec.lt_def, BitVec.toNat_ofNat, BitVec.toNat_ofNat, Nat.mod_eq_of_lt (by omega),
      Nat.mod_eq_of_lt (by omega)]
    exact hij

end MasterchainBlockExtra

/-! ## both codecs -/

/-- what is claimed of headers, written in `length` bytes -/
structure HeaderCodec (length : Nat) : Prop where
  accepts : ∀ bytes : Bytes, bytes.length = length →
    ((∃ h, (BlockHeader.fromBytes bytes).run = some (.ok h)) ↔ (BlockHeader.ofFields bytes).Valid)
  encode_decode : ∀ (bytes : Bytes) (h : BlockHeader),
    (BlockHeader.fromBytes bytes).run = some (.ok h) → h.toBytes = bytes
  decode_encode : ∀ h : BlockHeader, h.Valid → (BlockHeader.fromBytes h.toBytes).run = some (.ok h)
  returns : ∀ bytes : Bytes, (BlockHeader.fromBytes bytes).run ≠ none

/-- what is claimed of shard configurations that are read -/
structure ExtraReader : Prop where
  accepts : ∀ slice : Slice, (∃ x, (MasterchainBlockExtra.fromBytes slice.bytes).run = some (.ok x))
    ↔ MasterchainBlockExtra.Framed slice.bytes
  encode_decode : ∀ (slice : Slice) (x : MasterchainBlockExtra),
    (MasterchainBlockExtra.fromBytes slice.bytes).run = some (.ok x) → x.toBytes = slice.bytes
  returns : ∀ slice : Slice, (MasterchainBlockExtra.fromBytes slice.bytes).run ≠ none
  /-- a vector holds at most `isize::MAX` bytes -/
  writes : ∀ x : MasterchainBlockExtra, x.shardEntries.length * 56 < 2^63 → x.write = some x.toBytes

theorem headerCodec : HeaderCodec BlockHeader.BYTE_LENGTH where
  accepts bytes hlen := (BlockHeader.fromBytes_reads bytes).exists_ok_iff.trans (and_iff_right hlen)
  encode_decode bytes h hrun := by
    obtain ⟨⟨hlen, _⟩, rfl⟩ := (BlockHeader.fromBytes_reads bytes).ok_iff.mp hrun
    exact BlockHeader.toBytes_ofFields hlen
  decode_encode h hvalid := by
    have hread := (BlockHeader.fromBytes_reads h.toBytes).ok_iff (b:=h)
    rw [BlockHeader.ofFields_toBytes] at hread
    exact hread.mpr ⟨⟨BlockHeader.length_toBytes h, hvalid⟩, rfl⟩
  returns bytes := (BlockHeader.fromBytes_reads bytes).run_ne_none

theorem extraReader : ExtraReader where
  accepts slice := by
    rw [MasterchainBlockExtra.framed_iff]
    exact (MasterchainBlockExtra.fromBytes_reads slice.length_lt).exists_ok_iff
  encode_decode slice x hrun := by
    obtain ⟨⟨hcounted, _⟩, rfl⟩ := (MasterchainBlockExtra.fromBytes_reads slice.length_lt).ok_iff.mp hrun
    exact MasterchainBlockExtra.toBytes_ofFields hcounted
  returns slice := (MasterchainBlockExtra.fromBytes_reads slice.length_lt).run_ne_none
  writes _ h := MasterchainBlockExtra.write_eq h

/-- **The codecs of headers and shard configurations.**  The bytes that are accepted are those in which
a valid one is written, they are its encoding, and nothing panics; headers read back, and
configurations whose count fits. -/
theorem block_codecs : HeaderCodec 238 ∧ ExtraReader
    ∧ ∀ x : MasterchainBlockExtra, x.Valid → x.shardEntries.length < 2^32 →
      (MasterchainBlockExtra.fromBytes x.toBytes).run = some (.ok x) := by
  refine ⟨headerCodec, extraReader, fun x hvalid hcount => ?_⟩
  rw [MasterchainBlockExtra.fromBytes_toBytes hvalid hcount]
  rfl

/-- the header of the first block of the masterchain -/
def bareHeader : BlockHeader where
  magicConstructor := BlockHeader.BLOCK_HEADER_MAGIC
  shard := ShardIdent.root .MASTERCHAIN
  seqNo := 0
  flags := 0
  genUtime := 0
  startLt := 0
  endLt := 0
  prevKeyBlock := 0
  prevRefHash := 0
  prevRefHash2 := 0
  masterRefHash := 0
  stateRootHash := 0
  inMsgRootHash := 0
  outMsgRootHash := 0

/-- **Valid headers in 242 bytes are refused, and so are configurations of all workchains.** -/
theorem codecs_refuse : ¬ HeaderCodec 242
    ∧ ¬ ∀ x : MasterchainBlockExtra, x.Valid →
      (MasterchainBlockExtra.fromBytes x.toBytes).run = some (.ok x) := by
  constructor
  · intro h
    have hlen : (bareHeader.toBytes ++ [0, 0, 0, 0]).length = 242 := by
      rw [List.length_append, BlockHeader.length_toBytes]
      rfl
    have hvalid : (BlockHeader.ofFields (bareHeader.toBytes ++ [0, 0, 0, 0])).Valid :=
      ⟨rfl, ⟨BitPrefix.root, Nat.zero_le 60, rfl⟩, by decide⟩
    obtain ⟨hshort, _⟩ := (BlockHeader.fromBytes_reads _).exists_ok_iff.mp ((h.accepts _ hlen).mpr hvalid)
    exact absurd (hlen.symm.trans hshort) (by decide)
  · intro h
    have hrun := h _ (MasterchainBlockExtra.rootEntries_valid (Nat.le_refl _))
    have hlen : (MasterchainBlockExtra.rootEntries (2^32)).toBytes.length < 2^63 := by
      rw [MasterchainBlockExtra.length_toBytes, MasterchainBlockExtra.length_rootEntries]
      omega
    obtain ⟨⟨hcounted, _⟩, _⟩ := (MasterchainBlockExtra.fromBytes_reads hlen).ok_iff.mp hrun
    have hsmall := (MasterchainBlockExtra.counted_toBytes_iff _).mp hcounted
    rw [MasterchainBlockExtra.length_rootEntries] at hsmall
    exact absurd hsmall (Nat.lt_irrefl _)

end Onx.Blocks
