import Onx.State.Cell

/-!
# Accepted cells

What `from_bytes` makes of a byte string.  The reader masks the first byte of the descriptor, whose
high four bits the writer never sets.

* `fromBytes_ok`          a cell that is read, and the bytes it is written as;
* `cell_codec_iff`        **writing inverts reading** exactly where the four bits are zero, and two
                          encodings of a cell differ in them only;
* `descriptor_ignored`    a cell that is stored in two ways.
-/

namespace Onx.Cell

/-- the four bits of a descriptor without a meaning -/
def spareBits (slice : Bytes) : Byte := slice.headD 0 &&& 0xF0

theorem length_readRefs (n : Nat) (bs : Bytes) : (readRefs n bs).length = n := by
  induction n generalizing bs with
  | zero => rfl
  | succ n ih => exact congrArg Nat.succ (ih (bs.drop 32))

theorem refsBytes_readRefs : ∀ (n : Nat) (bs : Bytes), n * 32 ≤ bs.length →
    refsBytes (readRefs n bs) = bs.take (n * 32) := by
  intro n
  induction n with
  | zero =>
    intro bs _
    rw [Nat.zero_mul, List.take_zero]
    rfl
  | succ n ih =>
    intro bs hlen
    have htake : (bs.take 32).length = 32 := List.length_take_of_le (by omega)
    have hrest := ih (bs.drop 32) (by rw [List.length_drop]; omega)
    show encodeWord 32 (decodeWord 256 (bs.take 32)) ++ refsBytes (readRefs n (bs.drop 32)) = _
    rw [encodeWord_decodeWord (n:=32) rfl htake, hrest, ← List.take_add]
    congr 1
    omega

/-- the descriptor that is written for the masks of another -/
theorem written_descriptor (d1 : Byte) :
    (if d1 &&& 0x08 != 0 then BitVec.ofNat 8 (d1 &&& 0x07).toNat ||| 0x08
      else BitVec.ofNat 8 (d1 &&& 0x07).toNat) = d1 &&& 0x0F := by
  revert d1
  decide

theorem masked_eq_iff (d1 : Byte) : d1 &&& 0x0F = d1 ↔ d1 &&& 0xF0 = 0 := by
  revert d1
  decide

theorem mask_or_spare (d1 : Byte) : d1 &&& 0x0F ||| d1 &&& 0xF0 = d1 := by
  revert d1
  decide

theorem eq_iff_spare {d1 d1' : Byte} (h : d1 &&& 0x0F = d1' &&& 0x0F) :
    d1 = d1' ↔ d1 &&& 0xF0 = d1' &&& 0xF0 := by
  refine ⟨fun heq => by rw [heq], fun heq => ?_⟩
  rw [← mask_or_spare d1, h, heq, mask_or_spare]

theorem toBytes_mk (data : Bytes) (refs : List Uint256) (special : Bool)
    (hd : data.length ≤ MAX_CELL_DATA_BYTES) (hr : refs.length ≤ MAX_CELL_REFS) :
    toBytes ⟨data, refs, special, hd, hr⟩
      = (if special then BitVec.ofNat 8 refs.length ||| 0x08 else BitVec.ofNat 8 refs.length)
        :: BitVec.ofNat 8 data.length :: (data ++ refsBytes refs) := rfl

/-- **A cell that is read**: its encoding is what was read, but for the spare bits. -/
theorem fromBytes_ok {slice : Bytes} {cell : Cell} {n : Nat} (h : fromBytes slice = .ok (cell, n)) :
    n ≤ slice.length ∧ ∃ d1 rest, slice.take n = d1 :: rest ∧ slice.headD 0 = d1
      ∧ cell.toBytes = (d1 &&& 0x0F) :: rest := by
  match slice with
  | [] => cases h
  | [_] => cases h
  | d1 :: d2 :: payload =>
    unfold fromBytes at h
    dsimp only at h
    split_ifs at h with hrefs hdata hshort
    have hd : (payload.take d2.toNat).length = d2.toNat := List.length_take_of_le (by omega)
    have hr : (readRefs (d1 &&& 0x07).toNat (payload.drop d2.toNat)).length = (d1 &&& 0x07).toNat :=
      length_readRefs _ _
    rw [newWithSpecial_eq (by rw [hd]; omega) (by rw [hr]; omega)] at h
    cases h
    have hstop : 2 + d2.toNat + (d1 &&& 0x07).toNat * 32
        = d2.toNat + (d1 &&& 0x07).toNat * 32 + 1 + 1 := by omega
    refine ⟨?_, d1, d2 :: payload.take (d2.toNat + (d1 &&& 0x07).toNat * 32), ?_, rfl, ?_⟩
    · rw [List.length_cons, List.length_cons]
      omega
    · rw [hstop, List.take_succ_cons, List.take_succ_cons]
    · rw [toBytes_mk, hd, hr, written_descriptor, BitVec.ofNat_toNat, BitVec.setWidth_eq,
        refsBytes_readRefs _ _ (by rw [List.length_drop]; omega), ← List.take_add]

/-- what is consumed is as long as what is written -/
theorem length_of_fromBytes {slice : Bytes} {cell : Cell} {n : Nat}
    (h : fromBytes slice = .ok (cell, n)) : cell.toBytes.length = n := by
  obtain ⟨hle, d1, rest, htake, _, hbytes⟩ := fromBytes_ok h
  have hlen := congrArg List.length htake
  rw [List.length_take_of_le hle, List.length_cons] at hlen
  rw [hbytes, List.length_cons, hlen]

/-- bytes that are read are written back exactly if their spare bits are zero -/
theorem toBytes_eq_iff {slice : Bytes} {cell : Cell} {n : Nat}
    (h : fromBytes slice = .ok (cell, n)) :
    cell.toBytes = slice.take n ↔ spareBits slice = 0 := by
  obtain ⟨_, d1, rest, htake, hhead, hbytes⟩ := fromBytes_ok h
  unfold spareBits
  rw [hbytes, htake, hhead, List.cons.injEq, and_iff_left rfl]
  exact masked_eq_iff d1

/-- the same of a cell that is read from a prefix -/
theorem toBytes_take_iff {bs : Bytes} {cell : Cell} {n : Nat}
    (h : fromBytes (bs.take n) = .ok (cell, n)) :
    cell.toBytes = bs.take n ↔ spareBits bs = 0 := by
  have hiff := toBytes_eq_iff h
  rw [List.take_take, Nat.min_self] at hiff
  rw [hiff]
  match bs, n with
  | [], _ => simp
  | _ :: _, 0 => cases h
  | _ :: _, n + 1 => rfl

/-- the reader does not see a spare bit -/
theorem fromBytes_or_spare (d1 : Byte) (rest : Bytes) :
    fromBytes ((d1 ||| 0x10) :: rest) = fromBytes (d1 :: rest) := by
  cases rest with
  | nil => rfl
  | cons d2 payload =>
    have hcount : (d1 ||| 0x10) &&& 0x07 = d1 &&& 0x07 := by
      revert d1
      decide
    have hspecial : (d1 ||| 0x10) &&& 0x08 = d1 &&& 0x08 := by
      revert d1
      decide
    unfold fromBytes
    dsimp only
    rw [hcount, hspecial]

/-- the cell with a spare bit in its descriptor -/
def altBytes (self : Cell) : Bytes := (self.descriptorBytes.1 ||| 0x10) :: self.toBytes.tail

/-- **Every cell has a second encoding** of the same length. -/
theorem fromBytes_altBytes (self : Cell) :
    fromBytes self.altBytes = .ok (self, self.altBytes.length)
    ∧ self.altBytes.length = self.toBytes.length ∧ self.altBytes ≠ self.toBytes := by
  have hread := fromBytes_toBytes self []
  rw [List.append_nil] at hread
  refine ⟨(fromBytes_or_spare _ _).trans hread, rfl, fun heq => ?_⟩
  have hspare := (toBytes_eq_iff hread).mp (List.take_length).symm
  have hhead : self.descriptorBytes.1 ||| 0x10 = self.descriptorBytes.1 := (List.cons.inj heq).1
  have hbit : ∀ d1 : Byte, d1 &&& 0xF0 = 0 → d1 ||| 0x10 ≠ d1 := by decide
  exact hbit _ hspare hhead

/-- whatever the bytes, the cell has an encoding that differs from them -/
theorem exists_other (self : Cell) (bs : Bytes) :
    ∃ bytes, fromBytes bytes = .ok (self, bytes.length) ∧ bytes.length = self.toBytes.length
      ∧ bytes ≠ bs := by
  obtain ⟨halt, hlen, hne⟩ := self.fromBytes_altBytes
  by_cases heq : self.altBytes = bs
  · have hread := fromBytes_toBytes self []
    rw [List.append_nil] at hread
    exact ⟨self.toBytes, hread, rfl, fun h => hne (heq.trans h.symm)⟩
  · exact ⟨self.altBytes, halt, hlen, heq⟩

/-- **The codec of cells.**  A cell that is written reads back; bytes that are read are written back
exactly if their spare bits are zero; and two encodings of one hash are the same exactly if their
spare bits are, where SHA-256 does not collide on the two cells. -/
theorem cell_codec_iff (c : Crypto) :
    (∀ (cell : Cell) (suffix : Bytes),
      fromBytes (cell.toBytes ++ suffix) = .ok (cell, cell.toBytes.length))
    ∧ (∀ slice cell n, fromBytes slice = .ok (cell, n) → n ≤ slice.length
      ∧ (cell.toBytes = slice.take n ↔ spareBits slice = 0))
    ∧ ∀ slice cell n slice' cell' n', fromBytes slice = .ok (cell, n) →
      fromBytes slice' = .ok (cell', n') → cell.hash c = cell'.hash c →
      (domainHash c ONX_CELL_HASH_V1_TAG cell.toBytes = domainHash c ONX_CELL_HASH_V1_TAG cell'.toBytes
        → cell.toBytes = cell'.toBytes) →
      (slice.take n = slice'.take n' ↔ spareBits slice = spareBits slice') := by
  refine ⟨fromBytes_toBytes, fun slice cell n h => ⟨(fromBytes_ok h).1, toBytes_eq_iff h⟩, ?_⟩
  intro slice cell n slice' cell' n' h h' hhash hinj
  obtain ⟨_, d1, rest, htake, hhead, hbytes⟩ := fromBytes_ok h
  obtain ⟨_, d1', rest', htake', hhead', hbytes'⟩ := fromBytes_ok h'
  have heq := hinj hhash
  rw [hbytes, hbytes', List.cons.injEq] at heq
  obtain ⟨hmask, hrest⟩ := heq
  unfold spareBits
  rw [htake, htake', hhead, hhead', List.cons.injEq, and_iff_left hrest]
  exact eq_iff_spare hmask

/-- a leaf with a byte behind it -/
theorem cell_codec_sample :
    3 ≤ ([0x00, 0x01, 0x07, 0x09] : Bytes).length
    ∧ ((⟨[0x07], [], false, by decide, by decide⟩ : Cell).toBytes = [0x00, 0x01, 0x07]
      ↔ spareBits [0x00, 0x01, 0x07, 0x09] = 0) :=
  (cell_codec_iff sampleCrypto).2.1 [0x00, 0x01, 0x07, 0x09] _ 3 rfl

/-- **A leaf, stored with a bit that the reader ignores.** -/
theorem descriptor_ignored :
    fromBytes [0x10, 0x01, 0x07] = .ok (⟨[0x07], [], false, by decide, by decide⟩, 3)
    ∧ ¬ ∀ slice cell n, fromBytes slice = .ok (cell, n) →
      n ≤ slice.length ∧ cell.toBytes = slice.take n := by
  have hread : fromBytes [0x10, 0x01, 0x07]
      = .ok (⟨[0x07], [], false, by decide, by decide⟩, 3) := rfl
  refine ⟨hread, fun h => ?_⟩
  obtain ⟨_, hback⟩ := h _ _ _ hread
  exact absurd hback (by decide)

end Onx.Cell
