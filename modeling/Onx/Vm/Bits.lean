import Onx.Lib.ByteBits
import Onx.Vm.Values

/-!
# Bits in builders and slices

The loops of `append_bits` and `read_bits`, bit by bit.

* `wordBits`           the low bits of a word, from the highest;
* `appendLoop_bits`    **what is written**: the bits are joined to those that stand there already;
* `readLoop_bits`      **what is read**;
* `appendBits_bits`    what a write makes of a builder;
* `Packed`             a builder that holds some bits and nothing else; `packed_appendBits`;
* `readBits_word`      a slice finds the word whose bits stand at its offset;
* `appendAll`, `readAll`   sequences of writes and reads;
* `bits_round_trip`    **what is written in sequence is read in sequence**, and failures change
                       nothing.
-/

namespace Onx.Vm
open Machine ByteBits

/-- the low bits of a word, from the highest of them -/
def wordBits (widthBits : Nat) (valBytes : Uint256) : List Bool :=
  (List.range widthBits).map fun i => valBytes.getMsbD (256 - widthBits + i)

/-- the low bits of a word, as a word -/
def lowBits (widthBits : Nat) (valBytes : Uint256) : Uint256 :=
  BitVec.ofNat 256 (valBytes.toNat % 2^widthBits)

@[simp] theorem length_wordBits (widthBits : Nat) (valBytes : Uint256) :
    (wordBits widthBits valBytes).length = widthBits := by
  unfold wordBits
  rw [List.length_map, List.length_range]

theorem getElem?_wordBits (widthBits : Nat) (valBytes : Uint256) (i : Nat) :
    (wordBits widthBits valBytes)[i]?
      = if i < widthBits then some (valBytes.getMsbD (256 - widthBits + i)) else none :=
  getElem?_map_range ..

theorem getMsbD_lowBits {widthBits : Nat} (h : widthBits ≤ 256) (valBytes : Uint256) (j : Nat) :
    (lowBits widthBits valBytes).getMsbD j
      = (decide (256 - widthBits ≤ j) && valBytes.getMsbD j) := by
  unfold lowBits
  rw [BitVec.getMsbD_eq_getLsbD, BitVec.getMsbD_eq_getLsbD, BitVec.getLsbD_ofNat,
    Nat.testBit_mod_two_pow]
  show _ = (decide (256 - widthBits ≤ j) && (decide (j < 256) && valBytes.toNat.testBit (256 - 1 - j)))
  by_cases hj : j < 256
  · have hlt : (256 - 1 - j < widthBits) ↔ 256 - widthBits ≤ j := by omega
    simp only [hj, hlt, decide_true, Bool.true_and, show 256 - 1 - j < 256 by omega]
  · simp [hj]

/-! ## writing -/

section
variable {valBytes : Uint256} {widthBits start : Nat} {data : Bytes}

/-- one bit is joined to what stands there -/
theorem appendBit_bits (valBytes : Uint256) (widthBits : Nat) {i : Nat}
    (h : start + i ≤ 8 * data.length) :
    ∃ data', Builder.appendBit valBytes widthBits start i data = some data'
      ∧ data'.length = max data.length ((start + i) / 8 + 1)
      ∧ ∀ j, getBit msbFirst data' j = (getBit msbFirst data j
          || (decide (j = start + i) && valBytes.getMsbD (256 - widthBits + i))) := by
  obtain ⟨d, hd, hin, hlen, hbits⟩ : ∃ d : Bytes,
      (if (start + i) / 8 ≥ data.length then data ++ [0] else data) = d
      ∧ (start + i) / 8 < d.length ∧ d.length = max data.length ((start + i) / 8 + 1)
      ∧ ∀ j, getBit msbFirst d j = getBit msbFirst data j := by
    split_ifs with hge
    · refine ⟨data ++ zeros 1, rfl, ?_, ?_, fun j => ?_⟩
      · rw [List.length_append, length_zeros]
        omega
      · rw [List.length_append, length_zeros]
        omega
      · rw [getBit_append]
        split_ifs with hj
        · rfl
        · rw [getBit_zeros, getBit_eq_false msbFirst (Nat.not_lt.mp hj)]
    · exact ⟨data, rfl, by omega, by omega, fun _ => rfl⟩
  unfold Builder.appendBit
  dsimp only
  rw [hd, List.getElem?_eq_getElem hin]
  split_ifs with hbit
  · have hset : d.set ((start + i) / 8) (d[(start + i) / 8] ||| 1 <<< (7 - (start + i) % 8))
        = setBit msbFirst d (start + i) := by
      unfold setBit
      rw [List.modify_eq_set_getElem?, List.getElem?_eq_getElem hin]
      rfl
    refine ⟨_, congrArg some hset, ?_, fun j => ?_⟩
    · rw [length_setBit, hlen]
    · rw [getBit_setBit msbFirst hin, hbits, hbit, Bool.and_true, Bool.or_comm]
      simp only [eq_comm]
  · refine ⟨d, rfl, hlen, fun j => ?_⟩
    rw [hbits, Bool.eq_false_of_not_eq_true hbit, Bool.and_false, Bool.or_false]

/-- the last `n` bits -/
theorem appendLoop_last (valBytes : Uint256) (start n : Nat) (data : Bytes) (hn : n ≤ widthBits)
    (h : start + (widthBits - n) ≤ 8 * data.length) :
    ∃ data', Builder.appendLoop valBytes widthBits start n data = some data'
      ∧ data'.length = max data.length ((start + widthBits + 7) / 8)
      ∧ ∀ j, getBit msbFirst data' j = (getBit msbFirst data j
          || (decide (start + (widthBits - n) ≤ j ∧ j < start + widthBits)
            && valBytes.getMsbD (256 - widthBits + (j - start)))) := by
  induction n generalizing data with
  | zero =>
    refine ⟨data, rfl, by omega, fun j => ?_⟩
    have hnone : ¬ (start + (widthBits - 0) ≤ j ∧ j < start + widthBits) := by omega
    rw [decide_eq_false hnone, Bool.false_and, Bool.or_false]
  | succ n ih =>
    obtain ⟨mid, hmid, hlen, hbits⟩ := appendBit_bits valBytes widthBits
      (i := widthBits - (n + 1)) h
    obtain ⟨data', hdata', hlen', hbits'⟩ := ih mid (by omega) (by omega)
    refine ⟨data', ?_, by omega, fun j => ?_⟩
    · unfold Builder.appendLoop
      rw [hmid]
      exact hdata'
    · rw [hbits', hbits]
      by_cases hj : j = start + (widthBits - (n + 1))
      · -- the bit that was written first
        have hlater : ¬ (start + (widthBits - n) ≤ j ∧ j < start + widthBits) := by omega
        have hnow : start + (widthBits - (n + 1)) ≤ j ∧ j < start + widthBits := by omega
        have hplace : j - start = widthBits - (n + 1) := by omega
        rw [decide_eq_false hlater, decide_eq_true hj, decide_eq_true hnow, hplace, Bool.false_and,
          Bool.or_false]
      · have hsame : (start + (widthBits - n) ≤ j ∧ j < start + widthBits)
            ↔ (start + (widthBits - (n + 1)) ≤ j ∧ j < start + widthBits) := by omega
        rw [decide_eq_false hj, Bool.false_and, Bool.or_false, decide_eq_decide.mpr hsame]

/-- **What is written** is joined to what stands there. -/
theorem appendLoop_bits (valBytes : Uint256) (widthBits : Nat) (h : start ≤ 8 * data.length) :
    ∃ data', Builder.appendLoop valBytes widthBits start widthBits data = some data'
      ∧ data'.length = max data.length ((start + widthBits + 7) / 8)
      ∧ ∀ j, getBit msbFirst data' j = (getBit msbFirst data j
          || (decide (start ≤ j ∧ j < start + widthBits)
            && valBytes.getMsbD (256 - widthBits + (j - start)))) := by
  have hlast := appendLoop_last valBytes start widthBits data (le_refl _)
    (by rw [Nat.sub_self]; exact h)
  rw [Nat.sub_self] at hlast
  exact hlast

/-! ## reading -/

/-- the word with one bit -/
theorem getMsbD_one_shiftLeft {k j : Nat} (hk : k < 256) :
    BitVec.getMsbD ((1 <<< k : Nat) : Uint256) j = decide (j = 255 - k) := by
  show ((1#256) <<< k).getMsbD j = _
  rw [BitVec.getMsbD_shiftLeft, BitVec.getMsbD_one]
  by_cases h : j = 255 - k
  · simp [h]
    omega
  · simp [h]
    omega

theorem readLoop_last {offset : Nat} (hw : widthBits ≤ 256)
    (h : offset + widthBits ≤ 8 * data.length) (n : Nat) (res : Uint256) (hn : n ≤ widthBits) :
    ∃ r, Slice.readLoop data offset widthBits n res = some r
      ∧ ∀ j < 256, r.getMsbD j = (res.getMsbD j
          || (decide (256 - n ≤ j) && getBit msbFirst data (offset + widthBits + j - 256))) := by
  induction n generalizing res with
  | zero =>
    refine ⟨res, rfl, fun j hj => ?_⟩
    rw [decide_eq_false (by omega), Bool.false_and, Bool.or_false]
  | succ n ih =>
    have hin : (offset + (widthBits - (n + 1))) / 8 < data.length := by omega
    unfold Slice.readLoop
    dsimp only
    rw [List.getElem?_eq_getElem hin]
    dsimp only
    have hbit : (data[(offset + (widthBits - (n + 1))) / 8]).getLsbD
        (7 - (offset + (widthBits - (n + 1))) % 8)
          = getBit msbFirst data (offset + (widthBits - (n + 1))) := by
      unfold getBit
      rw [List.getElem?_eq_getElem hin]
      rfl
    rw [hbit]
    obtain ⟨r, hr, hbits⟩ := ih (if getBit msbFirst data (offset + (widthBits - (n + 1))) then
      res ||| 1 <<< (255 - (256 - widthBits + (widthBits - (n + 1)))) else res) (by omega)
    refine ⟨r, hr, fun j hj => ?_⟩
    have hres : (if getBit msbFirst data (offset + (widthBits - (n + 1))) then
        res ||| 1 <<< (255 - (256 - widthBits + (widthBits - (n + 1)))) else res).getMsbD j
          = (res.getMsbD j || (decide (j = 255 - n)
            && getBit msbFirst data (offset + (widthBits - (n + 1))))) := by
      split_ifs with hset
      · have hplace : 255 - (255 - (256 - widthBits + (widthBits - (n + 1)))) = 255 - n := by omega
        rw [BitVec.getMsbD_or, getMsbD_one_shiftLeft (by omega), hplace, hset, Bool.and_true]
      · rw [Bool.eq_false_of_not_eq_true hset, Bool.and_false, Bool.or_false]
    rw [hbits j hj, hres]
    by_cases hj' : j = 255 - n
    · have hplace : offset + widthBits + j - 256 = offset + (widthBits - (n + 1)) := by omega
      rw [hplace, decide_eq_true hj', decide_eq_false (show ¬ 256 - n ≤ j by omega),
        decide_eq_true (show 256 - (n + 1) ≤ j by omega), Bool.false_and, Bool.or_false]
    · have hsame : 256 - n ≤ j ↔ 256 - (n + 1) ≤ j := by omega
      rw [decide_eq_false hj', Bool.false_and, Bool.or_false, decide_eq_decide.mpr hsame]

/-- **What is read** is what stands at the offset. -/
theorem readLoop_bits {offset : Nat} (hw : widthBits ≤ 256)
    (h : offset + widthBits ≤ 8 * data.length) :
    ∃ r, Slice.readLoop data offset widthBits widthBits 0 = some r
      ∧ ∀ j < 256, r.getMsbD j = (decide (256 - widthBits ≤ j)
          && getBit msbFirst data (offset + widthBits + j - 256)) := by
  obtain ⟨r, hr, hbits⟩ := readLoop_last hw h widthBits 0 (le_refl _)
  refine ⟨r, hr, fun j hj => ?_⟩
  rw [hbits j hj, show (0 : Uint256).getMsbD j = false from BitVec.getMsbD_zero, Bool.false_or]

end

/-! ## packed builders -/

/-- a builder that holds bits and nothing else -/
structure Packed (b : Builder) (bits : List Bool) : Prop where
  dataBytes_eq : b.dataBytes = ByteBits.pack msbFirst bits
  currentBitLen_eq : b.currentBitLen = bits.length

theorem packed_default : Packed Builder.default [] := ⟨rfl, rfl⟩

section
variable {valBytes : Uint256} {widthBits : Nat} {b b' : Builder} {slice : Slice}
  {front bits back : List Bool}

theorem getBit_append_wordBits (j : Nat) :
    (bits ++ wordBits widthBits valBytes)[j]?.getD false
      = (bits[j]?.getD false || (decide (bits.length ≤ j ∧ j < bits.length + widthBits)
          && valBytes.getMsbD (256 - widthBits + (j - bits.length)))) := by
  rw [List.getElem?_append, getElem?_wordBits]
  by_cases hfront : j < bits.length
  · rw [if_pos hfront, decide_eq_false (by omega), Bool.false_and, Bool.or_false]
  · rw [if_neg hfront, List.getElem?_eq_none (Nat.not_lt.mp hfront)]
    by_cases hin : j - bits.length < widthBits
    · rw [if_pos hin, decide_eq_true (by omega), Bool.true_and]
      rfl
    · rw [if_neg hin, decide_eq_false (by omega), Bool.false_and]
      rfl

/-- a write succeeds where there is room -/
theorem appendBits_some (valBytes : Uint256) (hb : b.Fits) (hw : widthBits ≤ 256)
    (hroom : b.currentBitLen + widthBits ≤ 1024) :
    ∃ b', Builder.appendBits valBytes widthBits b = .ok () b' := by
  obtain ⟨data, hloop, _⟩ := appendLoop_bits valBytes widthBits hb
  rw [appendBits_apply, if_neg (by omega), hloop]
  exact ⟨_, rfl⟩

/-- **What a write makes of a builder.** -/
theorem appendBits_bits (hb : b.Fits) (h : Builder.appendBits valBytes widthBits b = .ok () b') :
    b'.Fits ∧ b'.currentBitLen = b.currentBitLen + widthBits
      ∧ b'.dataBytes.length = max b.dataBytes.length ((b.currentBitLen + widthBits + 7) / 8)
      ∧ ∀ j, getBit msbFirst b'.dataBytes j = (getBit msbFirst b.dataBytes j
          || (decide (b.currentBitLen ≤ j ∧ j < b.currentBitLen + widthBits)
            && valBytes.getMsbD (256 - widthBits + (j - b.currentBitLen)))) := by
  obtain ⟨_, data, hloop, rfl⟩ := appendBits_ok h
  obtain ⟨data', hloop', hlength, hbits⟩ := appendLoop_bits valBytes widthBits hb
  rw [hloop] at hloop'
  cases hloop'
  refine ⟨?_, rfl, hlength, hbits⟩
  show b.currentBitLen + widthBits ≤ 8 * data.length
  omega

theorem Packed.fits (hb : Packed b bits) : b.Fits := by
  show b.currentBitLen ≤ 8 * b.dataBytes.length
  rw [hb.dataBytes_eq, hb.currentBitLen_eq, ByteBits.length_pack]
  omega

/-- a write behind the bits -/
theorem packed_appendBits (hb : Packed b bits)
    (h : Builder.appendBits valBytes widthBits b = .ok () b') :
    Packed b' (bits ++ wordBits widthBits valBytes) := by
  obtain ⟨_, hlen, hlength, hbits⟩ := appendBits_bits hb.fits h
  rw [hb.currentBitLen_eq] at hlen hlength hbits
  rw [hb.dataBytes_eq] at hlength hbits
  refine ⟨ByteBits.ext msbFirst ?_ fun j _ => ?_, ?_⟩
  · rw [hlength, ByteBits.length_pack, ByteBits.length_pack, List.length_append, length_wordBits]
    omega
  · rw [hbits, getBit_pack, getBit_pack, getBit_append_wordBits]
  · rw [hlen, List.length_append, length_wordBits]

/-! ## slices -/

/-- a slice reads what stands at its offset -/
theorem readBits_some (hw : widthBits ≤ 256)
    (h : slice.bitOffset + widthBits ≤ 8 * slice.cell.dataBytes.length) :
    ∃ r, Slice.readBits widthBits slice
        = .ok r { slice with bitOffset := slice.bitOffset + widthBits }
      ∧ ∀ j < 256, r.getMsbD j = (decide (256 - widthBits ≤ j)
          && getBit msbFirst slice.cell.dataBytes (slice.bitOffset + widthBits + j - 256)) := by
  obtain ⟨r, hr, hbits⟩ := readLoop_bits hw h
  refine ⟨r, ?_, hbits⟩
  have hroom : ¬ (slice.remainingBits < widthBits ∨ widthBits > 256) := by
    unfold Slice.remainingBits
    omega
  rw [readBits_apply, if_neg hroom, hr]

/-- the word whose bits stand at the offset -/
theorem readBits_word (hw : widthBits ≤ 256)
    (hdata : slice.cell.dataBytes
      = ByteBits.pack msbFirst (front ++ wordBits widthBits valBytes ++ back))
    (hoffset : slice.bitOffset = front.length) :
    Slice.readBits widthBits slice = .ok (lowBits widthBits valBytes)
      { slice with bitOffset := slice.bitOffset + widthBits } := by
  have hin : slice.bitOffset + widthBits ≤ 8 * slice.cell.dataBytes.length := by
    rw [hdata, ByteBits.length_pack, List.length_append, List.length_append, length_wordBits]
    omega
  obtain ⟨r, hr, hbits⟩ := readBits_some hw hin
  have hword : r = lowBits widthBits valBytes := by
    refine BitVec.eq_of_getMsbD_eq fun j hj => ?_
    rw [hbits j hj, getMsbD_lowBits hw]
    by_cases hlow : 256 - widthBits ≤ j
    · have hplace : slice.bitOffset + widthBits + j - 256 = front.length + (j - (256 - widthBits)) := by
        omega
      have hj' : 256 - widthBits + (j - (256 - widthBits)) = j := by omega
      rw [hdata, getBit_pack, hplace, List.append_assoc, List.getElem?_append,
        if_neg (by omega), Nat.add_sub_cancel_left, List.getElem?_append,
        if_pos (by rw [length_wordBits]; omega), getElem?_wordBits, if_pos (by omega), hj']
      rfl
    · rw [decide_eq_false hlow, Bool.false_and, Bool.false_and]
  rw [hr, hword]

/-- a write that fails changes nothing -/
theorem appendBits_err {e : ExceptionKind}
    (h : Builder.appendBits valBytes widthBits b = .err e b') : b' = b := by
  rw [appendBits_apply] at h
  split_ifs at h
  · cases h
    rfl
  · cases hloop : Builder.appendLoop valBytes widthBits b.currentBitLen widthBits b.dataBytes <;>
      rw [hloop] at h <;> cases h

/-- a read that fails changes nothing -/
theorem readBits_err {e : ExceptionKind} {slice' : Slice}
    (h : Slice.readBits widthBits slice = .err e slice') : slice' = slice := by
  rw [readBits_apply] at h
  split_ifs at h
  · cases h
    rfl
  · cases hloop : Slice.readLoop slice.cell.dataBytes slice.bitOffset widthBits widthBits 0 <;>
      rw [hloop] at h <;> cases h

end

/-! ## sequences -/

/-- writes, one after the other -/
def appendAll : List (Nat × Uint256) → Prog Builder ExceptionKind Unit
  | [] => pure ()
  | (widthBits, valBytes) :: rest => do
    Builder.appendBits valBytes widthBits
    appendAll rest

/-- reads, one after the other -/
def readAll : List Nat → Prog Slice ExceptionKind (List Uint256)
  | [] => pure []
  | widthBits :: rest => do
    let valBytes ← Slice.readBits widthBits
    let vals ← readAll rest
    pure (valBytes :: vals)

/-- what is written, as bits -/
def allBits (writes : List (Nat × Uint256)) : List Bool :=
  writes.flatMap fun (widthBits, valBytes) => wordBits widthBits valBytes

section
variable {writes : List (Nat × Uint256)} {b : Builder} {slice : Slice} {bits front : List Bool}

theorem length_allBits (writes : List (Nat × Uint256)) :
    (allBits writes).length = (writes.map Prod.fst).sum := by
  unfold allBits
  rw [List.length_flatMap]
  congr 1
  exact List.map_congr_left fun p _ => length_wordBits p.1 p.2

theorem packed_appendAll (hw : ∀ p ∈ writes, p.1 ≤ 256) (hb : Packed b bits)
    (hroom : bits.length + (writes.map Prod.fst).sum ≤ 1024) :
    ∃ b', appendAll writes b = .ok () b' ∧ Packed b' (bits ++ allBits writes) := by
  induction writes generalizing b bits with
  | nil =>
    refine ⟨b, rfl, ?_⟩
    rw [show allBits [] = [] from rfl, List.append_nil]
    exact hb
  | cons p writes ih =>
    obtain ⟨widthBits, valBytes⟩ := p
    rw [List.map_cons, List.sum_cons] at hroom
    have hfull : b.currentBitLen + widthBits ≤ 1024 := by
      rw [hb.currentBitLen_eq]
      omega
    obtain ⟨mid, hmid⟩ := appendBits_some valBytes hb.fits (hw _ List.mem_cons_self) hfull
    have hpacked := packed_appendBits hb hmid
    obtain ⟨b', hb', hpacked'⟩ := ih (fun q hq => hw q (List.mem_cons_of_mem _ hq)) hpacked
      (by rw [List.length_append, length_wordBits]; omega)
    refine ⟨b', (bind_ok hmid).trans hb', ?_⟩
    rw [List.append_assoc] at hpacked'
    exact hpacked'

theorem readAll_bits (front : List Bool) (hw : ∀ p ∈ writes, p.1 ≤ 256)
    (hdata : slice.cell.dataBytes = ByteBits.pack msbFirst (front ++ allBits writes))
    (hoffset : slice.bitOffset = front.length) :
    ∃ slice', readAll (writes.map Prod.fst) slice
      = .ok (writes.map fun p => lowBits p.1 p.2) slice' := by
  induction writes generalizing slice front with
  | nil => exact ⟨slice, rfl⟩
  | cons p writes ih =>
    obtain ⟨widthBits, valBytes⟩ := p
    have hdata' : slice.cell.dataBytes
        = ByteBits.pack msbFirst (front ++ wordBits widthBits valBytes ++ allBits writes) := by
      rw [hdata, List.append_assoc]
      rfl
    have hread := readBits_word (hw _ List.mem_cons_self) hdata' hoffset
    have hdata'' : { slice with bitOffset := slice.bitOffset + widthBits }.cell.dataBytes
        = ByteBits.pack msbFirst (front ++ wordBits widthBits valBytes ++ allBits writes) := hdata'
    obtain ⟨slice', hrest⟩ := ih _ (fun q hq => hw q (List.mem_cons_of_mem _ hq)) hdata''
      (by rw [List.length_append, length_wordBits, ← hoffset])
    exact ⟨slice', (bind_ok hread).trans (bind_ok hrest)⟩

end

/-- **What is written in sequence is read in sequence**; the bytes are as many as the bits need, and
a write or read that fails changes nothing. -/
theorem bits_round_trip (writes : List (Nat × Uint256)) (hw : ∀ p ∈ writes, p.1 ≤ 256)
    (htotal : (writes.map Prod.fst).sum ≤ 1024) :
    (∃ b, appendAll writes Builder.default = .ok () b
      ∧ b.dataBytes.length = ((writes.map Prod.fst).sum + 7) / 8
      ∧ ∀ cell : Cell, cell.dataBytes = b.dataBytes →
        ∃ slice, readAll (writes.map Prod.fst) (Slice.new cell)
          = .ok (writes.map fun p => BitVec.ofNat 256 (p.2.toNat % 2^p.1)) slice)
    ∧ (∀ widthBits valBytes b e b',
        Builder.appendBits valBytes widthBits b = .err e b' → b' = b)
    ∧ ∀ widthBits slice e slice',
        Slice.readBits widthBits slice = .err e slice' → slice' = slice := by
  refine ⟨?_, fun _ _ _ _ _ => appendBits_err, fun _ _ _ _ => readBits_err⟩
  obtain ⟨b, hb, hdata, hlen⟩ := packed_appendAll hw packed_default
    (by rw [List.length_nil]; omega)
  rw [List.nil_append] at hdata hlen
  refine ⟨b, hb, ?_, fun cell hcell => ?_⟩
  · rw [hdata, ByteBits.length_pack, length_allBits]
  · exact readAll_bits [] hw (hcell.trans hdata) rfl

theorem bits_round_trip_sample :
    ∃ b, appendAll [(3, 13), (0, 7), (256, 9)] Builder.default = .ok () b
      ∧ b.dataBytes.length = 33 := by
  obtain ⟨b, hb, hlen, _⟩ := (bits_round_trip [(3, 13), (0, 7), (256, 9)] (by decide) (by decide)).1
  exact ⟨b, hb, hlen⟩

end Onx.Vm
