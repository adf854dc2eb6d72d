import Onx.Vm.Arithmetic
import Onx.Vm.Builders

/-!
# Integers in cells

An integer goes into a builder with a width, and comes out of a slice with it. `STBITS` writes its
low bits whatever the integer is, and `LDI` reads them as `LDU` does.

* `StBitsAt`, `LoadAt`    the instructions with what they need;
* `ReadsBack`             the integer is read at its position, whatever is written behind it;
* `Survives`              what is asked for: an integer that fits is read back, others are refused;
* `applies_keeps`         later writes leave the counted bits;
* `load_eq_iff`           what is read, bit by bit;
* `survives_iff`          **when an integer survives**;
* `stBits_truncates`      an integer of 9 bits at width 8.
-/

namespace Onx.Vm
open Machine ByteBits TwosComplement

/-- `STBITS` with its gas, operands and room -/
structure StBitsAt (s : Interpreter) (width : Uint16) (signed : Byte) (v : Uint256) (b : Builder)
    (rest : List StackValue) : Prop where
  opcode_eq : opcodeAt s = some .stBits
  hasGas : HasGas s 10
  immediates_eq : immediates s.currentCode (s.pcBits + 8) = some (width, signed)
  width_pos : 1 ≤ width.toNat
  width_le : width.toNat ≤ 256
  signed_le : signed.toNat ≤ 1
  stack_eq : s.stack = .integer v :: .builder b :: rest
  stack_le : s.stack.length ≤ MAX_STACK_DEPTH
  room : b.currentBitLen + width.toNat ≤ 1024

/-- `LDU` or `LDI` with its gas, a slice and room for the result -/
structure LoadAt (s : Interpreter) (width : Uint16) (signed : Byte) (slice : Slice)
    (rest : List StackValue) : Prop where
  opcode_eq : opcodeAt s = some (if signed = 0 then .ldU else .ldI)
  hasGas : HasGas s 10
  width_eq : widthAt s.currentCode (s.pcBits + 8) = some width
  stack_eq : s.stack = .slice slice :: rest
  stack_lt : rest.length + 1 < MAX_STACK_DEPTH

/-- `v` is read where the builder `b` ended, from every cell that comes of the builder `b'` -/
def ReadsBack (c : Crypto) (width : Uint16) (signed : Byte) (v : Uint256) (b b' : Builder) : Prop :=
  ∀ xs last cell, Writes c xs b' last → Ended c last cell →
    ∀ s slice rest, slice.cell = cell → slice.bitOffset = b.currentBitLen →
      LoadAt s width signed slice rest →
        step c s = .ok true (behind s 10 3 (.integer v
          :: .slice { slice with bitOffset := slice.bitOffset + width.toNat } :: rest))

/-- an integer that fits the width is read back, and others are refused -/
def Survives (c : Crypto) (s : Interpreter) (width : Uint16) (signed : Byte) (v : Uint256)
    (b : Builder) (rest : List StackValue) : Prop :=
  if FitsIn width.toNat signed (value (decide (signed ≠ 0)) v) then
    ∃ b', step c s = .ok true (behind s 10 4 (.builder b' :: rest)) ∧ ReadsBack c width signed v b b'
  else ∃ t, step c s = .err .integerOverflow t

/-- the integer is its own low bits, and where bytes stand at the position already, their bits are
among its bits -/
def Kept (width : Uint16) (signed : Byte) (v : Uint256) (b : Builder) : Prop :=
  (if signed = 0 then v.toNat < 2^width.toNat
    else v.toNat < 2^(width.toNat - 1) ∨ width.toNat = 256)
  ∧ ∀ i < width.toNat, getBit msbFirst b.dataBytes (b.currentBitLen + i) = true →
    v.getMsbD (256 - width.toNat + i) = true

section
variable {c : Crypto} {s : Interpreter} {width : Uint16} {signed : Byte} {v : Uint256}
  {b b' : Builder} {rest : List StackValue} {xs : List Write} {w : Nat}

theorem applied_keeps {x : Write} (h : x.Applied b b') (hb : b.Fits) :
    b.dataBytes.length ≤ b'.dataBytes.length ∧ b.currentBitLen ≤ b'.currentBitLen
      ∧ ∀ j < b.currentBitLen, getBit msbFirst b'.dataBytes j = getBit msbFirst b.dataBytes j := by
  cases x with
  | bits widthBits valBytes =>
    obtain ⟨_, hlen, hlength, hbits⟩ := appendBits_bits hb h
    refine ⟨by omega, by omega, fun j hj => ?_⟩
    rw [hbits, decide_eq_false (by omega), Bool.false_and, Bool.or_false]
  | bytes bytes =>
    obtain ⟨_, rfl⟩ := (show _ ∧ b' = _ from h)
    refine ⟨?_, le_refl _, fun j hj => ?_⟩
    · show b.dataBytes.length ≤ (b.dataBytes ++ bytes).length
      rw [List.length_append]
      exact Nat.le_add_right _ _
    · rw [getBit_append, if_pos (Nat.lt_of_lt_of_le hj hb)]
  | ref cell =>
    obtain ⟨_, rfl⟩ := (show _ ∧ b' = _ from h)
    exact ⟨le_refl _, le_refl _, fun _ _ => rfl⟩

/-- later writes leave the counted bits -/
theorem applies_keeps (h : Applies xs b b') (hb : b.Fits) :
    b.dataBytes.length ≤ b'.dataBytes.length
      ∧ ∀ j < b.currentBitLen, getBit msbFirst b'.dataBytes j = getBit msbFirst b.dataBytes j := by
  induction xs generalizing b with
  | nil =>
    rw [show b' = b from h]
    exact ⟨le_refl _, fun _ _ => rfl⟩
  | cons x xs ih =>
    obtain ⟨mid, hx, hxs⟩ := h
    obtain ⟨hlength, hlen, hbits⟩ := applied_keeps hx hb
    obtain ⟨ihlength, ihbits⟩ := ih hxs (applied_length hx hb).1
    refine ⟨le_trans hlength ihlength, fun j hj => ?_⟩
    rw [ihbits j (Nat.lt_of_lt_of_le hj hlen), hbits j hj]

/-! ## words and their bits -/

theorem lowBits_eq_self_iff : lowBits w v = v ↔ v.toNat < 2^w := by
  unfold lowBits
  rw [← BitVec.toNat_inj, BitVec.toNat_ofNat]
  have hlt : v.toNat % 2^w < 2^256 := Nat.lt_of_le_of_lt (Nat.mod_le _ _) v.isLt
  rw [Nat.mod_eq_of_lt hlt]
  exact ⟨fun h => by rw [← h]; exact Nat.mod_lt _ (Nat.two_pow_pos w), Nat.mod_eq_of_lt⟩

/-- **What is read, bit by bit**: the written bits, joined to those that stood there. -/
theorem load_eq_iff {r : Uint256} {old : Nat → Bool} (hw : w ≤ 256)
    (hr : ∀ j < 256, r.getMsbD j
      = (decide (256 - w ≤ j) && (old (j - (256 - w)) || v.getMsbD j))) :
    r = v ↔ v.toNat < 2^w ∧ ∀ i < w, old i = true → v.getMsbD (256 - w + i) = true := by
  rw [← lowBits_eq_self_iff]
  constructor
  · rintro rfl
    refine ⟨BitVec.eq_of_getMsbD_eq fun j hj => ?_, fun i hi hold => ?_⟩
    · rw [getMsbD_lowBits hw]
      have hbit := hr j hj
      by_cases hlow : 256 - w ≤ j
      · rw [decide_eq_true hlow, Bool.true_and]
      · rw [decide_eq_false hlow, Bool.false_and] at hbit ⊢
        exact hbit.symm
    · rw [hr _ (by omega), decide_eq_true (Nat.le_add_right _ _), Nat.add_sub_cancel_left, hold]
      rfl
  · rintro ⟨hlow, hold⟩
    refine BitVec.eq_of_getMsbD_eq fun j hj => ?_
    rw [hr j hj]
    have hbit := getMsbD_lowBits hw v j
    rw [hlow] at hbit
    by_cases hj' : 256 - w ≤ j
    · rw [decide_eq_true hj', Bool.true_and]
      have hi := hold (j - (256 - w)) (by omega)
      rw [show 256 - w + (j - (256 - w)) = j by omega] at hi
      cases hv : v.getMsbD j with
      | true => rw [Bool.or_true]
      | false =>
        rw [Bool.or_false]
        refine Bool.eq_false_of_not_eq_true fun h => ?_
        rw [hi h] at hv
        cases hv
    · rw [decide_eq_false hj', Bool.false_and] at hbit ⊢
      exact hbit.symm

/-! ## what is read back -/

theorem wellFormed_of_applies (h : Applies xs b b') (hb : b.WellFormed) : b'.WellFormed := by
  induction xs generalizing b with
  | nil =>
    rw [show b' = b from h]
    exact hb
  | cons x xs ih =>
    obtain ⟨mid, hx, hxs⟩ := h
    refine ih hxs ?_
    cases x with
    | bits widthBits valBytes => exact hb.appendBits hx
    | bytes bytes =>
      obtain ⟨hroom, rfl⟩ := (show _ ∧ mid = _ from hx)
      refine ⟨?_, hb.references_le, ?_⟩
      · show (b.dataBytes ++ bytes).length ≤ 128
        rw [List.length_append]
        exact hroom
      · have hfits := hb.fits
        unfold Builder.Fits at hfits ⊢
        dsimp only
        rw [List.length_append]
        omega
    | ref cell =>
      obtain ⟨hroom, rfl⟩ := (show _ ∧ mid = _ from hx)
      exact hb.addRef cell hroom

theorem wellFormed_of_built (h : Built c xs b) : b.WellFormed :=
  wellFormed_of_applies (applies_of_built h) ⟨Nat.zero_le _, Nat.zero_le _, Nat.zero_le _⟩

/-- a load at the position where the builder ended -/
theorem step_load_stored {last : Builder} {cell : Cell} {slice : Slice}
    (hb : b.Fits) (hw : width.toNat ≤ 256)
    (hwrite : Builder.appendBits v width.toNat b = .ok () b') (hlater : Writes c xs b' last)
    (hended : Ended c last cell) (hcell : slice.cell = cell)
    (hoffset : slice.bitOffset = b.currentBitLen) (hat : LoadAt s width signed slice rest) :
    ∃ r : Uint256, step c s = .ok true (behind s 10 3 (.integer r
        :: .slice { slice with bitOffset := slice.bitOffset + width.toNat } :: rest))
      ∧ ∀ j < 256, r.getMsbD j = (decide (256 - width.toNat ≤ j)
        && (getBit msbFirst b.dataBytes (b.currentBitLen + (j - (256 - width.toNat)))
          || v.getMsbD j)) := by
  obtain ⟨hfits, hlen, hlength, hbits⟩ := appendBits_bits hb hwrite
  obtain ⟨hkeptLen, hkept⟩ := applies_keeps (applies_of_writes hlater) hfits
  have hdata : slice.cell.dataBytes = last.dataBytes := by
    rw [hcell]
    exact (ended_cell hended).1
  have hin : slice.bitOffset + width.toNat ≤ 8 * slice.cell.dataBytes.length := by
    rw [hdata, hoffset]
    omega
  obtain ⟨r, hread, hr⟩ := readBits_some hw hin
  have hload : (if signed = 0 then Opcode.ldU else .ldI) = .ldU
      ∨ (if signed = 0 then Opcode.ldU else .ldI) = .ldI := by
    split_ifs
    · exact Or.inl rfl
    · exact Or.inr rfl
  refine ⟨r, ?_, fun j hj => ?_⟩
  · have hroom := hat.stack_lt
    rw [step_load hload hat.opcode_eq hat.hasGas hat.width_eq hat.stack_eq, onLocal_eq, hread]
    refine (congrArg goneOn (push_bind (s := behind s 10 3 rest) (by
      show rest.length < MAX_STACK_DEPTH
      omega))).trans ?_
    rw [push_ok (by
      show (_ :: rest).length < MAX_STACK_DEPTH
      rw [List.length_cons]
      exact hroom)]
    rfl
  · rw [hr j hj]
    by_cases hlow : 256 - width.toNat ≤ j
    · have hplace : slice.bitOffset + width.toNat + j - 256
          = b.currentBitLen + (j - (256 - width.toNat)) := by omega
      have hword : 256 - width.toNat + (b.currentBitLen + (j - (256 - width.toNat)) - b.currentBitLen)
          = j := by omega
      have hwindow : b.currentBitLen ≤ b.currentBitLen + (j - (256 - width.toNat))
          ∧ b.currentBitLen + (j - (256 - width.toNat)) < b.currentBitLen + width.toNat := by omega
      rw [hplace, hdata, hkept _ (by omega), hbits, decide_eq_true hwindow, Bool.true_and, hword]
    · rw [decide_eq_false hlow, Bool.false_and, Bool.false_and]

/-- code that loads a width -/
def loadCode (width : Uint16) (signed : Byte) : Cell :=
  codeOf [if signed = 0 then 0x46 else 0x47, width.extractLsb' 8 8, width.extractLsb' 0 8]
    (Nat.le_of_ble_eq_true rfl)

theorem loadAt_loadCode (width : Uint16) (signed : Byte) (slice : Slice) :
    LoadAt (oneInstruction (loadCode width signed) [.slice slice]) width signed slice [] where
  opcode_eq := by
    refine opcodeAt_oneInstruction _ _ ?_ _
    rw [show byteAt (loadCode width signed) 0 = _ from byteAt_codeOf (i := 0) rfl]
    split_ifs
    · decide
    · decide
  hasGas := Nat.le_of_ble_eq_true rfl
  width_eq := by
    refine (widthAt_of_bytes (byteAt_codeOf (i := 1) rfl) (byteAt_codeOf (i := 2) rfl)).trans ?_
    exact congrArg some BitVec.extractLsb'_append_extractLsb'
  stack_eq := rfl
  stack_lt := by decide

/-- **When an integer is read back.** -/
theorem readsBack_iff (signed : Byte) (hb : b.WellFormed) (hw : width.toNat ≤ 256)
    (hwrite : Builder.appendBits v width.toNat b = .ok () b') :
    ReadsBack c width signed v b b' ↔ v.toNat < 2^width.toNat
      ∧ ∀ i < width.toNat, getBit msbFirst b.dataBytes (b.currentBitLen + i) = true →
        v.getMsbD (256 - width.toNat + i) = true := by
  have hb' := hb.appendBits hwrite
  constructor
  · intro h
    have hended := ended_of_le c (b := b') hb'.dataBytes_le (by
      rw [List.length_map]
      exact hb'.references_le)
    obtain ⟨r, hstep, hr⟩ := step_load_stored hb.fits hw hwrite .nil hended rfl rfl
      (loadAt_loadCode width signed ⟨_, b.currentBitLen, 0, []⟩)
    rw [h [] _ _ .nil hended _ _ _ rfl rfl (loadAt_loadCode width signed _)] at hstep
    injection hstep with _ hstate
    have hstack := congrArg Interpreter.stack hstate
    injection hstack with hv
    injection hv with hv
    exact (load_eq_iff hw hr).mp hv.symm
  · intro h xs last cell hlater hended s slice rest hcell hoffset hat
    obtain ⟨r, hstep, hr⟩ := step_load_stored hb.fits hw hwrite hlater hended hcell hoffset hat
    rw [hstep, (load_eq_iff hw hr).mpr h]

/-- a signed integer that fits and is its own low bits -/
theorem signed_kept_iff (hpos : 1 ≤ w) (hle : w ≤ 256) :
    InRange w v.toInt ∧ v.toNat < 2^w ↔ v.toNat < 2^(w - 1) ∨ w = 256 := by
  have hv : v.toNat < 2^256 := v.isLt
  by_cases htop : w = 256
  · subst htop
    refine iff_of_true ⟨⟨BitVec.le_toInt v, BitVec.toInt_lt⟩, hv⟩ (Or.inr rfl)
  · have hpow : 2^w ≤ 2^255 := Nat.pow_le_pow_right (by decide) (by omega)
    have hdouble : 2^w = 2 * 2^(w - 1) := by
      obtain ⟨n, rfl⟩ := Nat.exists_eq_succ_of_ne_zero (Nat.one_le_iff_ne_zero.mp hpos)
      rw [Nat.succ_sub_one, Nat.pow_succ, Nat.mul_comm]
    have hcast : ((2^(w - 1) : Nat) : Int) = 2^(w - 1) := by push_cast; rfl
    have hint : v.toNat < 2^w → v.toInt = v.toNat := fun h =>
      BitVec.toInt_eq_toNat_of_lt (by omega)
    constructor
    · rintro ⟨⟨_, hlt⟩, h⟩
      rw [hint h, ← hcast] at hlt
      exact Or.inl (Int.ofNat_lt.mp hlt)
    · intro h
      have h := h.resolve_right htop
      refine ⟨⟨?_, ?_⟩, by omega⟩
      · rw [hint (by omega), ← hcast]
        omega
      · rw [hint (by omega), ← hcast]
        exact Int.ofNat_lt.mpr h

/-- the integers that fit and are their own low bits -/
theorem fits_low_iff (v : Uint256) (signed : Byte) (hpos : 1 ≤ w) (hle : w ≤ 256) :
    FitsIn w signed (value (decide (signed ≠ 0)) v) ∧ v.toNat < 2^w
      ↔ if signed = 0 then v.toNat < 2^w else v.toNat < 2^(w - 1) ∨ w = 256 := by
  have hcast : ((2^w : Nat) : Int) = 2^w := by push_cast; rfl
  by_cases hsigned : signed = 0
  · subst hsigned
    show (0 ≤ (v.toNat : Int) ∧ (v.toNat : Int) < 2^w) ∧ _ ↔ v.toNat < 2^w
    rw [← hcast]
    omega
  · rw [if_neg hsigned, decide_eq_true hsigned, ← signed_kept_iff hpos hle]
    unfold FitsIn
    rw [if_neg hsigned]
    rfl

/-- the instruction writes, whatever the integer -/
theorem step_stBits_ok (hb : b.Fits) (hat : StBitsAt s width signed v b rest) :
    ∃ b', Builder.appendBits v width.toNat b = .ok () b'
      ∧ step c s = .ok true (behind s 10 4 (.builder b' :: rest)) := by
  obtain ⟨b', hwrite⟩ := appendBits_some v hb hat.width_le hat.room
  have hroom : rest.length < MAX_STACK_DEPTH := by
    have hlen := hat.stack_le
    rw [hat.stack_eq, List.length_cons, List.length_cons] at hlen
    omega
  refine ⟨b', hwrite, ?_⟩
  rw [step_stBits hat.opcode_eq hat.hasGas hat.immediates_eq hat.stack_eq, onLocal_eq, hwrite]
  exact congrArg goneOn (push_ok (s := behind s 10 4 rest) hroom)

end

/-- **When an integer survives** a cell. -/
theorem survives_iff (c : Crypto) {s : Interpreter} {width : Uint16} {signed : Byte} {v : Uint256}
    {b : Builder} {rest : List StackValue} {xs : List Write} (hbuilt : Built c xs b)
    (hat : StBitsAt s width signed v b rest) :
    Survives c s width signed v b rest ↔ Kept width signed v b := by
  have hb := wellFormed_of_built hbuilt
  obtain ⟨b', hwrite, hstep⟩ := step_stBits_ok (c := c) hb.fits hat
  have hback := readsBack_iff (c := c) signed hb hat.width_le hwrite
  have hfits := fits_low_iff v signed hat.width_pos hat.width_le
  unfold Survives Kept
  rw [← hfits]
  split_ifs with h
  · rw [and_iff_right h, ← hback]
    constructor
    · rintro ⟨b'', hstep', hread⟩
      rw [hstep] at hstep'
      injection hstep' with _ hstate
      have hstack := congrArg Interpreter.stack hstate
      injection hstack with hbuilder
      injection hbuilder with hbuilder
      rw [hbuilder]
      exact hread
    · exact fun hread => ⟨b', hstep, hread⟩
  · refine iff_of_false ?_ fun hkept => h hkept.1.1
    rintro ⟨t, herr⟩
    rw [hstep] at herr
    cases herr

/-- 8 bits into a fresh builder -/
def storeState (signed : Byte) (v : Uint256) : Interpreter :=
  oneInstruction (codeOf [0x42, 0, 8, signed] (Nat.le_of_ble_eq_true rfl))
    [.integer v, .builder Builder.default]

theorem store_at (v : Uint256) : StBitsAt (storeState 0 v) 8 0 v Builder.default [] where
  opcode_eq := opcodeAt_oneInstruction _ _ (by decide) _
  hasGas := Nat.le_of_ble_eq_true rfl
  immediates_eq := show immediates (codeOf [0x42, 0, 8, 0] _) 8 = some (8, 0) by decide
  width_pos := by decide
  width_le := by decide
  signed_le := by decide
  stack_eq := rfl
  stack_le := Nat.le_of_ble_eq_true rfl
  room := by decide

theorem survives_sample : Survives sampleCrypto (storeState 0 255) 8 0 255 Builder.default [] := by
  refine (survives_iff sampleCrypto ⟨_, fresh_default _, .nil⟩ (store_at 255)).mpr
    ⟨by decide, fun i _ h => ?_⟩
  rw [show getBit msbFirst Builder.default.dataBytes _ = false from
    getBit_eq_false _ (Nat.zero_le _)] at h
  cases h

/-- 256 at width 8 is written as 0 -/
theorem stBits_truncates :
    step sampleCrypto (storeState 0 256)
      = .ok true (behind (storeState 0 256) 10 4 [.builder ⟨[0], 8, []⟩])
    ∧ ¬ ∀ c s width signed v b rest xs, Built c xs b → StBitsAt s width signed v b rest →
      Survives c s width signed v b rest := by
  refine ⟨rfl, fun h => ?_⟩
  have hsurvives := h sampleCrypto _ _ _ _ _ _ [] ⟨_, fresh_default _, .nil⟩ (store_at 256)
  have hfits : ¬ FitsIn (8 : Uint16).toNat 0 (value (decide ((0 : Byte) ≠ 0)) 256) := by decide
  unfold Survives at hsurvives
  rw [if_neg hfits] at hsurvives
  obtain ⟨t, ht⟩ := hsurvives
  cases ht

end Onx.Vm
