import Onx.Vm.OutOfGas
import Onx.Vm.CellSteps

/-!
# Gas against the published table

Section 4 of the instruction set lists what each instruction costs, some of it by the lengths of
operands.

* `Opcode.published`   the table;
* `Opcode.unpaid`      what `SUBBYTES` should charge for its bytes;
* `cost_published`     every other instruction charges what the table says;
* `visited`            the states of a run whose instructions were executed;
* `gas_of_run`         the gas of a run is the sum of what was charged, as long as the counter holds it;
* `gas_table_iff`      **when the gas of a run is the sum of the table**;
* `subBytes_free`      a run with one byte cut off for nothing.
-/

namespace Onx.Vm
open Machine

/-! ## the table -/

/-- the length operand of `SUBBYTES` -/
def subLength (s : Interpreter) : Nat :=
  match s.stack with
  | .integer len :: _ => asUsize (toI128 len)
  | _ => 0

/-- what an instruction costs, in the state before it; 0 where its operands are not there -/
def Opcode.published (op : Opcode) (s : Interpreter) : Nat :=
  match op with
  -- stack manipulation
  | .nop | .drop | .dup | .swap | .«over» | .rot | .pick | .roll | .pushInt => 1
  | .pushBytes =>
    match widthAt s.currentCode (s.pcBits + 8) with
    | some len => 1 + divCeil len.toNat 32
    | none => 0
  | .nip | .tuck | .blkSwap => 1
  -- arithmetic and conversion
  | .add | .sub | .neg => 4
  | .mul | .divMod => 8
  | .cmp | .isZero => 4
  | .div => 8
  | .lShift | .rShift | .conv => 4
  -- byte strings
  | .byteLen => 1
  | .concat =>
    match s.stack with
    | .bytes b :: .bytes a :: _ => 4 + divCeil (a.length + b.length) 32
    | _ => 0
  | .subBytes => 4 + divCeil (subLength s) 32
  | .byteEq =>
    match s.stack with
    | .bytes b :: .bytes a :: _ => 1 + divCeil (min a.length b.length) 32
    | _ => 0
  -- cells
  | .newC | .endC | .stBits | .stRef => 10
  | .stBytes =>
    match s.stack with
    | .bytes bytes :: _ => 10 + divCeil bytes.length 32
    | _ => 0
  | .cToS | .ldU | .ldI | .ldRef | .isExotic => 10
  | .sEmpty | .sBits | .sRefs => 1
  -- control flow
  | .jmpRef | .callRef | .ret | .ifJmpRef | .ifNotJmpRef | .ifCallRef | .ifNotCallRef | .throw
  | .ifElse | .ifRet | .repeatInstr | .untilInstr => 4
  -- cryptography
  | .hashBytes | .hashCell => 200
  | .chkSignU => 4000

/-- the part of the price that is not charged -/
def Opcode.unpaid (op : Opcode) (s : Interpreter) : Nat :=
  match op with
  | .subBytes => divCeil (subLength s) 32
  | _ => 0

/-- the instruction that a state executes, by the table; the end of a code cell is none -/
def published (s : Interpreter) : Nat :=
  match opcodeAt s with
  | some op => op.published s
  | none => 0

def unpaid (s : Interpreter) : Nat :=
  match opcodeAt s with
  | some op => op.unpaid s
  | none => 0

section
variable {s u : Interpreter} {n : Nat}

theorem readUint16_ok {w : Uint16} (h : readUint16 s = .ok w u) :
    widthAt s.currentCode s.pcBits = some w := by
  unfold readUint16 at h
  obtain ⟨high, t, hhigh, h⟩ := bind_eq_ok.mp h
  obtain ⟨low, v, hlow, h⟩ := bind_eq_ok.mp h
  rw [readUint8_apply] at hhigh hlow
  cases h8 : byteAt s.currentCode s.pcBits with
  | none =>
    rw [h8] at hhigh
    cases hhigh
  | some b8 =>
    rw [h8] at hhigh
    cases hhigh
    dsimp only at hlow
    cases h16 : byteAt s.currentCode (s.pcBits + 8) with
    | none =>
      rw [h16] at hlow
      cases hlow
    | some b16 =>
      rw [h16] at hlow
      cases hlow
      cases h
      exact widthAt_of_bytes h8 h16

/-- **Every instruction but `SUBBYTES` charges what the table says.** -/
theorem cost_published {op : Opcode} (h : op.cost (behindOpcode s) = .ok n u) :
    op.published s = n + op.unpaid s := by
  cases op with
  | pushBytes =>
    obtain ⟨len, t, hlen, h⟩ := bind_eq_ok.mp h
    cases h
    show (match widthAt s.currentCode (s.pcBits + 8) with
      | some len => 1 + divCeil len.toNat 32
      | none => 0) = _
    rw [show widthAt s.currentCode (s.pcBits + 8) = some len from readUint16_ok hlen]
    rfl
  | concat =>
    obtain ⟨a, b, hstack, rfl⟩ := popBytes_twice (s := behindOpcode s) h
    unfold Opcode.published
    rw [show s.stack = _ from hstack]
    rfl
  | byteEq =>
    obtain ⟨a, b, hstack, rfl⟩ := popBytes_twice (s := behindOpcode s) h
    unfold Opcode.published
    rw [show s.stack = _ from hstack]
    rfl
  | stBytes =>
    obtain ⟨bytes, t, hbytes, h⟩ := bind_eq_ok.mp h
    cases h
    unfold Opcode.published
    rw [show s.stack = _ from popBytes_ok (s := behindOpcode s) hbytes]
    rfl
  | _ =>
    cases h
    rfl

/-! ## runs -/

/-- the states in which a run takes its turns -/
def visited (c : Crypto) : Nat → Interpreter → List Interpreter
  | 0, _ => []
  | n + 1, s => s :: match turn c s with
    | .next t => visited c n t
    | _ => []

/-- a step that does not fail leaves the counter with what the table says, less what is not
charged -/
theorem gas_of_step {c : Crypto} {t : Interpreter} {go : Bool} (h : step c s = .ok go t) :
    ∃ n, published s = n + unpaid s ∧ t.gasUsed.toNat = min (s.gasUsed.toNat + n) (2^64 - 1) := by
  have hmax : s.gasUsed.toNat < 2^64 := s.gasUsed.isLt
  have hcases := step_cases c s
  rw [h] at hcases
  have hnone : s.pcBits ≥ s.totalBits → published s = 0 + unpaid s := by
    intro hend
    unfold published unpaid
    cases hop : opcodeAt s with
    | none => rfl
    | some op => exact absurd hend (not_end_of_opcode hop)
  cases hcases with
  | finished hend _ => exact ⟨0, hnone hend, by omega⟩
  | left hend _ =>
    refine ⟨0, hnone hend, ?_⟩
    show s.gasUsed.toNat = _
    omega
  | @paid n u _ hcode hcharge hlocal _ hin hfinal =>
    cases hop : opcodeAt s with
    | none =>
      obtain ⟨pcBits, herr⟩ := charge_of_no_opcode hop
      rw [herr] at hcharge
      cases hcharge
    | some op =>
      rw [charge_of_opcode hop] at hcharge
      refine ⟨n, ?_, ?_⟩
      · unfold published unpaid
        rw [hop]
        exact cost_published hcharge
      · have hfree : Free (pay u n) t := Moved.free hfinal
        have hpaid : (pay u n).gasUsed = BitVec.ofNat 64 (gasAfter s n) := by
          show BitVec.ofNat 64 (gasAfter u n) = _
          rw [gasAfter_local hlocal]
        rw [hfree.gasUsed_eq, hpaid, toNat_gasAfter hin]
        rfl

/-- a turn that succeeds -/
theorem step_of_turn_success {c : Crypto} {data : Cell} {out : List Message} {gas : Uint64}
    (hs : Within s) (hc2 : s.controlRegisters.c2 = none)
    (h : turn c s = .done (.success data out gas)) :
    ∃ t, step c s = .ok false t ∧ gas = t.gasUsed := by
  unfold turn at h
  cases hstep : step c s with
  | ok go t =>
    rw [hstep] at h
    cases go with
    | true => cases h
    | false =>
      cases h
      exact ⟨t, rfl, rfl⟩
  | err e t =>
    rw [hstep] at h
    dsimp only [raised] at h
    rw [(step_err hs hstep).1.along.c2_eq, hc2] at h
    cases h
  | panic =>
    rw [hstep] at h
    cases h

/-- **The gas of a run** that ends in success. -/
theorem gas_of_run {c : Crypto} {data : Cell} {out : List Message} {gas : Uint64} (n : Nat)
    (hs : Unhandled s s) (h : run c n s = .done (.success data out gas)) :
    ∃ paid, ((visited c n s).map published).sum = paid + ((visited c n s).map unpaid).sum
      ∧ gas.toNat = min (s.gasUsed.toNat + paid) (2^64 - 1) := by
  induction n generalizing s with
  | zero => cases h
  | succ n ih =>
    unfold visited
    unfold run loop at h
    cases hturn : turn c s with
    | next t =>
      rw [hturn] at h
      have hstep := step_of_turn_next hs.metered.within hs.c2_none hturn
      have ht : Unhandled t t := by
        have hnext := hs.turn hturn
        exact ⟨⟨Std.Refl.refl t, hnext.metered.within⟩, hnext.c2_none⟩
      obtain ⟨first, hfirst, hgas⟩ := gas_of_step hstep
      obtain ⟨rest, hrest, hrestGas⟩ := ih ht h
      refine ⟨first + rest, ?_, by omega⟩
      rw [List.map_cons, List.map_cons, List.sum_cons, List.sum_cons]
      dsimp only
      omega
    | done r =>
      rw [hturn] at h
      cases h
      obtain ⟨t, hstep, hused⟩ := step_of_turn_success hs.metered.within hs.c2_none hturn
      obtain ⟨first, hfirst, hgas⟩ := gas_of_step hstep
      refine ⟨first, ?_, by rw [hused, hgas]⟩
      simp only [List.map_cons, List.map_nil, List.sum_cons, List.sum_nil]
      omega
    | panic =>
      rw [hturn] at h
      cases h

theorem divCeil_eq_zero_iff {a b : Nat} (hb : 1 < b) : divCeil a b = 0 ↔ a = 0 := by
  unfold divCeil
  rw [Nat.div_eq_zero_iff]
  omega

/-- only a `SUBBYTES` leaves something unpaid -/
theorem unpaid_eq_zero_iff :
    unpaid s = 0 ↔ (opcodeAt s = some .subBytes → subLength s = 0) := by
  unfold unpaid
  cases hop : opcodeAt s with
  | none => exact iff_of_true rfl nofun
  | some op =>
    by_cases hsub : op = .subBytes
    · subst hsub
      rw [show (some Opcode.subBytes = some Opcode.subBytes → subLength s = 0) ↔ subLength s = 0
        from ⟨fun h => h rfl, fun h _ => h⟩]
      exact divCeil_eq_zero_iff (by decide)
    · refine iff_of_true ?_ fun h => absurd (Option.some.inj h) hsub
      cases op with
      | subBytes => exact absurd rfl hsub
      | _ => rfl

end

/-- **When the gas of a run is the sum of the table**: no `SUBBYTES` of the run takes a byte, and the
sum is in the range of the counter. -/
theorem gas_table_iff (c : Crypto) {s : Interpreter} {n : Nat} {data : Cell} {out : List Message}
    {gas : Uint64} (hc2 : s.controlRegisters.c2 = none)
    (hused : s.gasUsed.toNat ≤ s.gasLimit.toNat)
    (hrun : run c n s = .done (.success data out gas)) :
    gas.toNat = s.gasUsed.toNat + ((visited c n s).map published).sum
      ↔ (∀ t ∈ visited c n s, opcodeAt t = some .subBytes → subLength t = 0)
        ∧ s.gasUsed.toNat + ((visited c n s).map published).sum < 2^64 := by
  obtain ⟨paid, hsum, hgas⟩ := gas_of_run n ⟨⟨Std.Refl.refl s, hused⟩, hc2⟩ hrun
  have hzero : ((visited c n s).map unpaid).sum = 0
      ↔ ∀ t ∈ visited c n s, opcodeAt t = some .subBytes → subLength t = 0 := by
    rw [List.sum_eq_zero_iff_forall_eq_nat, List.forall_mem_map]
    exact forall₂_congr fun t _ => unpaid_eq_zero_iff
  rw [← hzero]
  omega

theorem gas_table_sample :
    (4 : Uint64).toNat = 0 + ((visited sampleCrypto 2
      (oneInstruction (codeOf [0x16] (by decide)) [.integer 0])).map published).sum := by
  have hrun : run sampleCrypto 2 (oneInstruction (codeOf [0x16] (by decide)) [.integer 0])
      = .done (.success emptyCell [] 4) := Turn.eq_done (by decide +kernel)
  refine (gas_table_iff sampleCrypto rfl (Nat.zero_le _) hrun).mpr ⟨?_, ?_⟩
  · decide +kernel
  · decide +kernel

/-- one byte of two, from the start on -/
def firstByteCode : Cell :=
  codeOf ([0x09, 0, 2, 7, 8] ++ pushIntCode 0 ++ pushIntCode 1 ++ [0x32]) (Nat.le_of_ble_eq_true rfl)

/-- a contract whose byte is cut off at the price of none -/
theorem subBytes_free :
    run sampleCrypto 5 (Interpreter.new firstByteCode emptyCell sampleMessage sampleContext)
      = .done (.success emptyCell [] 8)
    ∧ ((visited sampleCrypto 5
        (Interpreter.new firstByteCode emptyCell sampleMessage sampleContext)).map published).sum = 9
    ∧ ¬ ∀ c n code data message context newData out (gas : Uint64),
      run c n (Interpreter.new code data message context) = .done (.success newData out gas) →
        gas.toNat = ((visited c n (Interpreter.new code data message context)).map published).sum := by
  have hrun : run sampleCrypto 5 (Interpreter.new firstByteCode emptyCell sampleMessage sampleContext)
      = .done (.success emptyCell [] 8) := Turn.eq_done (by decide +kernel)
  have hsum : ((visited sampleCrypto 5
      (Interpreter.new firstByteCode emptyCell sampleMessage sampleContext)).map published).sum = 9 := by
    decide +kernel
  refine ⟨hrun, hsum, fun h => ?_⟩
  have heq := h _ _ _ _ _ _ _ _ _ hrun
  rw [hsum] at heq
  cases heq

end Onx.Vm
