import Onx.Vm.Supplied

/-!
# How often a block is repeated

`REPEAT` stands behind the block it repeats, and comes back to itself after every pass. Nothing in
the state of the machine says which pass it is.

* `Straight`        successful steps through a block, up to an address behind it;
* `Turns`           `REPEAT` enters its block and comes back to itself, `n` times;
* `Repeats`         what is asked for: `n` passes, and then on behind the instruction;
* `step_repeat`     one step: the count says only whether to enter the block;
* `turns_enters`    so every arrival enters it, whatever came before;
* `repeats_iff`     **when a block is repeated as often as the count says**;
* `repeats_on`      a count of 2.
-/

namespace Onx.Vm
open Machine

/-! ## passes -/

/-- successful steps onwards in one cell of code, without calls or returns, up to `stop` -/
inductive Straight (c : Crypto) (stop : Nat) : Interpreter → Interpreter → Prop where
  | stop {s : Interpreter} (hstop : s.pcBits = stop) : Straight c stop s s
  | step {s t u : Interpreter} (hstep : step c s = .ok true t)
      (hcode : t.currentCode = s.currentCode) (hcalls : t.callStack = s.callStack)
      (hforward : s.pcBits < t.pcBits) (hle : t.pcBits ≤ stop) (rest : Straight c stop t u) :
      Straight c stop s u

/-- the instruction enters the block at `start` and is come back to, `n` times -/
inductive Turns (c : Crypto) (start : Nat) : Nat → Interpreter → Interpreter → Prop where
  | none {s : Interpreter} : Turns c start 0 s s
  | turn {n : Nat} {s t u v : Interpreter} (hstep : Vm.step c s = .ok true t)
      (hcode : t.currentCode = s.currentCode) (hcalls : t.callStack = s.callStack)
      (hentry : t.pcBits = start) (hblock : Straight c s.pcBits t u) (rest : Turns c start n u v) :
      Turns c start (n + 1) s v

/-- `n` passes through the block, and then on behind the instruction -/
def Repeats (c : Crypto) (start n : Nat) (s : Interpreter) : Prop :=
  ∃ u t, Turns c start n s u ∧ step c u = .ok true t ∧ t.currentCode = s.currentCode
    ∧ t.pcBits = s.pcBits + 24

/-- a state at the instruction, whose negative offset names a block before it -/
structure RepeatAt (s : Interpreter) (count offset : Byte) (start : Nat) : Prop where
  opcode_eq : opcodeAt s = some .repeatInstr
  count_eq : byteAt s.currentCode (s.pcBits + 8) = some count
  offset_eq : byteAt s.currentCode (s.pcBits + 16) = some offset
  negative : offset.toInt < 0
  start_eq : (s.pcBits + 24 : Int) + offset.toInt * 8 = start
  start_le : start ≤ s.pcBits

/-- the block does not fail, and there is gas for `n` passes and for the instruction behind them -/
def Affords (c : Crypto) (start n : Nat) (s : Interpreter) : Prop :=
  ∃ u, Turns c start n s u ∧ HasGas u 4

section
variable {c : Crypto} {s t u : Interpreter} {count offset : Byte} {start stop n : Nat}

theorem Straight.keeps (h : Straight c stop s t) :
    t.currentCode = s.currentCode ∧ t.callStack = s.callStack ∧ t.pcBits = stop := by
  induction h with
  | stop hstop => exact ⟨rfl, rfl, hstop⟩
  | step hstep hcode hcalls hforward hle rest ih =>
    obtain ⟨ihcode, ihcalls, ihstop⟩ := ih
    exact ⟨ihcode.trans hcode, ihcalls.trans hcalls, ihstop⟩

/-- after any number of passes the machine is at the same instruction -/
theorem Turns.keeps (h : Turns c start n s t) :
    t.currentCode = s.currentCode ∧ t.callStack = s.callStack ∧ t.pcBits = s.pcBits := by
  induction h with
  | none => exact ⟨rfl, rfl, rfl⟩
  | turn hstep hcode hcalls hentry hblock rest ih =>
    obtain ⟨hblockCode, hblockCalls, hback⟩ := hblock.keeps
    obtain ⟨ihcode, ihcalls, ihpc⟩ := ih
    exact ⟨ihcode.trans (hblockCode.trans hcode), ihcalls.trans (hblockCalls.trans hcalls),
      ihpc.trans hback⟩

theorem RepeatAt.of_keeps (hat : RepeatAt s count offset start)
    (hcode : t.currentCode = s.currentCode) (hpc : t.pcBits = s.pcBits) :
    RepeatAt t count offset start where
  opcode_eq := by
    unfold opcodeAt
    rw [hcode, hpc]
    exact hat.opcode_eq
  count_eq := by
    rw [hcode, hpc]
    exact hat.count_eq
  offset_eq := by
    rw [hcode, hpc]
    exact hat.offset_eq
  negative := hat.negative
  start_eq := by
    rw [hpc]
    exact hat.start_eq
  start_le := by
    rw [hpc]
    exact hat.start_le

/-! ## one step -/

/-- **The count says only whether to enter the block.** -/
theorem step_repeat (hat : RepeatAt s count offset start) (hgas : HasGas s 4) :
    step c s = .ok true { pay s 4 with
      pcBits := if count = 0 then s.pcBits + 24 else start } := by
  have hstart := hat.start_le
  have hbody : repeatInstr (behindOpcode s)
      = Prog.onlyIf (count > 0) (jumpBy offset) { pay s 4 with pcBits := s.pcBits + 8 + 8 + 8 } := by
    unfold repeatInstr
    rw [gas_bind (s := behindOpcode s) hgas,
      byte_bind (s := pay (behindOpcode s) 4) hat.count_eq]
    exact byte_bind (s := { pay s 4 with pcBits := s.pcBits + 8 + 8 }) hat.offset_eq
  have htarget : jumpTarget { pay s 4 with pcBits := s.pcBits + 8 + 8 + 8 }
      (s.pcBits + 8 + 8 + 8) offset = some start := by
    have hsum := hat.start_eq
    obtain ⟨hend, hlt⟩ := pcBits_le_of_byteAt hat.offset_eq
    refine jumpTarget_eq_some_iff.mpr ⟨by push_cast; omega, by omega, ?_⟩
    show start ≤ s.totalBits
    omega
  refine step_goesOn_ok hat.opcode_eq rfl (hbody.trans ?_)
  unfold Prog.onlyIf
  by_cases hzero : count = 0
  · subst hzero
    rfl
  · have hcount : count > 0 := (BitVec.pos_iff_ne_zero count).mpr hzero
    rw [if_pos hcount, if_neg hzero, jumpBy_apply, htarget]

/-! ## runs -/

/-- **Every arrival at the instruction enters the block**, whatever came before. -/
theorem turns_enters (hat : RepeatAt s count offset start) (hcount : count ≠ 0)
    (hturns : Turns c start n s u) (hgas : HasGas u 4) :
    step c u = .ok true { pay u 4 with pcBits := start } := by
  obtain ⟨hcode, _, hpc⟩ := hturns.keeps
  have hstep := step_repeat (c := c) (hat.of_keeps hcode hpc) hgas
  rw [if_neg hcount] at hstep
  exact hstep

/-- what is entered before is not left behind -/
theorem not_repeats (hat : RepeatAt s count offset start) (hcount : count ≠ 0) :
    ¬ Repeats c start n s := by
  rintro ⟨u, t, hturns, hstep, _, hbehind⟩
  obtain ⟨hcode, _, hpc⟩ := hturns.keeps
  have hgas : HasGas u 4 := hasGas_of_step (hat.of_keeps hcode hpc).opcode_eq rfl hstep
  rw [turns_enters hat hcount hturns hgas] at hstep
  have hstart := hat.start_le
  injection hstep with _ hstate
  have hentry : start = t.pcBits := congrArg Interpreter.pcBits hstate
  omega

end

/-- **When a block is repeated as often as the count says.** -/
theorem repeats_iff (c : Crypto) {s : Interpreter} {count offset : Byte} {start : Nat}
    (hat : RepeatAt s count offset start) (hpasses : Affords c start count.toNat s) :
    Repeats c start count.toNat s ↔ count = 0 := by
  constructor
  · intro h
    by_contra hcount
    exact not_repeats hat hcount h
  · rintro rfl
    obtain ⟨u, hturns, hgas⟩ := hpasses
    cases hturns with
    | none =>
      have hstep := step_repeat (c := c) hat hgas
      exact ⟨s, _, .none, hstep, rfl, rfl⟩

/-- an instruction that does nothing, and its repetition -/
def repeatCode (count : Byte) : Cell :=
  ⟨[0x00, 0x7A, count, 0xFC], [], false, Nat.le_of_ble_eq_true rfl, Nat.zero_le _⟩

/-- behind the first pass -/
def repeatState (count : Byte) (gas : Uint64) : Interpreter :=
  { Interpreter.new (repeatCode count) emptyCell sampleMessage sampleContext with
    pcBits := 8
    gasUsed := gas }

theorem repeat_at (count : Byte) (gas : Uint64) : RepeatAt (repeatState count gas) count 0xFC 0 where
  opcode_eq := show (byteAt (repeatCode count) 8).bind Opcode.ofByte = _ from rfl
  count_eq := show byteAt (repeatCode count) 16 = _ from rfl
  offset_eq := show byteAt (repeatCode count) 24 = _ from rfl
  negative := by decide
  start_eq := rfl
  start_le := Nat.zero_le _

theorem repeats_sample : Repeats sampleCrypto 0 0 (repeatState 0 0) :=
  (repeats_iff sampleCrypto (repeat_at 0 0) ⟨_, .none, Nat.le_of_ble_eq_true rfl⟩).mpr rfl

/-- with a count of 2 the block is entered a third time -/
theorem repeats_on :
    Turns sampleCrypto 0 2 (repeatState 2 0) (repeatState 2 10)
    ∧ step sampleCrypto (repeatState 2 10) = .ok true { repeatState 2 14 with pcBits := 0 }
    ∧ ¬ ∀ c s count offset start, RepeatAt s count offset start →
      Affords c start count.toNat s → Repeats c start count.toNat s := by
  have hturns : Turns sampleCrypto 0 2 (repeatState 2 0) (repeatState 2 10) :=
    .turn (t := { repeatState 2 4 with pcBits := 0 }) (u := repeatState 2 5) rfl rfl rfl rfl
      (.step rfl rfl rfl (by decide) (by decide) (.stop rfl))
      (.turn (t := { repeatState 2 9 with pcBits := 0 }) (u := repeatState 2 10) rfl rfl rfl rfl
        (.step rfl rfl rfl (by decide) (by decide) (.stop rfl)) .none)
  refine ⟨hturns, rfl, fun h => ?_⟩
  exact not_repeats (repeat_at 2 0) (by decide) (h sampleCrypto _ 2 _ _ (repeat_at 2 0)
    ⟨_, hturns, Nat.le_of_ble_eq_true rfl⟩)

end Onx.Vm
