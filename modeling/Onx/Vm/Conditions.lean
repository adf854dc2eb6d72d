import Onx.Vm.Handler
import Onx.Vm.Supplied

/-!
# Conditions

Seven instructions pop a condition and look at its low half; `ISZERO` compares the whole word.

* `Conditional`, `branch`   the instructions, with what they do for a condition that is not zero and
                            for one that is;
* `step_conditional`        a step takes the branch of the low half;
* `step_isZero`             what `ISZERO` pushes;
* `Indifferent`             the branches are the same;
* `agrees_isZero_iff`       **when a conditional instruction and `ISZERO` agree**;
* `ifRet_disagrees`         a multiple of `2^128`.
-/

namespace Onx.Vm
open Machine

inductive Conditional where
  | ifJmpRef | ifNotJmpRef | ifCallRef | ifNotCallRef | ifElse | ifRet | untilInstr
deriving DecidableEq

namespace Conditional

def opcode : Conditional → Opcode
  | .ifJmpRef => .ifJmpRef
  | .ifNotJmpRef => .ifNotJmpRef
  | .ifCallRef => .ifCallRef
  | .ifNotCallRef => .ifNotCallRef
  | .ifElse => .ifElse
  | .ifRet => .ifRet
  | .untilInstr => .untilInstr

/-- how many bytes stand behind the opcode -/
def operandBytes : Conditional → Nat
  | .ifElse => 2
  | .ifRet => 0
  | _ => 1

/-- the branch for a condition, with the bytes behind the opcode; no branch is a branch that goes
on -/
def branch (op : Conditional) (first second : Byte) (nonzero : Bool) : Instr Bool :=
  match op with
  | .ifJmpRef => if nonzero then goesOn (transferTo first.toNat false) else pure true
  | .ifNotJmpRef => if nonzero then pure true else goesOn (transferTo first.toNat false)
  | .ifCallRef => if nonzero then goesOn (transferTo first.toNat true) else pure true
  | .ifNotCallRef => if nonzero then pure true else goesOn (transferTo first.toNat true)
  | .ifElse => goesOn (jumpBy (if nonzero then first else second))
  | .ifRet => if nonzero then returnToCaller else pure true
  | .untilInstr => if nonzero then pure true else goesOn (jumpBy first)

end Conditional

/-- a conditional instruction with its gas, its bytes and a condition -/
structure ConditionalAt (s : Interpreter) (op : Conditional) (first second : Byte) (x : Uint256)
    (rest : List StackValue) : Prop where
  opcode_eq : opcodeAt s = some op.opcode
  hasGas : HasGas s 4
  first_eq : 1 ≤ op.operandBytes → byteAt s.currentCode (s.pcBits + 8) = some first
  second_eq : 2 ≤ op.operandBytes → byteAt s.currentCode (s.pcBits + 16) = some second
  stack_eq : s.stack = .integer x :: rest

/-- `ISZERO` with its gas and an operand -/
structure IsZeroAt (s : Interpreter) (x : Uint256) (rest : List StackValue) : Prop where
  opcode_eq : opcodeAt s = some .isZero
  hasGas : HasGas s 4
  stack_eq : s.stack = .integer x :: rest
  stack_le : s.stack.length ≤ MAX_STACK_DEPTH

/-! ## what they do -/

section
variable {c : Crypto} {s : Interpreter} {op : Conditional} {first second : Byte} {x : Uint256}
  {rest : List StackValue}

/-- the state in which a branch is taken -/
def decided (s : Interpreter) (op : Conditional) (rest : List StackValue) : Interpreter :=
  behind s 4 (1 + op.operandBytes) rest

theorem goesOn_apply (m : Instr Unit) (u : Interpreter) : goesOn m u = goneOn (m u) := by
  unfold goesOn
  rw [bind_apply]
  cases m u <;> rfl

theorem goneOn_onlyIf (p : Prop) [Decidable p] (m : Instr Unit) (u : Interpreter) :
    goneOn (Prog.onlyIf p m u) = (if p then goesOn m else pure true) u := by
  unfold Prog.onlyIf
  split_ifs
  · exact (goesOn_apply m u).symm
  · rfl

/-- a branch for zero is no branch for the others -/
theorem if_zero {α : Type} (x : Int) (m n : α) :
    (if decide (x = 0) = true then m else n) = if decide (x ≠ 0) = true then n else m := by
  by_cases h : x = 0 <;> simp [h]

/-- a popped condition -/
theorem taken_bind {α : Type} {u : Interpreter} (taken : Int → Bool) (f : Bool → Instr α)
    (hu : u.stack = .integer x :: rest) :
    ((popI128 >>= fun y => pure (taken y)) >>= f) u
      = f (taken (toI128 x)) { u with stack := rest } := by
  rw [condition_bind]
  exact operand_bind .integer hu rfl

theorem step_transfer {opcode : Opcode} (taken : Int → Bool) {call : Bool}
    (hop : opcodeAt s = some opcode)
    (hexec : exec c opcode = goesOn (transfer (popI128 >>= fun y => pure (taken y)) call))
    (hgas : HasGas s 4) (hfirst : byteAt s.currentCode (s.pcBits + 8) = some first)
    (hstack : s.stack = .integer x :: rest) :
    step c s = (if taken (toI128 x) then goesOn (transferTo first.toNat call) else pure true)
      (behind s 4 2 rest) := by
  have hbody : transfer (popI128 >>= fun y => pure (taken y)) call (behindOpcode s)
      = Prog.onlyIf (taken (toI128 x) = true) (transferTo first.toNat call) (behind s 4 2 rest) := by
    unfold transfer
    rw [gas_bind (s := behindOpcode s) hgas, byte_bind (s := pay (behindOpcode s) 4) hfirst]
    exact taken_bind (u := { pay s 4 with pcBits := s.pcBits + 8 + 8 }) taken _ hstack
  rw [step_goesOn hop hexec, hbody, goneOn_onlyIf]

/-- **A step takes the branch of the low half.** -/
theorem step_conditional (hat : ConditionalAt s op first second x rest) :
    step c s = op.branch first second (decide (toI128 x ≠ 0)) (decided s op rest) := by
  have hop := hat.opcode_eq
  have hstack := hat.stack_eq
  cases op with
  | ifJmpRef =>
    exact step_transfer (fun y => decide (y ≠ 0)) hop rfl hat.hasGas
      (hat.first_eq (le_refl 1)) hstack
  | ifNotJmpRef =>
    rw [step_transfer (fun y => decide (y = 0)) hop rfl hat.hasGas
      (hat.first_eq (le_refl 1)) hstack, if_zero]
    rfl
  | ifCallRef =>
    exact step_transfer (fun y => decide (y ≠ 0)) hop rfl hat.hasGas
      (hat.first_eq (le_refl 1)) hstack
  | ifNotCallRef =>
    rw [step_transfer (fun y => decide (y = 0)) hop rfl hat.hasGas
      (hat.first_eq (le_refl 1)) hstack, if_zero]
    rfl
  | ifElse =>
    have hbody : ifElse (behindOpcode s)
        = jumpBy (if decide (toI128 x ≠ 0) then first else second) (behind s 4 3 rest) := by
      unfold ifElse
      rw [gas_bind (s := behindOpcode s) hat.hasGas,
        byte_bind (s := pay (behindOpcode s) 4) (hat.first_eq (by decide))]
      refine (byte_bind (s := { pay s 4 with pcBits := s.pcBits + 8 + 8 })
        (hat.second_eq (le_refl 2))).trans ?_
      exact taken_bind (u := { pay s 4 with pcBits := s.pcBits + 8 + 8 + 8 })
        (fun y => decide (y ≠ 0)) _ hstack
    rw [step_goesOn hop rfl, hbody, ← goesOn_apply]
    rfl
  | ifRet =>
    have hbody : ifRet (behindOpcode s)
        = (if decide (toI128 x ≠ 0) then returnToCaller else pure true) (behind s 4 1 rest) := by
      unfold ifRet
      rw [gas_bind (s := behindOpcode s) hat.hasGas]
      exact taken_bind (u := pay (behindOpcode s) 4) (fun y => decide (y ≠ 0)) _ hstack
    rw [step_of_opcode hop]
    exact hbody
  | untilInstr =>
    have hbody : untilInstr (behindOpcode s)
        = Prog.onlyIf (decide (toI128 x = 0) = true) (jumpBy first) (behind s 4 2 rest) := by
      unfold untilInstr
      rw [gas_bind (s := behindOpcode s) hat.hasGas,
        byte_bind (s := pay (behindOpcode s) 4) (hat.first_eq (le_refl 1))]
      exact taken_bind (u := { pay s 4 with pcBits := s.pcBits + 8 + 8 })
        (fun y => decide (y = 0)) _ hstack
    rw [step_goesOn hop rfl, hbody, goneOn_onlyIf, if_zero]
    rfl

/-- `ISZERO` looks at the whole word -/
theorem step_isZero (hat : IsZeroAt s x rest) :
    step c s = .ok true (behind s 4 1 (.integer (if x = 0 then 1 else 0) :: rest)) := by
  have hroom : rest.length < MAX_STACK_DEPTH := by
    have hlen := hat.stack_le
    rw [hat.stack_eq, List.length_cons] at hlen
    exact hlen
  have hpushed : fromI128 (if x = 0 then 1 else 0) = if x = 0 then (1 : Uint256) else 0 := by
    split_ifs <;> rfl
  refine step_goesOn_ok hat.opcode_eq rfl ?_
  unfold isZero
  rw [gas_bind (s := behindOpcode s) hat.hasGas]
  refine (operand_bind .integer (s := pay (behindOpcode s) 4) hat.stack_eq rfl).trans ?_
  unfold pushI128
  rw [push_ok hroom, hpushed]
  rfl

end

/-! ## agreement -/

/-- the branches are the same: offsets that name one address, or none, and a jump to where the
machine is -/
def Conditional.Indifferent (op : Conditional) (first second : Byte) (u : Interpreter) : Prop :=
  match op with
  | .ifElse => jumpTarget u u.pcBits first = jumpTarget u u.pcBits second
  | .untilInstr => first = 0
  | _ => False

section
variable {c : Crypto} {s z u : Interpreter} {op : Conditional} {first second : Byte} {x : Uint256}
  {rest below : List StackValue}

theorem jumpBy_eq_iff :
    goesOn (jumpBy first) u = goesOn (jumpBy second) u
      ↔ jumpTarget u u.pcBits first = jumpTarget u u.pcBits second := by
  rw [goesOn_apply, goesOn_apply, jumpBy_apply, jumpBy_apply]
  cases jumpTarget u u.pcBits first with
  | none =>
    cases jumpTarget u u.pcBits second with
    | none => exact iff_of_true rfl rfl
    | some b => exact iff_of_false nofun nofun
  | some a =>
    cases jumpTarget u u.pcBits second with
    | none => exact iff_of_false nofun nofun
    | some b =>
      refine ⟨fun h => ?_, fun h => ?_⟩
      · injection h with _ hstate
        exact congrArg some (congrArg Interpreter.pcBits hstate)
      · cases h
        rfl

theorem transferTo_ne {n : Nat} {call : Bool} (hpc : 0 < u.pcBits) :
    goesOn (transferTo n call) u ≠ .ok true u := by
  rw [goesOn_apply, transferTo_apply]
  cases u.codeRefs[n]? with
  | none => exact nofun
  | some target =>
    intro h
    injection h with _ hstate
    have hzero : 0 = u.pcBits := congrArg Interpreter.pcBits hstate
    omega

/-- the caller that is returned to is dropped from the call stack, and from `c0` -/
theorem returnToCaller_ne : returnToCaller u ≠ .ok true u := by
  rw [returnToCaller_apply]
  cases hc0 : u.controlRegisters.c0 with
  | none => exact nofun
  | some k =>
    intro h
    injection h with _ hstate
    have hcalls : u.callStack.tail = u.callStack := congrArg Interpreter.callStack hstate
    have hreturn : (u.callStack.tail.head?.map fun p => (⟨p.1, p.2⟩ : Continuation)) = some k := by
      rw [← hc0]
      exact congrArg (fun v : Interpreter => v.controlRegisters.c0) hstate
    cases hstack : u.callStack with
    | nil =>
      rw [hstack] at hreturn
      cases hreturn
    | cons frame frames =>
      rw [hstack] at hcalls
      exact absurd hcalls (List.cons_ne_self frame frames).symm

/-- the offset of a jump to where the machine is -/
theorem jumpTarget_self_iff (hend : u.pcBits ≤ u.totalBits) (hlt : u.pcBits < 2^64) :
    jumpTarget u u.pcBits first = some u.pcBits ↔ first = 0 := by
  have hzero : (0 : Byte).toInt = 0 := rfl
  rw [jumpTarget_eq_some_iff]
  refine ⟨fun h => BitVec.eq_of_toInt_eq ?_, fun h => ?_⟩
  · rw [hzero]
    omega
  · subst h
    rw [hzero]
    exact ⟨by omega, hlt, hend⟩

/-- the branches of an instruction, compared -/
theorem branch_eq_iff (op : Conditional) (first second : Byte) (hpc : 0 < u.pcBits)
    (hend : u.pcBits ≤ u.totalBits) (hlt : u.pcBits < 2^64) :
    op.branch first second true u = op.branch first second false u
      ↔ op.Indifferent first second u := by
  cases op with
  | ifJmpRef => exact iff_of_false (transferTo_ne hpc) id
  | ifNotJmpRef => exact iff_of_false (transferTo_ne hpc).symm id
  | ifCallRef => exact iff_of_false (transferTo_ne hpc) id
  | ifNotCallRef => exact iff_of_false (transferTo_ne hpc).symm id
  | ifElse => exact jumpBy_eq_iff
  | ifRet => exact iff_of_false returnToCaller_ne id
  | untilInstr =>
    have hself := (jumpTarget_self_iff hend hlt).mpr (Eq.refl (0 : Byte))
    have hstay : (.ok true u : Res Interpreter ExceptionKind Bool) = goesOn (jumpBy 0) u := by
      rw [goesOn_apply, jumpBy_apply, hself]
      rfl
    show Res.ok true u = goesOn (jumpBy first) u ↔ first = 0
    rw [hstay, jumpBy_eq_iff, hself, eq_comm]
    exact jumpTarget_self_iff hend hlt

/-- the bytes behind the opcode are in the code -/
theorem decided_le (hat : ConditionalAt s op first second x rest) :
    (decided s op rest).pcBits ≤ (decided s op rest).totalBits
      ∧ (decided s op rest).pcBits < 2^64 := by
  obtain ⟨b, hb, _⟩ := Option.bind_eq_some_iff.mp hat.opcode_eq
  have hopcode := pcBits_le_of_byteAt hb
  have hfirst := fun h => pcBits_le_of_byteAt (hat.first_eq h)
  have hsecond := fun h => pcBits_le_of_byteAt (hat.second_eq h)
  have hbytes : op.operandBytes ≤ 2 := by cases op <;> decide
  show s.pcBits + 8 * (1 + op.operandBytes) ≤ s.totalBits ∧ s.pcBits + 8 * (1 + op.operandBytes) < 2^64
  rcases (by omega : op.operandBytes = 0 ∨ op.operandBytes = 1 ∨ op.operandBytes = 2) with h | h | h
  · omega
  · have h1 := hfirst (by omega)
    omega
  · have h2 := hsecond (by omega)
    omega

theorem toI128_eq_zero_iff : toI128 x = 0 ↔ x.setWidth 128 = 0 := by
  unfold toI128
  exact ⟨fun h => BitVec.eq_of_toInt_eq h, fun h => by rw [h]; rfl⟩

/-- the low half of an integer and the integer choose one branch, or the branches are the same -/
theorem chosen_eq_iff (hat : ConditionalAt s op first second x rest) :
    op.branch first second (decide (toI128 x ≠ 0)) (decided s op rest)
        = op.branch first second (decide (x ≠ 0)) (decided s op rest)
      ↔ x = 0 ∨ x.setWidth 128 ≠ 0 ∨ op.Indifferent first second (decided s op rest) := by
  obtain ⟨hend, hlt⟩ := decided_le hat
  have hpc : 0 < (decided s op rest).pcBits := by
    show 0 < s.pcBits + 8 * (1 + op.operandBytes)
    omega
  have hbranch := branch_eq_iff op first second hpc hend hlt
  by_cases hx : x = 0
  · subst hx
    exact iff_of_true rfl (Or.inl rfl)
  · by_cases hlow : toI128 x = 0
    · rw [decide_eq_false (not_not.mpr hlow), decide_eq_true hx, eq_comm, hbranch]
      have hnot := not_not.mpr (toI128_eq_zero_iff.mp hlow)
      exact ⟨fun h => Or.inr (Or.inr h), fun h => (h.resolve_left hx).resolve_left hnot⟩
    · rw [decide_eq_true hlow, decide_eq_true hx]
      exact iff_of_true rfl (Or.inr (Or.inl (mt toI128_eq_zero_iff.mpr hlow)))

end

/-- **When a conditional instruction and `ISZERO` agree**: the step takes the branch for a condition
that is not zero if and only if `ISZERO`, wherever it finds the same integer, pushes 0. -/
theorem agrees_isZero_iff (c : Crypto) {s z : Interpreter} {op : Conditional} {first second : Byte}
    {x : Uint256} {rest below : List StackValue} (hs : ConditionalAt s op first second x rest)
    (hz : IsZeroAt z x below) :
    (∃ v, step c z = .ok true (behind z 4 1 (.integer v :: below))
        ∧ step c s = op.branch first second (decide (v = 0)) (decided s op rest))
      ↔ x = 0 ∨ x.setWidth 128 ≠ 0 ∨ op.Indifferent first second (decided s op rest) := by
  have hpushed : decide ((if x = 0 then (1 : Uint256) else 0) = 0) = decide (x ≠ 0) := by
    by_cases hx : x = 0 <;> simp [hx]
  rw [step_isZero hz, step_conditional hs, ← chosen_eq_iff hs, ← hpushed]
  constructor
  · rintro ⟨v, hv, hstep⟩
    injection hv with _ hstate
    have hstack : StackValue.integer (if x = 0 then 1 else 0) :: below = .integer v :: below :=
      congrArg Interpreter.stack hstate
    injection hstack with hvalue
    injection hvalue with hvalue
    rw [hvalue]
    exact hstep
  · exact fun h => ⟨_, rfl, h⟩

/-- one instruction of one byte, with an integer -/
def conditionState (opcode : Byte) (x : Uint256) : Interpreter :=
  { Interpreter.new (byteCell opcode) emptyCell sampleMessage sampleContext with
    stack := [.integer x] }

theorem ifRet_at (x : Uint256) : ConditionalAt (conditionState 0x79 x) .ifRet 0 0 x [] where
  opcode_eq := show (byteAt (conditionState 0x79 0).currentCode 0).bind Opcode.ofByte
    = some .ifRet by decide
  hasGas := Nat.le_of_ble_eq_true rfl
  first_eq := nofun
  second_eq := nofun
  stack_eq := rfl

theorem isZero_at (x : Uint256) : IsZeroAt (conditionState 0x16 x) x [] where
  opcode_eq := show (byteAt (conditionState 0x16 0).currentCode 0).bind Opcode.ofByte
    = some .isZero by decide
  hasGas := Nat.le_of_ble_eq_true rfl
  stack_eq := rfl
  stack_le := Nat.le_of_ble_eq_true rfl

theorem agrees_isZero_sample :
    ∃ v, step sampleCrypto (conditionState 0x16 7)
        = .ok true (behind (conditionState 0x16 7) 4 1 [.integer v])
      ∧ step sampleCrypto (conditionState 0x79 7)
        = Conditional.ifRet.branch 0 0 (decide (v = 0)) (decided (conditionState 0x79 7) .ifRet []) :=
  (agrees_isZero_iff sampleCrypto (ifRet_at 7) (isZero_at 7)).mpr (Or.inr (Or.inl (by decide)))

/-- `2^128` is not zero for `ISZERO`, and `IFRET` does not return on it -/
theorem ifRet_disagrees :
    step sampleCrypto (conditionState 0x16 (1 <<< 128))
      = .ok true (behind (conditionState 0x16 (1 <<< 128)) 4 1 [.integer 0])
    ∧ step sampleCrypto (conditionState 0x79 (1 <<< 128))
      = .ok true (behind (conditionState 0x79 (1 <<< 128)) 4 1 [])
    ∧ ¬ ∀ c s z op first second x rest below, ConditionalAt s op first second x rest →
      IsZeroAt z x below → ∃ v, step c z = .ok true (behind z 4 1 (.integer v :: below))
        ∧ step c s = op.branch first second (decide (v = 0)) (decided s op rest) := by
  have hzero : step sampleCrypto (conditionState 0x16 (1 <<< 128))
      = .ok true (behind (conditionState 0x16 (1 <<< 128)) 4 1 [.integer 0]) := rfl
  have hstays : step sampleCrypto (conditionState 0x79 (1 <<< 128))
      = .ok true (behind (conditionState 0x79 (1 <<< 128)) 4 1 []) := rfl
  refine ⟨hzero, hstays, fun h => ?_⟩
  obtain ⟨v, hv, hstep⟩ := h sampleCrypto _ _ _ _ _ _ _ _ (ifRet_at (1 <<< 128))
    (isZero_at (1 <<< 128))
  rw [hzero] at hv
  injection hv with _ hstate
  have hstack : [StackValue.integer 0] = [.integer v] := congrArg Interpreter.stack hstate
  cases hstack
  cases hstep

end Onx.Vm
