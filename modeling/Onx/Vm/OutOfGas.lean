import Onx.Vm.Handler
import Onx.Vm.Operations

/-!
# What comes after the gas

An exception handler is entered after `OutOfGas` as after every exception.  Whatever it does, there
is no gas: instructions fail, cells of code end, and the run ends with the exception it began with
only if the numbers of the exceptions fill the stack.

* `Outcome`               what becomes of an instruction without gas;
* `Broke`                 the states behind the exception;
* `fillsUp`               the way back through the callers fills the stack;
* `outOfGasEnds`          the states in which `OutOfGas` ends the run as `OutOfGas`;
* `broke_short`, `broke_ended`   a handler that comes to its gas, and one without code;
* `outOfGas_fatal_iff`    **when `OutOfGas` is never success**;
* `handler_succeeds`      a run that succeeds after it.
-/

namespace Onx.Vm
open Machine

inductive Outcome where
  /-- the cell of code ends -/
  | ended
  /-- the instruction comes to its gas -/
  | short
  /-- it fails before -/
  | fails
  /-- it takes the number of the exception for its operand -/
  | pops
deriving DecidableEq

instance (op : Opcode) : Decidable op.PopsFirst := inferInstanceAs (Decidable (_ ∨ _ ∨ _))

/-- `PUSHBYTES` without the two bytes of its length -/
def Opcode.LacksLength (op : Opcode) (code : Cell) (pcBits : Nat) : Prop :=
  op = .pushBytes ∧ ¬ ((byteAt code pcBits).isSome ∧ (byteAt code (pcBits + 8)).isSome)

instance (op : Opcode) (code : Cell) (pcBits : Nat) : Decidable (op.LacksLength code pcBits) :=
  inferInstanceAs (Decidable (_ ∧ _))

def outcomeAt (code : Cell) (pcBits : Nat) : Outcome :=
  if pcBits ≥ code.dataBytes.length * 8 then .ended
  else match (byteAt code pcBits).bind Opcode.ofByte with
  | none => .fails
  | some op =>
    if op.PopsFirst then .pops
    else if op.LacksLength code (pcBits + 8) then .fails
    else .short

/-- the stack is filled on the way back through the callers, by a caller that is short of gas -/
def fillsUp : Nat → List (Cell × Nat) → Bool
  | _, [] => false
  | room, (code, pcBits) :: rest =>
    match outcomeAt code pcBits with
    | .ended => fillsUp room rest
    | .short => room == 0 || fillsUp (room - 1) rest
    | .fails => room != 0 && fillsUp (room - 1) rest
    | .pops => fillsUp room rest

/-- the depth of the stack where the next instruction pays -/
def depthAtGas (s : Interpreter) : Nat :=
  match opcodeAt s with
  | some .concat => s.stack.length - 2
  | some .byteEq => s.stack.length - 2
  | some .stBytes => s.stack.length - 1
  | _ => s.stack.length

/-- there is no handler or no room for the number of the exception, or handler and callers run out
of room in turn -/
def outOfGasEnds (s : Interpreter) : Bool :=
  match s.controlRegisters.c2 with
  | none => true
  | some handler =>
    let room := MAX_STACK_DEPTH - depthAtGas s
    room == 0 || match outcomeAt handler.code handler.pcBits with
      | .ended => fillsUp (room - 1) s.callStack
      | .short => true
      | .fails => false
      | .pops => false

/-! ## the next instruction -/

theorem charge_of_opcode {s : Interpreter} {op : Opcode} (h : opcodeAt s = some op) :
    charge s = op.cost (behindOpcode s) := by
  obtain ⟨b, hb, hop⟩ := Option.bind_eq_some_iff.mp h
  unfold charge
  rw [bind_apply, readUint8_apply, hb]
  dsimp only
  rw [hop, ofOption_some_bind]
  rfl

theorem charge_of_no_opcode {s : Interpreter} (h : opcodeAt s = none) :
    ∃ pcBits, charge s = .err .malformedCell { s with pcBits := pcBits } := by
  unfold charge
  rw [bind_apply, readUint8_apply]
  unfold opcodeAt at h
  cases hb : byteAt s.currentCode s.pcBits with
  | none => exact ⟨s.pcBits, rfl⟩
  | some b =>
    rw [hb] at h
    replace h : Opcode.ofByte b = none := h
    dsimp only
    rw [h]
    exact ⟨s.pcBits + 8, rfl⟩

/-- the two immediates of `PUSHBYTES`, and the gas of the others -/
theorem cost_eq {op : Opcode} (h : ¬ op.PopsFirst) (s : Interpreter) :
    (∃ n pcBits, op.cost s = .ok n { s with pcBits := pcBits })
      ∧ ¬ op.LacksLength s.currentCode s.pcBits
    ∨ (∃ pcBits, op.cost s = .err .malformedCell { s with pcBits := pcBits })
      ∧ op.LacksLength s.currentCode s.pcBits := by
  unfold Opcode.LacksLength
  cases op with
  | concat => exact absurd (Or.inl rfl) h
  | byteEq => exact absurd (Or.inr (Or.inl rfl)) h
  | stBytes => exact absurd (Or.inr (Or.inr rfl)) h
  | pushBytes =>
    unfold Opcode.cost
    dsimp only
    rw [readUint16_bind, bind_apply, readUint8_apply]
    cases hhigh : byteAt s.currentCode s.pcBits with
    | none => exact Or.inr ⟨⟨_, rfl⟩, rfl, by simp⟩
    | some high =>
      dsimp only
      rw [bind_apply, readUint8_apply]
      dsimp only
      cases hlow : byteAt s.currentCode (s.pcBits + 8) with
      | none => exact Or.inr ⟨⟨_, rfl⟩, rfl, by simp⟩
      | some low => exact Or.inl ⟨⟨_, _, rfl⟩, by simp⟩
  | _ => exact Or.inl ⟨⟨_, s.pcBits, rfl⟩, fun h' => Opcode.noConfusion h'.1⟩

theorem popBytes_ok {s u : Interpreter} {b : Bytes} (h : popBytes s = .ok b u) :
    s.stack = .bytes b :: u.stack := by
  unfold popBytes at h
  rw [bind_apply, pop_apply] at h
  cases hstack : s.stack with
  | nil =>
    rw [hstack] at h
    cases h
  | cons v rest =>
    rw [hstack] at h
    cases v <;> cases h
    rfl

/-- two operands off the stack -/
theorem popBytes_twice {s u : Interpreter} {n : Nat} {f : Bytes → Bytes → Nat}
    (h : (do let b ← popBytes; let a ← popBytes; pure (f a b) : Instr Nat) s = .ok n u) :
    ∃ a b, s.stack = .bytes b :: .bytes a :: u.stack ∧ n = f a b := by
  obtain ⟨b, t, hb, h⟩ := bind_eq_ok.mp h
  obtain ⟨a, v, ha, h⟩ := bind_eq_ok.mp h
  cases h
  refine ⟨a, b, ?_, rfl⟩
  rw [popBytes_ok hb, popBytes_ok ha]

theorem length_charge {s u : Interpreter} {n : Nat} (h : charge s = .ok n u) :
    u.stack.length = depthAtGas s := by
  cases hop : opcodeAt s with
  | none =>
    obtain ⟨pcBits, herr⟩ := charge_of_no_opcode hop
    rw [herr] at h
    cases h
  | some op =>
    unfold depthAtGas
    rw [hop]
    by_cases hpops : op.PopsFirst
    · rw [charge_of_opcode hop] at h
      unfold Opcode.cost at h
      rcases hpops with rfl | rfl | rfl
      · obtain ⟨_, _, hstack, _⟩ := popBytes_twice (s:=behindOpcode s) h
        rw [show s.stack = _ from hstack]
        rfl
      · obtain ⟨_, _, hstack, _⟩ := popBytes_twice (s:=behindOpcode s) h
        rw [show s.stack = _ from hstack]
        rfl
      · obtain ⟨b, t, hb, h⟩ := bind_eq_ok.mp h
        cases h
        rw [show s.stack = _ from popBytes_ok (s:=behindOpcode s) hb]
        rfl
    · have hfirst : ¬ ∃ op, opcodeAt s = some op ∧ op.PopsFirst := by
        rintro ⟨op', hop', hpops'⟩
        rw [hop] at hop'
        cases hop'
        exact hpops hpops'
      have hsame := charge_stack hfirst
      rw [h] at hsame
      dsimp only at hsame
      rw [hsame]
      cases op with
      | concat => exact absurd (Or.inl rfl) hpops
      | byteEq => exact absurd (Or.inr (Or.inl rfl)) hpops
      | stBytes => exact absurd (Or.inr (Or.inr rfl)) hpops
      | _ => rfl

/-! ## without gas -/

/-- gas is spent, and the number of an exception is on the stack -/
structure Broke (handler : Continuation) (limit : Uint64) (s : Interpreter) : Prop where
  handled : Handled handler limit s
  gasUsed_eq : s.gasUsed = limit
  limit_ne : limit ≠ BitVec.allOnes 64
  number : ∃ number rest, s.stack = .integer number :: rest
  stack_le : s.stack.length ≤ MAX_STACK_DEPTH

section
variable {c : Crypto} {handler : Continuation} {limit : Uint64} {s : Interpreter}

/-- the run ends as out of gas -/
def EndsShort (c : Crypto) (limit : Uint64) (s : Interpreter) : Prop :=
  ∃ n, run c n s = .done (.exception .outOfGas limit)

theorem endsShort_of_next {t : Interpreter} (h : turn c s = .next t) :
    EndsShort c limit s ↔ EndsShort c limit t := returns_of_next h

theorem endsShort_of_done {r : ExecutionResult} (h : turn c s = .done r) :
    EndsShort c limit s ↔ r = .exception .outOfGas limit := returns_of_done h

theorem Broke.gasAfter_gt (hs : Broke handler limit s) {n : Nat} (hn : 0 < n) :
    gasAfter s n > s.gasLimit.toNat := by
  have hmax := toNat_lt_of_ne_allOnes hs.limit_ne
  unfold gasAfter
  rw [hs.gasUsed_eq, hs.handled.gasLimit_eq]
  omega

theorem Broke.at {code : Cell} {pcBits : Nat} {callStack : List (Cell × Nat)}
    (hs : Broke handler limit s) : Broke handler limit
      { s with currentCode := code, pcBits := pcBits, callStack := callStack } :=
  ⟨⟨hs.handled.c2_eq, hs.handled.gasLimit_eq⟩, hs.gasUsed_eq, hs.limit_ne, hs.number, hs.stack_le⟩

theorem Broke.enter (hs : Broke handler limit s) (hroom : s.stack.length < MAX_STACK_DEPTH)
    (kind : ExceptionKind) : Broke handler limit (Vm.enter handler kind s) :=
  ⟨hs.handled.enter kind, hs.gasUsed_eq, hs.limit_ne, ⟨_, _, rfl⟩, hroom⟩

/-- an exception that leaves the stack as it is -/
theorem Broke.raises (hs : Broke handler limit s) {kind : ExceptionKind} {pcBits : Nat}
    (h : step c s = .err kind { s with pcBits := pcBits }) :
    turn c s = if s.stack.length < MAX_STACK_DEPTH then .next (Vm.enter handler kind s)
      else .done (.exception kind limit) := by
  unfold turn
  rw [h, ← hs.gasUsed_eq]
  exact raised_of_c2 (s := { s with pcBits := pcBits }) hs.handled.c2_eq

/-- what the instruction at the position of a state does before its gas -/
theorem outcome_spec (s : Interpreter) :
    match outcomeAt s.currentCode s.pcBits with
    | .ended => s.pcBits ≥ s.totalBits
    | .short => ¬ s.pcBits ≥ s.totalBits
        ∧ ∃ n pcBits, charge s = .ok n { s with pcBits := pcBits }
    | .fails => ¬ s.pcBits ≥ s.totalBits
        ∧ ∃ pcBits, charge s = .err .malformedCell { s with pcBits := pcBits }
    | .pops => ∃ op, opcodeAt s = some op ∧ op.PopsFirst := by
  by_cases hend : s.pcBits ≥ s.totalBits
  · have h : outcomeAt s.currentCode s.pcBits = .ended := if_pos hend
    rw [h]
    exact hend
  have hat : outcomeAt s.currentCode s.pcBits = match opcodeAt s with
      | none => .fails
      | some op =>
        if op.PopsFirst then .pops
        else if op.LacksLength s.currentCode (s.pcBits + 8) then .fails
        else .short := if_neg hend
  rw [hat]
  cases hop : opcodeAt s with
  | none => exact ⟨hend, charge_of_no_opcode hop⟩
  | some op =>
    dsimp only
    by_cases hpops : op.PopsFirst
    · rw [if_pos hpops]
      exact ⟨op, rfl, hpops⟩
    rw [if_neg hpops]
    obtain ⟨⟨n, pcBits, hcost⟩, himm⟩ | ⟨⟨pcBits, hcost⟩, himm⟩ := cost_eq hpops (behindOpcode s)
    · replace himm : ¬ op.LacksLength s.currentCode (s.pcBits + 8) := himm
      rw [if_neg himm]
      exact ⟨hend, n, pcBits, (charge_of_opcode hop).trans hcost⟩
    · replace himm : op.LacksLength s.currentCode (s.pcBits + 8) := himm
      rw [if_pos himm]
      exact ⟨hend, pcBits, (charge_of_opcode hop).trans hcost⟩

/-- an instruction that comes to its gas raises `OutOfGas` -/
theorem Broke.step_short (hs : Broke handler limit s)
    (h : outcomeAt s.currentCode s.pcBits = .short) :
    ∃ pcBits, step c s = .err .outOfGas { s with pcBits := pcBits } := by
  have hspec := outcome_spec s
  rw [h] at hspec
  obtain ⟨hcode, n, pcBits, hcharge⟩ := hspec
  have hcharges := charges_fetchAndExec c s
  rw [hcharge] at hcharges
  obtain ⟨_, hn, hrun⟩ := hcharges
  have hgas : s.gasLimit = s.gasUsed := hs.handled.gasLimit_eq.trans hs.gasUsed_eq.symm
  have hout : gasAfter { s with pcBits := pcBits } n > s.gasLimit.toNat := hs.gasAfter_gt hn
  rw [if_pos hout] at hrun
  refine ⟨pcBits, ?_⟩
  rw [step_of_code hcode, hrun]
  dsimp only
  rw [hgas]

/-- one that fails before raises another exception -/
theorem step_fails (h : outcomeAt s.currentCode s.pcBits = .fails) :
    ∃ pcBits, step c s = .err .malformedCell { s with pcBits := pcBits } := by
  have hspec := outcome_spec s
  rw [h] at hspec
  obtain ⟨hcode, pcBits, hcharge⟩ := hspec
  have hcharges := charges_fetchAndExec c s
  rw [hcharge] at hcharges
  exact ⟨pcBits, (step_of_code hcode).trans hcharges.2.2⟩

/-- one that pops first takes the number off, and the handler gets another one in its place -/
theorem Broke.turn_pops (hs : Broke handler limit s)
    (h : outcomeAt s.currentCode s.pcBits = .pops) :
    ∃ t, turn c s = .next t ∧ Broke handler limit t ∧ atHandler handler t
      ∧ t.callStack = s.callStack ∧ t.stack.length = s.stack.length := by
  have hspec := outcome_spec s
  rw [h] at hspec
  obtain ⟨op, hop, hpops⟩ := hspec
  obtain ⟨number, rest, hstack⟩ := hs.number
  have hstep : step c s = .err .typeMismatch { behindOpcode s with stack := rest } :=
    (step_of_opcode hop).trans (exec_of_popsFirst (s:=behindOpcode s) hpops hstack)
  have hlen : s.stack.length = rest.length + 1 := congrArg List.length hstack
  have hroom : rest.length < MAX_STACK_DEPTH := by
    have hle := hs.stack_le
    omega
  refine ⟨Vm.enter handler .typeMismatch { behindOpcode s with stack := rest }, ?_,
    ⟨⟨hs.handled.c2_eq, hs.handled.gasLimit_eq⟩, hs.gasUsed_eq, hs.limit_ne, ⟨_, _, rfl⟩, hroom⟩,
    ⟨rfl, rfl⟩, rfl, hlen.symm⟩
  unfold turn
  rw [hstep]
  exact (raised_of_c2 (s := { behindOpcode s with stack := rest }) hs.handled.c2_eq).trans
    (if_pos hroom)

/-! ## the handler -/

/-- an exception without gas: the handler goes on with it, if its number fits on the stack -/
theorem Broke.endsShort_raises (hs : Broke handler limit s) {kind : ExceptionKind} {pcBits : Nat}
    (h : step c s = .err kind { s with pcBits := pcBits }) :
    EndsShort c limit s ↔ if s.stack.length < MAX_STACK_DEPTH
      then EndsShort c limit (Vm.enter handler kind s) else kind = .outOfGas := by
  have hturn := hs.raises h
  split_ifs with hroom
  · rw [if_pos hroom] at hturn
    exact endsShort_of_next hturn
  · rw [if_neg hroom] at hturn
    refine (endsShort_of_done hturn).trans ⟨fun heq => ?_, fun heq => ?_⟩
    · cases heq
      rfl
    · rw [heq]

/-- a handler whose first instruction raises one exception raises it until the stack is full, and
then the run ends with it -/
theorem broke_raises {kind : ExceptionKind}
    (hstep : ∀ s, Broke handler limit s → atHandler handler s →
      ∃ pcBits, step c s = .err kind { s with pcBits := pcBits })
    (hs : Broke handler limit s) (hat : atHandler handler s) :
    EndsShort c limit s ↔ kind = .outOfGas := by
  induction hroom : MAX_STACK_DEPTH - s.stack.length generalizing s with
  | zero =>
    obtain ⟨pcBits, hstep⟩ := hstep s hs hat
    rw [hs.endsShort_raises hstep, if_neg (by omega)]
  | succ room ih =>
    obtain ⟨pcBits, hstep⟩ := hstep s hs hat
    have hless : s.stack.length < MAX_STACK_DEPTH := by omega
    rw [hs.endsShort_raises hstep, if_pos hless]
    refine ih (hs.enter hless kind) ⟨rfl, rfl⟩ ?_
    show MAX_STACK_DEPTH - (s.stack.length + 1) = room
    omega

/-- **A handler that comes to its gas** ends the run with `OutOfGas`. -/
theorem broke_short (hfirst : outcomeAt handler.code handler.pcBits = .short)
    (hs : Broke handler limit s) (hat : atHandler handler s) : EndsShort c limit s := by
  refine (broke_raises (fun s hs hat => hs.step_short ?_) hs hat).mpr rfl
  rw [hat.1, hat.2]
  exact hfirst

/-- a handler that fails before its gas ends the run with its own exception -/
theorem broke_fails (hfirst : outcomeAt handler.code handler.pcBits = .fails)
    (hs : Broke handler limit s) (hat : atHandler handler s) : ¬ EndsShort c limit s := by
  intro hends
  have hkind := (broke_raises (fun s _ hat => step_fails (s:=s) ?_) hs hat).mp hends
  · cases hkind
  · rw [hat.1, hat.2]
    exact hfirst

/-- a handler that pops first does not end -/
theorem broke_pops (hfirst : outcomeAt handler.code handler.pcBits = .pops)
    (hs : Broke handler limit s) (hat : atHandler handler s) : ¬ EndsShort c limit s := by
  rintro ⟨n, hn⟩
  have hturn : ∀ u, Broke handler limit u ∧ atHandler handler u →
      ∃ v, turn c u = .next v ∧ Broke handler limit v ∧ atHandler handler v := by
    rintro u ⟨hu, hat⟩
    obtain ⟨v, hv, hbroke, hat', _⟩ := hu.turn_pops (c:=c) (by
      rw [hat.1, hat.2]
      exact hfirst)
    exact ⟨v, hv, hbroke, hat'⟩
  obtain ⟨t, ht, _⟩ := loop_forever hturn ⟨hs, hat⟩ n
  unfold run at hn
  rw [hn] at ht
  cases ht

theorem turn_ended_nil (h : s.pcBits ≥ s.totalBits) (hstack : s.callStack = []) :
    turn c s = .done (.success s.data s.outMessages s.gasUsed) := by
  unfold turn
  rw [step_of_end h]
  unfold leave
  rw [get_bind, hstack]
  rfl

theorem turn_ended_cons (h : s.pcBits ≥ s.totalBits) {code : Cell} {pcBits : Nat}
    {rest : List (Cell × Nat)} (hstack : s.callStack = (code, pcBits) :: rest) :
    turn c s = .next { s with callStack := rest, currentCode := code, pcBits := pcBits } := by
  unfold turn
  rw [step_of_end h]
  unfold leave
  rw [get_bind, hstack]
  rfl

/-- **A handler without code** hands over to the callers, which fail in turn. -/
theorem broke_ended (hfirst : outcomeAt handler.code handler.pcBits = .ended)
    (hs : Broke handler limit s) (hat : outcomeAt s.currentCode s.pcBits = .ended) :
    EndsShort c limit s ↔ fillsUp (MAX_STACK_DEPTH - s.stack.length) s.callStack = true := by
  induction hcalls : s.callStack generalizing s with
  | nil =>
    have hend := outcome_spec s
    rw [hat] at hend
    rw [endsShort_of_done (turn_ended_nil hend hcalls)]
    exact ⟨fun h => (nomatch h), fun h => (nomatch h)⟩
  | cons caller rest ih =>
    obtain ⟨code, pcBits⟩ := caller
    have hend := outcome_spec s
    rw [hat] at hend
    rw [endsShort_of_next (turn_ended_cons hend hcalls)]
    have hcaller : Broke handler limit
        { s with callStack := rest, currentCode := code, pcBits := pcBits } := hs.at
    -- the handler again, with one number more on the stack
    have hagain : ∀ kind, s.stack.length < MAX_STACK_DEPTH →
        (EndsShort c limit (Vm.enter handler kind
          { s with callStack := rest, currentCode := code, pcBits := pcBits })
        ↔ fillsUp (MAX_STACK_DEPTH - s.stack.length - 1) rest = true) := by
      intro kind hroom
      rw [Nat.sub_sub]
      exact ih (hcaller.enter hroom kind) hfirst rfl
    unfold fillsUp
    cases hout : outcomeAt code pcBits with
    | ended => exact ih hcaller hout rfl
    | short =>
      obtain ⟨pc, hstep⟩ := hcaller.step_short (c:=c) hout
      rw [hcaller.endsShort_raises hstep]
      by_cases hroom : s.stack.length < MAX_STACK_DEPTH
      · have hne : (MAX_STACK_DEPTH - s.stack.length == 0) = false := beq_false_of_ne (by omega)
        rw [if_pos hroom, hagain _ hroom, hne, Bool.false_or]
      · have heq : (MAX_STACK_DEPTH - s.stack.length == 0) = true := beq_iff_eq.mpr (by omega)
        rw [if_neg hroom, heq, Bool.true_or]
        exact ⟨fun _ => rfl, fun _ => rfl⟩
    | fails =>
      obtain ⟨pc, hstep⟩ := step_fails (c:=c)
        (s := { s with callStack := rest, currentCode := code, pcBits := pcBits }) hout
      rw [hcaller.endsShort_raises hstep]
      by_cases hroom : s.stack.length < MAX_STACK_DEPTH
      · have hne : (MAX_STACK_DEPTH - s.stack.length != 0) = true := bne_iff_ne.mpr (by omega)
        rw [if_pos hroom, hagain _ hroom, hne, Bool.true_and]
      · have heq : (MAX_STACK_DEPTH - s.stack.length != 0) = false := by
          rw [bne_eq_false_iff_eq]
          omega
        rw [if_neg hroom, heq, Bool.false_and]
        exact ⟨fun h => (nomatch h), fun h => (nomatch h)⟩
    | pops =>
      obtain ⟨t, ht, hbroke, hat', hrest, hlen⟩ := hcaller.turn_pops (c:=c) hout
      rw [endsShort_of_next ht, ih hbroke (by rw [hat'.1, hat'.2]; exact hfirst) hrest, hlen]

/-! ## runs -/

/-- **Whether the run ends as out of gas** is settled where the gas runs out. -/
theorem endsShort_iff {t u : Interpreter} (h : step c t = .err .outOfGas u) :
    EndsShort c t.gasLimit t ↔ outOfGasEnds t = true := by
  have hcases := step_cases c t
  rw [h] at hcases
  cases hcases with
  | unpaid _ _ _ he => exact absurd rfl he
  | paid _ _ _ _ _ hfinal => exact absurd rfl hfinal.2
  | @outOfGas n u _ hcharge hlocal hn hout =>
    have hdepth := length_charge hcharge
    obtain ⟨stack, pcBits, rfl⟩ := hlocal
    replace hdepth : stack.length = depthAtGas t := hdepth
    have hmax : t.gasLimit ≠ BitVec.allOnes 64 := by
      intro hall
      rw [hall, BitVec.toNat_allOnes] at hout
      unfold gasAfter at hout
      omega
    unfold outOfGasEnds
    cases hc2 : t.controlRegisters.c2 with
    | none =>
      have hturn : turn c t = .done (.exception .outOfGas t.gasLimit) := by
        unfold turn
        rw [h]
        unfold raised
        dsimp only
        rw [hc2]
      exact (endsShort_of_done hturn).trans ⟨fun _ => rfl, fun _ => rfl⟩
    | some handler =>
      have hturn : turn c t = if stack.length < MAX_STACK_DEPTH
          then .next (enter handler .outOfGas
            { t with stack := stack, pcBits := pcBits, gasUsed := t.gasLimit })
          else .done (.exception .outOfGas t.gasLimit) := by
        unfold turn
        rw [h]
        exact raised_of_c2 hc2
      dsimp only
      rw [← hdepth]
      by_cases hroom : stack.length < MAX_STACK_DEPTH
      · have hbroke : Broke handler t.gasLimit (enter handler .outOfGas
            { t with stack := stack, pcBits := pcBits, gasUsed := t.gasLimit }) :=
          ⟨⟨hc2, rfl⟩, rfl, hmax, ⟨_, _, rfl⟩, hroom⟩
        have hne : (MAX_STACK_DEPTH - stack.length == 0) = false := beq_false_of_ne (by omega)
        rw [if_pos hroom] at hturn
        rw [endsShort_of_next hturn, hne, Bool.false_or]
        cases hfirst : outcomeAt handler.code handler.pcBits with
        | ended =>
          rw [broke_ended hfirst hbroke hfirst]
          show fillsUp (MAX_STACK_DEPTH - (stack.length + 1)) t.callStack = true ↔ _
          rw [Nat.sub_sub]
        | short => exact ⟨fun _ => rfl, fun _ => broke_short hfirst hbroke ⟨rfl, rfl⟩⟩
        | fails =>
          exact ⟨fun h => absurd h (broke_fails hfirst hbroke ⟨rfl, rfl⟩), fun h => (nomatch h)⟩
        | pops =>
          exact ⟨fun h => absurd h (broke_pops hfirst hbroke ⟨rfl, rfl⟩), fun h => (nomatch h)⟩
      · have heq : (MAX_STACK_DEPTH - stack.length == 0) = true := beq_iff_eq.mpr (by omega)
        rw [if_neg hroom] at hturn
        rw [endsShort_of_done hturn, heq, Bool.true_or]
        exact ⟨fun _ => rfl, fun _ => rfl⟩

theorem turn_gasLimit {t : Interpreter} (h : turn c s = .next t) : t.gasLimit = s.gasLimit := by
  unfold turn at h
  have hcases := step_cases c s
  cases hstep : step c s with
  | ok b u =>
    rw [hstep] at h hcases
    cases b with
    | false => cases h
    | true =>
      cases h
      cases hcases with
      | left => rfl
      | paid _ _ hlocal _ _ hfinal =>
        have hfree : Free _ t := Moved.free hfinal
        exact hfree.gasLimit_eq.trans hlocal.free.gasLimit_eq
  | err e u =>
    rw [hstep] at h
    obtain ⟨stack, pcBits, gasUsed, rfl⟩ := step_err_keeps hstep
    dsimp only at h
    cases hc2 : s.controlRegisters.c2 with
    | none =>
      unfold raised at h
      dsimp only at h
      rw [hc2] at h
      cases h
    | some handler =>
      rw [raised_of_c2 (s := { s with stack := stack, pcBits := pcBits, gasUsed := gasUsed }) hc2] at h
      split_ifs at h
      cases h
      rfl
  | panic =>
    rw [hstep] at h
    cases h

theorem run_gasLimit {n : Nat} {t : Interpreter} (h : run c n s = .next t) :
    t.gasLimit = s.gasLimit :=
  loop_inv (I := fun u => u.gasLimit = s.gasLimit) (fun _ _ hu hv => (turn_gasLimit hv).trans hu)
    rfl h

/-- a run that raises `OutOfGas` returns it, with all its gas used, and does not succeed -/
def OutOfGasFatal (c : Crypto) (s : Interpreter) : Prop :=
  (∃ n t u, run c n s = .next t ∧ step c t = .err .outOfGas u) →
    (∃ n, run c n s = .done (.exception .outOfGas s.gasLimit))
      ∧ ∀ n newData outMessages gasUsed, run c n s ≠ .done (.success newData outMessages gasUsed)

/-- **When `OutOfGas` is never success**: exactly if in no state of the run in which it is raised a
handler is entered that goes on to something else. -/
theorem outOfGas_fatal_iff (c : Crypto) (s : Interpreter) : OutOfGasFatal c s ↔
    ∀ n t u, run c n s = .next t → step c t = .err .outOfGas u → outOfGasEnds t = true := by
  constructor
  · intro hfatal n t u ht hu
    obtain ⟨hends, _⟩ := hfatal ⟨n, t, u, ht, hu⟩
    rw [← endsShort_iff hu, run_gasLimit ht]
    exact (returns_of_loop ht).mp hends
  · rintro hall ⟨n, t, u, ht, hu⟩
    have hends : EndsShort c s.gasLimit s := by
      have hlast := (endsShort_iff hu).mpr (hall n t u ht hu)
      rw [run_gasLimit ht] at hlast
      exact (returns_of_loop ht).mpr hlast
    refine ⟨hends, fun m newData outMessages gasUsed hm => ?_⟩
    obtain ⟨k, hk⟩ := hends
    cases loop_done_unique hk hm

end

/-- an instruction without gas, and a handler without code -/
def noGas : Interpreter :=
  { Interpreter.new (byteCell 0) emptyCell sampleMessage sampleContext with gasLimit := 0 }

theorem handler_succeeds :
    (∃ u, step sampleCrypto (noGas.setExceptionHandler ⟨emptyCell, 0⟩) = .err .outOfGas u)
    ∧ run sampleCrypto 2 (noGas.setExceptionHandler ⟨emptyCell, 0⟩)
      = .done (.success emptyCell [] 0)
    ∧ ¬ OutOfGasFatal sampleCrypto (noGas.setExceptionHandler ⟨emptyCell, 0⟩) := by
  refine ⟨⟨_, rfl⟩, rfl, fun h => ?_⟩
  exact (h ⟨0, _, _, rfl, rfl⟩).2 2 emptyCell [] 0 rfl

end Onx.Vm
