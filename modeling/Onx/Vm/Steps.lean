import Onx.Vm.Logic

/-!
# What a step does

An instruction charges its gas; before that, and after, it changes the stack and the position in
the code, and its last part may go to other code.  `step_cases` says so once for all instructions.

* `Local`          only stack and position are new;
* `Moved`          as well, or the last part is a jump, a call or a return;
* `Charges k m`    `m` charges the gas that `k` returns, after what `k` does;
* `charge`, `charged`   what the instruction of a state charges;
* `step_cases`     **a step**; `step_err_keeps` one that fails.
-/

namespace Onx.Vm
open Machine

/-- stack and position may be new -/
def Local (s t : Interpreter) : Prop :=
  ∃ stack pcBits, t = { s with stack := stack, pcBits := pcBits }

instance : Std.Refl Local := ⟨fun s => ⟨s.stack, s.pcBits, rfl⟩⟩

instance : IsTrans Interpreter Local where
  trans := by
    rintro s _ _ ⟨_, _, rfl⟩ ⟨stack, pcBits, rfl⟩
    exact ⟨stack, pcBits, rfl⟩

/-- what comes after the gas, from `s` to `t` -/
inductive Moved (s : Interpreter) : Interpreter → Prop where
  | stays {t} (h : Local s t) : Moved s t
  | jumps {u} (h : Local s u) (target : Cell) :
      Moved s { u with currentCode := target, pcBits := 0 }
  | calls {u} (h : Local s u) (target : Cell) :
      Moved s { saveCaller u with currentCode := target, pcBits := 0 }
  | returns {u} (h : Local s u) {k : Continuation} (hc0 : u.controlRegisters.c0 = some k) :
      Moved s (dropCaller (u.jumpTo k))

theorem Moved.after {s t u : Interpreter} (h : Local s t) (h' : Moved t u) : Moved s u := by
  cases h' with
  | stays h' => exact .stays (IsTrans.trans _ _ _ h h')
  | jumps h' target => exact .jumps (IsTrans.trans _ _ _ h h') target
  | calls h' target => exact .calls (IsTrans.trans _ _ _ h h') target
  | returns h' hc0 => exact .returns (IsTrans.trans _ _ _ h h') hc0

/-- a part of an instruction, where gas is not charged -/
abbrev Inner {α : Type} (m : Instr α) (P : α → Prop) : Prop :=
  Moves Local (fun e => e ≠ ExceptionKind.outOfGas) m P

/-- what comes of a last part in `s` -/
def Final {α : Type} (s : Interpreter) : Res Interpreter ExceptionKind α → Prop
  | .ok _ t => Moved s t
  | .err e t => Local s t ∧ e ≠ .outOfGas
  | .panic => True

/-- the gas is taken -/
def pay (s : Interpreter) (amount : Nat) : Interpreter :=
  { s with gasUsed := BitVec.ofNat 64 (gasAfter s amount) }

theorem consumeGas_paid {s : Interpreter} {amount : Nat}
    (h : ¬ gasAfter s amount > s.gasLimit.toNat) :
    consumeGas amount s = .ok () (pay s amount) := by
  rw [consumeGas_apply, if_neg h]
  rfl

theorem consumeGas_out {s : Interpreter} {amount : Nat} (h : gasAfter s amount > s.gasLimit.toNat) :
    consumeGas amount s = .err .outOfGas { s with gasUsed := s.gasLimit } := by
  rw [consumeGas_apply, if_pos h]

/-- `m` charges the gas that `k` returns, after what `k` does -/
def Charges {α : Type} (k : Instr Nat) (m : Instr α) : Prop :=
  ∀ s, match k s with
    | .ok n u => Local s u ∧ 0 < n ∧
        if gasAfter u n > u.gasLimit.toNat then
          m s = .err .outOfGas { u with gasUsed := u.gasLimit }
        else Final (pay u n) (m s)
    | .err e u => Local s u ∧ e ≠ .outOfGas ∧ m s = .err e u
    | .panic => m s = .panic

/-! ## parts -/

section
variable {α β : Type} {m : Instr α} {f : α → Instr β} {P : α → Prop}

theorem inner_pop : Inner pop fun _ => True := by
  intro s
  rw [pop_apply]
  cases s.stack with
  | nil => exact ⟨Std.Refl.refl s, by decide⟩
  | cons v rest => exact ⟨⟨rest, s.pcBits, rfl⟩, trivial⟩

theorem inner_push (v : StackValue) : Inner (push v) fun _ => True := by
  intro s
  rw [push_apply]
  split_ifs
  · exact ⟨Std.Refl.refl s, by decide⟩
  · exact ⟨⟨v :: s.stack, s.pcBits, rfl⟩, trivial⟩

theorem inner_readUint8 : Inner readUint8 fun _ => True := by
  intro s
  rw [readUint8_apply]
  cases byteAt s.currentCode s.pcBits with
  | none => exact ⟨Std.Refl.refl s, by decide⟩
  | some b => exact ⟨⟨s.stack, s.pcBits + 8, rfl⟩, trivial⟩

theorem inner_ofOption {e : ExceptionKind} {o : Option α} (he : e ≠ .outOfGas) :
    Inner (Prog.ofOption e o) fun _ => True := by
  cases o with
  | none => exact moves_raise he
  | some a => exact moves_pure trivial

theorem inner_jumpBy (offset : Byte) : Inner (jumpBy offset) fun _ => True :=
  moves_bind moves_get fun _ _ => moves_bind (inner_ofOption (by decide)) fun pc _ =>
    moves_modify fun s => ⟨s.stack, pc, rfl⟩

theorem transferTo_apply (refIdx : Nat) (call : Bool) (s : Interpreter) :
    transferTo refIdx call s = match s.codeRefs[refIdx]? with
      | none => .err .malformedCell s
      | some target =>
        .ok () { (if call then saveCaller s else s) with currentCode := target, pcBits := 0 } := by
  unfold transferTo
  rw [get_bind]
  by_cases h : refIdx ≥ s.codeRefs.length
  · rw [bind_err (failIf_pos h _ _), List.getElem?_eq_none h]
  · rw [bind_ok (failIf_neg h _ _), List.getElem?_eq_getElem (Nat.not_le.mp h)]
    cases call <;> rfl

theorem returnToCaller_apply (s : Interpreter) :
    returnToCaller s = match s.controlRegisters.c0 with
      | none => .ok false s
      | some k => .ok true (dropCaller (s.jumpTo k)) := by
  obtain ⟨stack, callStack, code, pc, data, out, limit, used, context, refs, ⟨c0, c1, c2⟩⟩ := s
  cases c0 <;> rfl

theorem final_bind (hm : Inner m P) (hf : ∀ a, P a → ∀ s, Final s (f a s)) (s : Interpreter) :
    Final s ((m >>= f) s) := by
  rw [bind_apply]
  cases h : m s with
  | ok a u =>
    obtain ⟨hsu, ha⟩ := hm.ok h
    dsimp only
    have hfinal := hf a ha u
    cases h' : f a u with
    | ok b t =>
      rw [h'] at hfinal
      exact Moved.after hsu hfinal
    | err e t =>
      rw [h'] at hfinal
      exact ⟨IsTrans.trans _ _ _ hsu hfinal.1, hfinal.2⟩
    | panic => trivial
  | err e u => exact hm.err h
  | panic => trivial

theorem final_of_inner (hm : Inner m P) (s : Interpreter) : Final s (m s) := by
  cases h : m s with
  | ok a t => exact .stays (hm.ok h).1
  | err e t => exact hm.err h
  | panic => trivial

theorem final_transferTo (refIdx : Nat) (call : Bool) (s : Interpreter) :
    Final s (transferTo refIdx call s) := by
  rw [transferTo_apply]
  cases s.codeRefs[refIdx]? with
  | none => exact ⟨Std.Refl.refl s, by decide⟩
  | some target =>
    cases call with
    | false => exact .jumps (Std.Refl.refl s) target
    | true => exact .calls (Std.Refl.refl s) target

theorem final_returnToCaller (s : Interpreter) : Final s (returnToCaller s) := by
  rw [returnToCaller_apply]
  cases h : s.controlRegisters.c0 with
  | none => exact .stays (Std.Refl.refl s)
  | some k => exact .returns (Std.Refl.refl s) h

/-! ## instructions -/

theorem charges_gas {n : Nat} (hn : 0 < n) (hm : ∀ s, Final s (m s)) :
    Charges (pure n) (consumeGas n >>= fun _ => m) := by
  refine fun s => ⟨Std.Refl.refl s, hn, ?_⟩
  rw [bind_apply, consumeGas_apply]
  split_ifs
  · rfl
  · exact hm _

theorem charges_bind {k : α → Instr Nat} (hm : Inner m P) (hf : ∀ a, P a → Charges (k a) (f a)) :
    Charges (m >>= k) (m >>= f) := by
  intro s
  rw [bind_apply, bind_apply]
  cases h : m s with
  | ok a u =>
    obtain ⟨hsu, ha⟩ := hm.ok h
    have hcharges := hf a ha u
    dsimp only
    cases h' : k a u with
    | ok n t =>
      rw [h'] at hcharges
      exact ⟨IsTrans.trans _ _ _ hsu hcharges.1, hcharges.2⟩
    | err e t =>
      rw [h'] at hcharges
      exact ⟨IsTrans.trans _ _ _ hsu hcharges.1, hcharges.2⟩
    | panic =>
      rw [h'] at hcharges
      exact hcharges
  | err e u =>
    obtain ⟨hsu, he⟩ := hm.err h
    exact ⟨hsu, he, rfl⟩
  | panic => rfl

theorem charges_goesOn {k : Instr Nat} {m : Instr Unit} (hm : Charges k m) :
    Charges k (goesOn m) := by
  intro s
  have hcharges := hm s
  cases hk : k s with
  | ok n u =>
    rw [hk] at hcharges
    obtain ⟨hsu, hn, hcharges⟩ := hcharges
    refine ⟨hsu, hn, ?_⟩
    split_ifs with hout
    · rw [if_pos hout] at hcharges
      exact bind_err hcharges
    · rw [if_neg hout] at hcharges
      unfold goesOn
      rw [bind_apply]
      cases h : m s with
      | ok a t =>
        rw [h] at hcharges
        exact hcharges
      | err e t =>
        rw [h] at hcharges
        exact hcharges
      | panic => trivial
  | err e u =>
    rw [hk] at hcharges
    exact ⟨hcharges.1, hcharges.2.1, bind_err hcharges.2.2⟩
  | panic =>
    rw [hk] at hcharges
    show goesOn m s = .panic
    unfold goesOn
    rw [bind_apply, hcharges]

end

/-- the logic of `Inner` and `Charges` -/
def stepLogic : Logic where
  lax := True
  Good := fun _ => True
  Seen := fun _ => True
  Part := fun m P => Inner m P
  Last := fun m => ∀ s, Final s (m s)
  Whole := fun k m => Charges k m
  good_integer := fun _ => trivial
  good_bytes := fun _ => trivial
  good_cell := fun _ => trivial
  good_newSlice := fun _ => trivial
  good_readBits := fun _ _ => trivial
  good_nextRef := fun _ _ => trivial
  good_newBuilder := trivial
  good_appendBits := fun _ _ => trivial
  appendBits_panic := fun _ _ => trivial
  good_addRef := fun _ _ _ => trivial
  good_addBytes := fun _ _ => trivial
  good_of_seen := fun _ _ _ => trivial
  part_bind := moves_bind
  part_pure := moves_pure
  part_raise := fun he => moves_raise (E := fun e => e ≠ ExceptionKind.outOfGas) he
  part_panic := fun _ => moves_panic
  part_get := moves_get
  part_pop := inner_pop
  part_push := fun {v} _ => inner_push v
  part_restack := fun {g} _ => moves_modify fun s => ⟨g s, s.pcBits, rfl⟩
  part_readUint8 := inner_readUint8
  part_jumpBy := inner_jumpBy
  last_part := final_of_inner
  last_bind := final_bind
  last_transferTo := final_transferTo
  last_returnToCaller := final_returnToCaller
  whole_charge := charges_gas
  whole_before := charges_bind
  whole_goesOn := charges_goesOn

/-! ## steps -/

/-- the gas that the next instruction charges, with what it does before -/
def charge : Instr Nat := do
  let opcode ← readUint8
  let op ← Prog.ofOption .malformedCell (Opcode.ofByte opcode)
  op.cost

/-- the gas that the next instruction charges; none at the end of a code cell, or where the
instruction fails before it charges -/
def charged (s : Interpreter) : Option Nat :=
  if s.pcBits ≥ s.totalBits then none
  else match charge s with
    | .ok n _ => some n
    | _ => none

theorem charges_fetchAndExec (c : Crypto) : Charges charge (fetchAndExec c) :=
  charges_bind inner_readUint8 fun _ _ => charges_bind (P := fun _ => True)
    (inner_ofOption (by decide)) fun op _ => stepLogic.whole_exec c op fun _ => trivial

inductive Stepped (s : Interpreter) : Res Interpreter ExceptionKind Bool → Prop where
  | finished (hend : s.pcBits ≥ s.totalBits) (hstack : s.callStack = []) : Stepped s (.ok false s)
  /-- the end of a code cell -/
  | left (hend : s.pcBits ≥ s.totalBits) {code : Cell} {pcBits : Nat} {rest : List (Cell × Nat)}
      (hstack : s.callStack = (code, pcBits) :: rest) :
      Stepped s (.ok true { s with callStack := rest, currentCode := code, pcBits := pcBits })
  /-- an instruction that fails before it charges gas -/
  | unpaid {e u} (hcode : ¬ s.pcBits ≥ s.totalBits) (hcharge : charge s = .err e u)
      (hlocal : Local s u) (he : e ≠ .outOfGas) : Stepped s (.err e u)
  | outOfGas {n u} (hcode : ¬ s.pcBits ≥ s.totalBits) (hcharge : charge s = .ok n u)
      (hlocal : Local s u) (hn : 0 < n) (hout : gasAfter s n > s.gasLimit.toNat) :
      Stepped s (.err .outOfGas { u with gasUsed := u.gasLimit })
  | paid {n u r} (hcode : ¬ s.pcBits ≥ s.totalBits) (hcharge : charge s = .ok n u)
      (hlocal : Local s u) (hn : 0 < n) (hin : gasAfter s n ≤ s.gasLimit.toNat)
      (hfinal : Final (pay u n) r) : Stepped s r
  | panicked (hcode : ¬ s.pcBits ≥ s.totalBits) (hcharge : charge s = .panic) : Stepped s .panic

theorem step_of_end {c : Crypto} {s : Interpreter} (h : s.pcBits ≥ s.totalBits) :
    step c s = leave s := by
  unfold step
  rw [if_pos h]

theorem step_of_code {c : Crypto} {s : Interpreter} (h : ¬ s.pcBits ≥ s.totalBits) :
    step c s = fetchAndExec c s := by
  unfold step
  rw [if_neg h]

/-- the end of a code cell: the caller goes on, with the same gas -/
theorem leave_ok {s t : Interpreter} {b : Bool} (h : leave s = .ok b t) :
    (b = true ∧ ∃ code pc rest, s.callStack = (code, pc) :: rest
      ∧ t = { s with callStack := rest, currentCode := code, pcBits := pc })
    ∨ (b = false ∧ s.callStack = [] ∧ t = s) := by
  unfold leave at h
  rw [get_bind] at h
  cases hstack : s.callStack with
  | nil =>
    rw [hstack] at h
    cases h
    exact Or.inr ⟨rfl, rfl, rfl⟩
  | cons caller rest =>
    rw [hstack] at h
    cases h
    exact Or.inl ⟨rfl, caller.1, caller.2, rest, rfl, rfl⟩

theorem stepped_leave {s : Interpreter} (hend : s.pcBits ≥ s.totalBits) : Stepped s (leave s) := by
  unfold leave
  rw [get_bind]
  cases hstack : s.callStack with
  | nil => exact .finished hend hstack
  | cons caller rest => exact .left hend hstack

/-- **What a step does.** -/
theorem step_cases (c : Crypto) (s : Interpreter) : Stepped s (step c s) := by
  by_cases hcode : s.pcBits ≥ s.totalBits
  · rw [step_of_end hcode]
    exact stepped_leave hcode
  · rw [step_of_code hcode]
    have hcharges := charges_fetchAndExec c s
    cases hcharge : charge s with
    | ok n u =>
      rw [hcharge] at hcharges
      obtain ⟨hlocal, hn, hcharges⟩ := hcharges
      have hgas : gasAfter u n = gasAfter s n ∧ u.gasLimit = s.gasLimit := by
        obtain ⟨_, _, rfl⟩ := hlocal
        exact ⟨rfl, rfl⟩
      split_ifs at hcharges with hout
      · rw [hcharges]
        exact .outOfGas hcode hcharge hlocal hn (hgas.1 ▸ hgas.2 ▸ hout)
      · exact .paid hcode hcharge hlocal hn (hgas.1 ▸ hgas.2 ▸ Nat.not_lt.mp hout) hcharges
    | err e u =>
      rw [hcharge] at hcharges
      obtain ⟨hlocal, he, hrun⟩ := hcharges
      rw [hrun]
      exact .unpaid hcode hcharge hlocal he
    | panic =>
      rw [hcharge] at hcharges
      rw [hcharges]
      exact .panicked hcode hcharge

/-- **A step that fails** changes stack, position and gas at most. -/
theorem step_err_keeps {c : Crypto} {s t : Interpreter} {e : ExceptionKind}
    (h : step c s = .err e t) :
    ∃ stack pcBits gasUsed, t = { s with stack := stack, pcBits := pcBits, gasUsed := gasUsed } := by
  have hcases := step_cases c s
  rw [h] at hcases
  cases hcases with
  | unpaid _ _ hlocal _ =>
    obtain ⟨stack, pcBits, rfl⟩ := hlocal
    exact ⟨stack, pcBits, s.gasUsed, rfl⟩
  | outOfGas _ _ hlocal _ _ =>
    obtain ⟨stack, pcBits, rfl⟩ := hlocal
    exact ⟨stack, pcBits, s.gasLimit, rfl⟩
  | paid _ _ hlocal _ _ hfinal =>
    obtain ⟨_, _, rfl⟩ := hlocal
    obtain ⟨⟨stack, pcBits, rfl⟩, _⟩ := hfinal
    exact ⟨stack, pcBits, _, rfl⟩

end Onx.Vm
