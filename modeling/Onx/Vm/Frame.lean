import Onx.Vm.Likeness
import Onx.Vm.Handler

/-!
# What is below on the stack

Values below those that a run works with stay where they are.  A run that never raises `MalformedCell` goes
the same way above any other stack, with the same turns, the same gas and the same end, until it comes to an
exception with a full stack.

* `above`            the state with more values below;
* `below`            states that differ so are alike, up to `MalformedCell`;
* `turn_above`       one turn;
* `fillsStack_ends`  an exception with a full stack ends the run;
* `stack_frame`      **runs above a stack**.
-/

namespace Onx.Vm
open Machine

/-- the state with more values below -/
def above (below : List StackValue) (s : Interpreter) : Interpreter := { s with stack := s.stack ++ below }

/-- the run comes to an exception with a full stack -/
def FillsStack (c : Crypto) (s : Interpreter) : Prop :=
  ∃ n t e u, run c n s = .next t ∧ step c t = .err e u ∧ MAX_STACK_DEPTH ≤ u.stack.length

/-- no step of the run raises `MalformedCell` -/
def WellFormed (c : Crypto) (s : Interpreter) : Prop :=
  ∀ n t u, run c n s = .next t → step c t ≠ .err .malformedCell u

theorem placed_above (values : List StackValue) : Placed fun s t => t = above values s := by
  rintro s _ rfl
  exact ⟨rfl, rfl, fun _ => rfl⟩

/-- states with more values below -/
def below (values : List StackValue) : Likeness where
  R s t := t = above values s
  Q := Both (fun s t => t = above values s) Eq
  G e _ := e = .malformedCell
  H _ u := MAX_STACK_DEPTH ≤ u.stack.length
  stacked := by
    rintro s _ rfl
    exact ⟨values, rfl, fun _ => ⟨fun _ => rfl, fun _ h => h⟩, fun _ => rfl⟩
  reads := (placed_above values).reads
  jumps := (placed_above values).jumps
  gas := by
    rintro amount s _ rfl
    rw [consumeGas_apply, consumeGas_apply]
    show Alike _ _ _ _ _ (if gasAfter s amount > s.gasLimit.toNat then _ else _)
    split_ifs
    · exact .err rfl
    · exact .ok ⟨rfl, rfl⟩
  transfers := by
    rintro refIdx call s _ rfl
    rw [transferTo_apply, transferTo_apply]
    show Alike _ _ _ _ _ (match s.codeRefs[refIdx]? with | none => _ | some target => _)
    cases s.codeRefs[refIdx]? with
    | none => exact .err rfl
    | some target => cases call <;> exact .ok ⟨rfl, rfl⟩
  returns := by
    rintro s _ rfl
    rw [returnToCaller_apply, returnToCaller_apply]
    show Alike _ _ _ _ _ (match s.controlRegisters.c0 with | none => _ | some k => _)
    cases s.controlRegisters.c0 with
    | none => exact .ok ⟨rfl, rfl⟩
    | some k => exact .ok ⟨rfl, rfl⟩
  leaves := by
    rintro s _ rfl
    unfold leave
    rw [get_bind, get_bind]
    show Alike _ _ _ _ _ ((match s.callStack with | (code, pc) :: rest => _ | [] => _ : Instr Bool) _)
    cases s.callStack with
    | nil => exact .ok ⟨rfl, rfl⟩
    | cons caller rest => exact .ok ⟨rfl, rfl⟩
  goes := fun h => ⟨rfl, h⟩

section
variable {c : Crypto} {s t u : Interpreter} {values : List StackValue}

/-- an exception above a stack goes to the handler as well, if there is room for its number -/
theorem raised_above {e : ExceptionKind} (hroom : (above values s).stack.length < MAX_STACK_DEPTH) :
    raised e (above values s) = (raised e s).map (above values) := by
  have hless : ¬ s.stack.length ≥ MAX_STACK_DEPTH := by
    change (s.stack ++ values).length < _ at hroom
    rw [List.length_append] at hroom
    omega
  have hc2 : (above values s).controlRegisters.c2 = s.controlRegisters.c2 := rfl
  unfold raised
  rw [hc2]
  cases s.controlRegisters.c2 with
  | none => rfl
  | some handler =>
    dsimp only
    unfold pushI128
    rw [push_apply, push_apply, if_neg hless, if_neg (Nat.not_le.mpr hroom)]
    rfl

/-- **A turn** above a stack. -/
theorem turn_above (values : List StackValue) (hok : ∀ u, step c s ≠ .err .malformedCell u) :
    (∃ e u, step c (above values s) = .err e u ∧ MAX_STACK_DEPTH ≤ u.stack.length)
      ∨ turn c (above values s) = (turn c s).map (above values) := by
  have halike := @Likeness.alike_step (below values) c s _ rfl ((placed_above values).end_iff rfl)
  unfold turn
  generalize hs : step c s = r at halike hok
  generalize step c (above values s) = r' at halike
  cases halike with
  | @ok b s' b' t' hboth =>
    obtain ⟨rfl, rfl⟩ := hboth
    right
    cases b <;> rfl
  | @err e s' t' hR =>
    cases hR
    by_cases hfull : MAX_STACK_DEPTH ≤ (above values s').stack.length
    · exact .inl ⟨e, _, rfl, hfull⟩
    · exact .inr (raised_above (Nat.not_le.mp hfull))
  | panic => exact .inr rfl
  | first he =>
    subst he
    exact absurd rfl (hok _)
  | second hfull => exact .inl ⟨_, _, rfl, hfull⟩

/-- an exception with a full stack goes to no handler -/
theorem fillsStack_ends (h : FillsStack c s) : ∃ n e gasUsed, run c n s = .done (.exception e gasUsed) := by
  obtain ⟨n, t, e, u, ht, hstep, hfull⟩ := h
  refine ⟨n + 1, e, u.gasUsed, ?_⟩
  have hraised : raised e u = .done (.exception e u.gasUsed) := by
    unfold raised
    cases u.controlRegisters.c2 with
    | none => rfl
    | some handler =>
      dsimp only
      unfold pushI128
      rw [push_apply, if_pos hfull]
  refine loop_succ_of_last ht ?_
  unfold turn
  rw [hstep]
  exact hraised

/-- **Runs above a stack**: the same turns with the values below, unless the stack is filled. -/
theorem stack_frame (c : Crypto) (s : Interpreter) (values : List StackValue) (hok : WellFormed c s) :
    (FillsStack c (above values s)
        ∧ ∃ n e gasUsed, run c n (above values s) = .done (.exception e gasUsed))
      ∨ ∀ n, run c n (above values s) = (run c n s).map (above values) := by
  by_cases hfills : FillsStack c (above values s)
  · exact .inl ⟨hfills, fillsStack_ends hfills⟩
  · refine .inr fun n => loop_map (fun k t ht habove => ?_) n
    rcases turn_above values (hok k t · ht) with ⟨e, u, hu, hfull⟩ | hturn
    · exact absurd ⟨k, above values t, e, u, habove, hu, hfull⟩ hfills
    · exact hturn

/-- `SWAP` with the two values that it takes -/
def swapState : Interpreter :=
  { Interpreter.new (byteCell 3) emptyCell sampleMessage sampleContext with
    stack := [.bytes [1], .bytes [2]] }

theorem wellFormed_swapState : WellFormed sampleCrypto swapState := by
  have hdone : run sampleCrypto 2 swapState = .done (.success emptyCell [] 1) := rfl
  intro n t u ht hstep
  match n with
  | 0 =>
    cases ht
    cases hstep
  | 1 =>
    cases ht
    cases hstep
  | n + 2 =>
    rw [Nat.add_comm] at ht
    unfold run at ht hdone
    rw [loop_stays (not_next_of_done hdone), hdone] at ht
    cases ht

theorem stack_frame_sample :
    (FillsStack sampleCrypto (above [.bytes [3]] swapState)
        ∧ ∃ n e gasUsed, run sampleCrypto n (above [.bytes [3]] swapState) = .done (.exception e gasUsed))
      ∨ ∀ n, run sampleCrypto n (above [.bytes [3]] swapState)
        = (run sampleCrypto n swapState).map (above [.bytes [3]]) :=
  stack_frame sampleCrypto swapState [.bytes [3]] wellFormed_swapState

end

end Onx.Vm
