import Onx.Vm.Likeness
import Onx.Vm.Returns

/-!
# Code that is called

Code that runs alone also runs in a call: the same turns, the same gas and values, and where it would have
succeeded, its caller goes on.  This is so as long as it keeps to the call stack itself, and no code that it
calls is left by its end with another caller below.

* `inCall`, `backIn`   the state of the code in a call, and the one that the caller goes on with;
* `transferTo_call`    a call begins so;
* `besides`            states alone and in a call are alike;
* `turn_inCall`        one turn, `turn_backIn` the last one;
* `callee_in_call`     **code in a call**.
-/

namespace Onx.Vm
open Machine

/-- the same state in a call -/
def inCall (caller : Cell × Nat) (rest : List (Cell × Nat)) (s : Interpreter) : Interpreter :=
  { s with
    callStack := s.callStack ++ caller :: rest
    controlRegisters := { s.controlRegisters with c0 := callerOf (s.callStack ++ caller :: rest) } }

/-- the caller goes on -/
def backIn (caller : Cell × Nat) (rest : List (Cell × Nat)) (c0 : Option Continuation) (s : Interpreter) :
    Interpreter :=
  { s with
    callStack := rest
    currentCode := caller.1
    pcBits := caller.2
    controlRegisters := { s.controlRegisters with c0 := c0 } }

/-- the code that is called, alone -/
def alone (target : Cell) (s : Interpreter) : Interpreter :=
  { s with
    callStack := []
    currentCode := target
    pcBits := 0
    controlRegisters := { s.controlRegisters with c0 := none } }

/-- **A call begins** with the code that is called, in a call from where the caller is. -/
theorem transferTo_call {refIdx : Nat} {s : Interpreter} {target : Cell}
    (h : s.codeRefs[refIdx]? = some target) :
    transferTo refIdx true s = .ok () (inCall (s.currentCode, s.pcBits) s.callStack (alone target s)) := by
  rw [transferTo_apply, h]
  rfl

section
variable {caller : Cell × Nat} {rest : List (Cell × Nat)}

/-- alone and in a call, with the return address where it belongs -/
def Called (caller : Cell × Nat) (rest : List (Cell × Nat)) (s t : Interpreter) : Prop :=
  Mirror s ∧ t = inCall caller rest s

/-- what comes of an instruction: the code goes on in the call, or the caller does -/
def CalledOn (caller : Cell × Nat) (rest : List (Cell × Nat)) :
    Bool → Interpreter → Bool → Interpreter → Prop
  | true, s, b, t => b = true ∧ (Mirror s → t = inCall caller rest s)
  | false, s, b, t => b = true ∧ ∃ c0, t = backIn caller rest c0 s

theorem placed_called (caller : Cell × Nat) (rest : List (Cell × Nat)) : Placed (Called caller rest) := by
  rintro s _ ⟨hs, rfl⟩
  exact ⟨rfl, rfl, fun _ => ⟨hs, rfl⟩⟩

/-- states alone and in a call -/
def besides (caller : Cell × Nat) (rest : List (Cell × Nat)) : Likeness where
  R := Called caller rest
  Q := CalledOn caller rest
  G _ _ := False
  H _ _ := False
  stacked := by
    rintro s _ ⟨hs, rfl⟩
    refine ⟨[], (List.append_nil _).symm, fun h => absurd rfl h, fun stack => ?_⟩
    rw [List.append_nil]
    exact ⟨hs, rfl⟩
  reads := (placed_called caller rest).reads
  jumps := (placed_called caller rest).jumps
  gas := by
    rintro amount s _ ⟨hs, rfl⟩
    rw [consumeGas_apply, consumeGas_apply]
    show Alike _ _ _ _ _ (if gasAfter s amount > s.gasLimit.toNat then _ else _)
    split_ifs
    · exact .err ⟨hs, rfl⟩
    · exact .ok ⟨rfl, hs, rfl⟩
  transfers := by
    rintro refIdx call s _ ⟨hs, rfl⟩
    rw [transferTo_apply, transferTo_apply]
    show Alike _ _ _ _ _ (match s.codeRefs[refIdx]? with | none => _ | some target => _)
    cases s.codeRefs[refIdx]? with
    | none => exact .err ⟨hs, rfl⟩
    | some target =>
      cases call with
      | false => exact .ok ⟨rfl, hs, rfl⟩
      | true => exact .ok ⟨rfl, rfl, rfl⟩
  returns := by
    rintro s _ ⟨hs, rfl⟩
    rw [returnToCaller_apply, returnToCaller_apply, hs]
    unfold inCall dropCaller
    cases hcalls : s.callStack with
    | nil =>
      refine .ok ⟨rfl, callerOf rest, ?_⟩
      rfl
    | cons top below =>
      refine .ok ⟨rfl, fun _ => ?_⟩
      unfold inCall Interpreter.jumpTo
      dsimp only
      rw [hcalls]
      rfl
  leaves := by
    rintro s _ ⟨hs, rfl⟩
    unfold leave
    rw [get_bind, get_bind]
    unfold inCall
    dsimp only
    unfold Mirror at hs
    cases hcalls : s.callStack with
    | nil => exact .ok ⟨rfl, _, rfl⟩
    | cons top below =>
      rw [hcalls] at hs
      refine .ok ⟨rfl, fun hmirror => ?_⟩
      -- the caller below is the one that `c0` is left with
      have hsame : callerOf below = callerOf (top :: below) := hmirror.symm.trans hs
      cases below with
      | nil => cases hsame
      | cons next below =>
        have hnext : callerOf (next :: below ++ caller :: rest)
            = callerOf (top :: next :: below ++ caller :: rest) := hsame
        unfold inCall
        dsimp only
        rw [hnext]
        rfl
  goes := by
    rintro s t ⟨_, rfl⟩
    exact ⟨rfl, fun _ => rfl⟩

variable {c : Crypto} {s t u : Interpreter}

theorem mirror_inCall (s : Interpreter) : Mirror (inCall caller rest s) := rfl

/-- **A step** alone and in a call. -/
theorem step_inCall (c : Crypto) (hs : Mirror s) :
    Alike (Called caller rest) (fun _ _ => False) (fun _ _ => False) (CalledOn caller rest) (step c s)
      (step c (inCall caller rest s)) :=
  @Likeness.alike_step (besides caller rest) c s _ ⟨hs, rfl⟩
    ((placed_called caller rest).end_iff ⟨hs, rfl⟩)

/-- an exception goes to the handler in the call as well -/
theorem raised_inCall (e : ExceptionKind) (s : Interpreter) :
    raised e (inCall caller rest s) = (raised e s).map (inCall caller rest) := by
  have hc2 : (inCall caller rest s).controlRegisters.c2 = s.controlRegisters.c2 := rfl
  unfold raised
  rw [hc2]
  cases s.controlRegisters.c2 with
  | none => rfl
  | some handler =>
    dsimp only
    unfold pushI128
    rw [push_apply, push_apply]
    by_cases hfull : s.stack.length ≥ MAX_STACK_DEPTH
    · have hfull' : (inCall caller rest s).stack.length ≥ MAX_STACK_DEPTH := hfull
      rw [if_pos hfull, if_pos hfull']
      rfl
    · have hroom' : ¬ (inCall caller rest s).stack.length ≥ MAX_STACK_DEPTH := hfull
      rw [if_neg hfull, if_neg hroom']
      rfl

/-- the return address stays where it belongs -/
theorem mirror_turn (hs : Mirror s) (hforgets : ¬ Forgets s) (h : turn c s = .next t) : Mirror t := by
  unfold turn at h
  cases hstep : step c s with
  | ok b u =>
    rw [hstep] at h
    cases b with
    | false => cases h
    | true =>
      cases h
      have hagain : again c s = .next t := by
        unfold again
        rw [hstep]
      exact (mirror_again hs hagain).mpr hforgets
  | err e u =>
    have hagain : again c s = .next u := by
      unfold again
      rw [hstep]
    have hu := (mirror_again hs hagain).mpr hforgets
    rw [hstep] at h
    unfold raised at h
    dsimp only at h
    cases hc2 : u.controlRegisters.c2 with
    | none =>
      rw [hc2] at h
      cases h
    | some handler =>
      rw [hc2] at h
      dsimp only at h
      unfold pushI128 at h
      rw [push_apply] at h
      split_ifs at h
      cases h
      exact hu
  | panic =>
    rw [hstep] at h
    cases h

/-- **A turn in a call**, unless it is the last one. -/
theorem turn_inCall (hs : Mirror s) (hforgets : ¬ Forgets s) (hgoes : ∀ u, step c s ≠ .ok false u) :
    turn c (inCall caller rest s) = (turn c s).map (inCall caller rest) := by
  have halike := @step_inCall caller rest _ c hs
  have hmirror := fun t => mirror_turn (c := c) (t := t) hs hforgets
  unfold turn at hmirror ⊢
  generalize hstep : step c s = r at halike hmirror hgoes
  generalize step c (inCall caller rest s) = r' at halike
  cases halike with
  | @ok b s' b' t' h =>
    cases b with
    | true =>
      obtain ⟨rfl, heq⟩ := h
      rw [heq (hmirror s' rfl)]
      rfl
    | false => exact absurd rfl (hgoes s')
  | @err e s' t' h =>
    obtain ⟨_, rfl⟩ := h
    exact raised_inCall e s'
  | panic => rfl
  | first hno => exact absurd hno not_false
  | second hno => exact absurd hno not_false

/-- where the caller of the code finds its own return address -/
def returnOf (s : Interpreter) (caller : Cell × Nat) (rest : List (Cell × Nat)) : Option Continuation :=
  if s.pcBits ≥ s.totalBits then callerOf (caller :: rest) else callerOf rest

/-- code that comes to its end -/
theorem leave_inCall (hcalls : s.callStack = []) :
    leave (inCall caller rest s) = .ok true (backIn caller rest (callerOf (caller :: rest)) s) := by
  unfold leave inCall
  rw [get_bind, hcalls]
  rfl

/-- **The last turn** of the code in a call: its caller goes on. -/
theorem turn_backIn (hs : Mirror s) (h : step c s = .ok false u) :
    turn c (inCall caller rest s) = .next (backIn caller rest (returnOf s caller rest) u) := by
  have hstep : step c (inCall caller rest s) = .ok true (backIn caller rest (returnOf s caller rest) u) := by
    unfold returnOf
    by_cases hend : s.pcBits ≥ s.totalBits
    · have hend' : (inCall caller rest s).pcBits ≥ (inCall caller rest s).totalBits := hend
      rw [step_of_end hend] at h
      rw [if_pos hend, step_of_end hend']
      rcases leave_ok h with ⟨hgoes, _⟩ | ⟨_, hcalls, rfl⟩
      · cases hgoes
      · exact leave_inCall hcalls
    · have halike := @step_inCall caller rest _ c hs
      rw [h] at halike
      generalize hrun : step c (inCall caller rest s) = r at halike ⊢
      rw [if_neg hend]
      cases halike with
      | ok hQ =>
        obtain ⟨rfl, c0, rfl⟩ := hQ
        -- `RET` leaves the mirror of the call stack in `c0`
        have hagain : again c (inCall caller rest s) = .next (backIn caller rest c0 u) := by
          unfold again
          rw [hrun]
        have hc0 : c0 = callerOf rest :=
          (mirror_again (mirror_inCall s) hagain).mpr (not_forgets_of_code hend)
        rw [hc0]
      | second hno => exact absurd hno not_false
  unfold turn
  rw [hstep]

/-! ## runs -/

/-- the run keeps to its own calls, and `c0` with them -/
structure KeepsCalls (c : Crypto) (s : Interpreter) : Prop where
  mirror : Mirror s
  not_forgets : ∀ n t, run c n s = .next t → ¬ Forgets t

theorem KeepsCalls.run_mirror (h : KeepsCalls c s) {n : Nat} (hn : run c n s = .next t) : Mirror t := by
  induction n generalizing t with
  | zero =>
    cases hn
    exact h.mirror
  | succ n ih =>
    unfold run at hn ih
    rw [loop_succ] at hn
    cases hprev : loop (turn c) n s with
    | next u =>
      rw [hprev] at hn
      exact mirror_turn (ih hprev) (h.not_forgets n u hprev) hn
    | done r =>
      rw [hprev] at hn
      cases hn
    | panic =>
      rw [hprev] at hn
      cases hn

/-- the run has not come to the end of its code -/
def GoesOn (c : Crypto) (n : Nat) (s : Interpreter) : Prop :=
  ∀ newData outMessages gasUsed, run c n s ≠ .done (.success newData outMessages gasUsed)

theorem KeepsCalls.run_inCall (h : KeepsCalls c s) {n : Nat} (hgoes : GoesOn c n s) :
    run c n (inCall caller rest s) = (run c n s).map (inCall caller rest) := by
  induction n with
  | zero => rfl
  | succ n ih =>
    unfold GoesOn at hgoes ih
    unfold run at hgoes ih ⊢
    rw [loop_succ] at hgoes ⊢
    rw [loop_succ]
    cases hn : loop (turn c) n s with
    | next t =>
      rw [hn] at hgoes ih
      rw [ih fun _ _ _ hno => by cases hno]
      refine turn_inCall (h.run_mirror hn) (h.not_forgets n t hn) fun u hu => ?_
      refine hgoes u.data u.outMessages u.gasUsed ?_
      show turn c t = _
      unfold turn
      rw [hu]
    | done r =>
      rw [hn] at hgoes ih
      rw [ih hgoes]
      rfl
    | panic =>
      rw [hn] at ih
      rw [ih fun _ _ _ hno => by cases hno]
      rfl

/-- **Code in a call**: it runs as it does alone, and where that would have succeeded, its caller goes on. -/
theorem callee_in_call (c : Crypto) (s : Interpreter) (caller : Cell × Nat) (rest : List (Cell × Nat))
    (h : KeepsCalls c s) :
    (∀ n, GoesOn c n s → run c n (inCall caller rest s) = (run c n s).map (inCall caller rest))
    ∧ ∀ n t u, run c n s = .next t → step c t = .ok false u →
      run c (n + 1) (inCall caller rest s) = .next (backIn caller rest (returnOf t caller rest) u) := by
  refine ⟨fun n hgoes => h.run_inCall hgoes, fun n t u ht hu => ?_⟩
  have hin : run c n (inCall caller rest s) = .next (inCall caller rest t) := by
    rw [h.run_inCall, ht]
    · rfl
    · intro newData outMessages gasUsed hdone
      rw [ht] at hdone
      cases hdone
  unfold run at hin ⊢
  rw [loop_succ, hin]
  exact turn_backIn (h.run_mirror ht) hu

/-- code that makes a builder -/
def newBuilderCode : Interpreter := Interpreter.new (byteCell 0x40) emptyCell sampleMessage sampleContext

theorem keepsCalls_newBuilderCode : KeepsCalls sampleCrypto newBuilderCode := by
  refine ⟨rfl, fun n t ht hforgets => hforgets.2.1 ?_⟩
  have hdone : run sampleCrypto 2 newBuilderCode = .done (.success emptyCell [] 10) := rfl
  match n with
  | 0 =>
    cases ht
    rfl
  | 1 =>
    cases ht
    rfl
  | n + 2 =>
    rw [Nat.add_comm] at ht
    unfold run at ht hdone
    rw [loop_stays (not_next_of_done hdone), hdone] at ht
    cases ht

/-- the caller goes on with the builder -/
theorem callee_in_call_sample : ∃ t,
    run sampleCrypto 2 (inCall (callOnceCode, 16) [] newBuilderCode) = .next t
      ∧ t.currentCode = callOnceCode ∧ t.pcBits = 16 ∧ t.callStack = []
      ∧ t.stack = [.builder Builder.default] :=
  ⟨_, (callee_in_call sampleCrypto newBuilderCode (callOnceCode, 16) [] keepsCalls_newBuilderCode).2
    1 _ _ rfl rfl, rfl, rfl, rfl, rfl⟩

end

end Onx.Vm
