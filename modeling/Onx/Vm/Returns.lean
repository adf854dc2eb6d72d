import Onx.Vm.Handler

/-!
# Return addresses

The return address of a call is in `c0` and on the call stack.  Calls, `RET` and `IFRET` keep the
two in step.  The end of a code cell takes the address off the call stack only, so that `c0` is one
call behind, and a later `RET` goes to code that was already left.

* `Mirror`             `c0` is the top of the call stack;
* `Forgets`            the end of a code cell, with another caller below the top;
* `steps`              steps one after the other, whether they succeed or not;
* `resumed`, `called`  where a step returns to, and where the call that it makes returns to;
* `InStep`             the mirror, and what follows from it: a callee is left the same way by its end
                       and by `RET`, and code after a call is returned to no more often than called;
* `inStep_iff`         **when return addresses are in step**;
* `returns_twice`      one call, after which the code goes on twice.
-/

namespace Onx.Vm
open Machine

/-- the continuation of the innermost caller -/
def callerOf (callStack : List (Cell × Nat)) : Option Continuation :=
  callStack.head?.map (fun (code, pc) => ⟨code, pc⟩)

def Mirror (s : Interpreter) : Prop := s.controlRegisters.c0 = callerOf s.callStack

/-- the caller to go back to is not the one that `c0` is left with -/
def Forgets (s : Interpreter) : Prop :=
  s.pcBits ≥ s.totalBits ∧ s.callStack ≠ [] ∧ callerOf s.callStack.tail ≠ callerOf s.callStack

/-- a step, whether it succeeds or not -/
def again (c : Crypto) (s : Interpreter) : Turn Interpreter Unit :=
  match step c s with
  | .ok _ t => .next t
  | .err _ t => .next t
  | .panic => .panic

def steps (c : Crypto) (n : Nat) (s : Interpreter) : Turn Interpreter Unit := loop (again c) n s

/-- the condition of `IFRET` -/
def conditionHolds (s : Interpreter) : Bool :=
  match s.stack with
  | .integer x :: _ => decide (toI128 x ≠ 0)
  | _ => false

/-- the caller that a step goes back to -/
def resumed (c : Crypto) (s : Interpreter) : Option Continuation :=
  match step c s with
  | .ok true _ =>
    if s.pcBits ≥ s.totalBits then callerOf s.callStack
    else match opcodeAt s with
      | some .ret => s.controlRegisters.c0
      | some .ifRet => if conditionHolds s then s.controlRegisters.c0 else none
      | _ => none
  | _ => none

/-- the code after the call that a step makes -/
def called (c : Crypto) (s : Interpreter) : Option Continuation :=
  match step c s with
  | .ok _ t => if t.callStack.length > s.callStack.length then callerOf t.callStack else none
  | _ => none

section
variable {c : Crypto} {s t u : Interpreter}

/-! ## one step -/

theorem mirror_local (hs : Mirror s) (h : Local s t) : Mirror t := by
  obtain ⟨_, _, rfl⟩ := h
  exact hs

theorem mirror_moved (hs : Mirror s) (h : Moved s t) : Mirror t := by
  cases h with
  | stays h => exact mirror_local hs h
  | jumps h _ =>
    obtain ⟨_, _, rfl⟩ := h
    exact hs
  | calls h _ => rfl
  | returns h _ => rfl

theorem not_forgets_of_code (h : ¬ s.pcBits ≥ s.totalBits) : ¬ Forgets s :=
  fun hforgets => h hforgets.1

/-- **A step keeps the mirror**, unless it forgets the caller. -/
theorem mirror_again (hs : Mirror s) (h : again c s = .next t) : Mirror t ↔ ¬ Forgets s := by
  unfold again at h
  have hcases := step_cases c s
  generalize step c s = r at h hcases
  cases hcases with
  | finished hend hstack =>
    cases h
    exact iff_of_true hs fun hforgets => hforgets.2.1 hstack
  | @left hend code pc rest hstack =>
    cases h
    have hc0 : s.controlRegisters.c0 = callerOf ((code, pc) :: rest) := hstack ▸ hs
    unfold Mirror Forgets
    rw [hstack]
    show s.controlRegisters.c0 = callerOf rest ↔ _
    rw [hc0]
    constructor
    · exact fun heq hforgets => hforgets.2.2 heq.symm
    · intro hforgets
      by_contra hne
      exact hforgets ⟨hend, List.cons_ne_nil _ _, Ne.symm hne⟩
  | unpaid hcode _ hlocal _ =>
    cases h
    exact iff_of_true (mirror_local hs hlocal) (not_forgets_of_code hcode)
  | @outOfGas n u hcode _ hlocal _ _ =>
    cases h
    exact iff_of_true (show Mirror u from mirror_local hs hlocal) (not_forgets_of_code hcode)
  | @paid n u r hcode _ hlocal _ _ hfinal =>
    have hu : Mirror (pay u n) := show Mirror u from mirror_local hs hlocal
    refine iff_of_true ?_ (not_forgets_of_code hcode)
    cases r with
    | ok b v =>
      cases h
      exact mirror_moved hu hfinal
    | err e v =>
      cases h
      exact mirror_local hu hfinal.1
    | panic => cases h
  | panicked => cases h

/-! ## calls and returns -/

/-- a return takes the caller off the call stack -/
theorem returnToCaller_ok {b : Bool} (h : returnToCaller s = .ok b t)
    (hc0 : s.controlRegisters.c0 ≠ none) : t.callStack = s.callStack.tail := by
  rw [returnToCaller_apply] at h
  cases hk : s.controlRegisters.c0 with
  | none => exact absurd hk hc0
  | some k =>
    rw [hk] at h
    cases h
    rfl

/-- gas is paid before anything else happens -/
theorem consumeGas_ok {α : Type} {amount : Nat} {m : Instr α} {a : α}
    (h : (consumeGas amount >>= fun _ => m) s = .ok a t) : m (pay s amount) = .ok a t := by
  rw [bind_apply, consumeGas_apply] at h
  split_ifs at h
  exact h

theorem resumed_ret {b : Bool} (hop : opcodeAt s = some .ret) (h : step c s = .ok b t)
    (hc0 : s.controlRegisters.c0 ≠ none) : t.callStack = s.callStack.tail := by
  rw [step_of_opcode hop] at h
  exact returnToCaller_ok (s := pay (behindOpcode s) 4) (consumeGas_ok h) hc0

theorem popNonzero_of_stack {x : Uint256} {rest : List StackValue}
    (h : s.stack = .integer x :: rest) :
    popNonzero s = .ok (decide (toI128 x ≠ 0)) { s with stack := rest } := by
  have hpop : pop s = .ok (.integer x) { s with stack := rest } := by rw [pop_apply, h]
  unfold popNonzero popI128 popInteger
  rw [bind_bind, bind_bind, bind_ok hpop]
  rfl

theorem resumed_ifRet {b : Bool} (hop : opcodeAt s = some .ifRet) (h : step c s = .ok b t)
    (hcond : conditionHolds s = true) (hc0 : s.controlRegisters.c0 ≠ none) :
    t.callStack = s.callStack.tail := by
  rw [step_of_opcode hop] at h
  have hrun := consumeGas_ok h
  unfold conditionHolds at hcond
  split at hcond
  · rename_i x rest hstack
    have hpop : popNonzero (pay (behindOpcode s) 4) = .ok _ _ := popNonzero_of_stack hstack
    rw [bind_ok hpop, if_pos hcond] at hrun
    have htail := returnToCaller_ok hrun hc0
    exact htail
  · cases hcond

theorem callerOf_eq_some {k : Continuation} {callStack : List (Cell × Nat)}
    (h : callerOf callStack = some k) : ∃ rest, callStack = (k.code, k.pcBits) :: rest := by
  cases callStack with
  | nil => cases h
  | cons caller rest =>
    cases h
    exact ⟨rest, rfl⟩

/-- a step that goes back to a caller takes it off the call stack -/
theorem callStack_of_resumed {k : Continuation} (hs : Mirror s) (h : resumed c s = some k) :
    ∃ t rest, step c s = .ok true t ∧ s.callStack = (k.code, k.pcBits) :: rest
      ∧ t.callStack = rest := by
  unfold resumed at h
  split at h
  case h_2 => cases h
  rename_i t hstep
  by_cases hend : s.pcBits ≥ s.totalBits
  · rw [if_pos hend] at h
    obtain ⟨rest, hstack⟩ := callerOf_eq_some h
    rw [step_of_end hend] at hstep
    rcases leave_ok hstep with ⟨_, code, pc, rest', hstack', rfl⟩ | ⟨_, hnil, _⟩
    · rw [hstack] at hstack'
      cases hstack'
      exact ⟨_, rest, (step_of_end hend).trans hstep, hstack, rfl⟩
    · rw [hstack] at hnil
      cases hnil
  · rw [if_neg hend] at h
    -- `RET` and `IFRET` go to `c0`, which is the top of the call stack
    have htail : s.controlRegisters.c0 = some k ∧ t.callStack = s.callStack.tail := by
      split at h
      · rename_i hop
        exact ⟨h, resumed_ret hop hstep (h ▸ Option.some_ne_none k)⟩
      · rename_i hop
        split_ifs at h with hcond
        exact ⟨h, resumed_ifRet hop hstep hcond (h ▸ Option.some_ne_none k)⟩
      · cases h
    obtain ⟨rest, hstack⟩ := callerOf_eq_some (hs.symm.trans htail.1)
    exact ⟨t, rest, hstep, hstack, htail.2.trans (congrArg List.tail hstack)⟩

/-- how often a continuation is to be returned to -/
def pending (k : Continuation) (s : Interpreter) : Nat := s.callStack.count (k.code, k.pcBits)

theorem pending_moved {k : Continuation} (h : Moved s t) :
    pending k t ≤ pending k s + if t.callStack.length > s.callStack.length
      ∧ callerOf t.callStack = some k then 1 else 0 := by
  unfold pending
  cases h with
  | stays h => rw [h.callStack_eq]; exact Nat.le_add_right _ _
  | @jumps u h target =>
    show u.callStack.count _ ≤ _
    rw [h.callStack_eq]
    exact Nat.le_add_right _ _
  | @calls u h target =>
    show ((u.currentCode, u.pcBits) :: u.callStack).count _ ≤ _ + if
      ((u.currentCode, u.pcBits) :: u.callStack).length > _
        ∧ some (Continuation.mk u.currentCode u.pcBits) = some k then 1 else 0
    rw [h.callStack_eq, List.count_cons]
    obtain ⟨code, pc⟩ := k
    simp
  | @returns u h k' hc0 =>
    show u.callStack.tail.count _ ≤ _
    rw [h.callStack_eq]
    exact ((List.tail_sublist s.callStack).count_le _).trans (Nat.le_add_right _ _)

/-- **A step returns to a place** only if a call from there was still open. -/
theorem pending_again (k : Continuation) (hs : Mirror s) (h : again c s = .next t) :
    pending k t + (if resumed c s = some k then 1 else 0)
      ≤ pending k s + if called c s = some k then 1 else 0 := by
  by_cases hresumed : resumed c s = some k
  · obtain ⟨u, rest, hstep, hstack, hrest⟩ := callStack_of_resumed hs hresumed
    unfold again at h
    rw [hstep] at h
    cases h
    rw [if_pos hresumed]
    unfold pending
    rw [hstack, hrest, List.count_cons_self]
    omega
  · rw [if_neg hresumed, Nat.add_zero]
    unfold again at h
    have hcases := step_cases c s
    generalize hrun : step c s = r at h hcases
    have hsame : ∀ {u}, u.callStack = s.callStack → pending k u ≤ pending k s := by
      intro u hu
      unfold pending
      rw [hu]
    cases hcases with
    | finished =>
      cases h
      exact Nat.le_add_right _ _
    | left hend hstack =>
      cases h
      unfold pending
      rw [hstack]
      exact (List.count_le_count_cons).trans (Nat.le_add_right _ _)
    | unpaid _ _ hlocal _ =>
      cases h
      exact (hsame hlocal.callStack_eq).trans (Nat.le_add_right _ _)
    | outOfGas _ _ hlocal _ _ =>
      cases h
      exact (hsame hlocal.callStack_eq).trans (Nat.le_add_right _ _)
    | @paid n u r _ _ hlocal _ _ hfinal =>
      have hcalls : (pay u n).callStack = s.callStack := hlocal.callStack_eq
      cases r with
      | ok b v =>
        cases h
        have hpending := pending_moved (k := k) hfinal
        rw [hcalls] at hpending
        refine hpending.trans (Nat.add_le_add (hsame hcalls) ?_)
        by_cases hcalled : t.callStack.length > s.callStack.length ∧ callerOf t.callStack = some k
        · have hcall : called c s = some k := by
            unfold called
            rw [hrun]
            exact (if_pos hcalled.1).trans hcalled.2
          rw [if_pos hcalled, if_pos hcall]
        · rw [if_neg hcalled]
          exact Nat.zero_le _
      | err e v =>
        cases h
        exact (hsame (hfinal.1.callStack_eq.trans hcalls)).trans (Nat.le_add_right _ _)
      | panic => cases h
    | panicked => cases h

end

/-! ## runs -/

/-- the number of steps, of the first `n`, at which `f` is `k` -/
def tally (c : Crypto) (f : Interpreter → Option Continuation) (k : Continuation) :
    Nat → Interpreter → Nat
  | 0, _ => 0
  | n + 1, s => (if f s = some k then 1 else 0) + match again c s with
      | .next t => tally c f k n t
      | _ => 0

/-- what it means that the return register mirrors the call stack -/
structure InStep (c : Crypto) (s : Interpreter) : Prop where
  mirror : ∀ n t, steps c n s = .next t → Mirror t
  /-- at the end of a callee, `RET` would do the same -/
  leave_eq : ∀ n t, steps c n s = .next t → t.pcBits ≥ t.totalBits → t.callStack ≠ [] →
    step c t = returnToCaller t
  /-- code after a call is returned to no more often than called -/
  once : ∀ n k, tally c (resumed c) k n s ≤ tally c (called c) k n s

/-- the end of a code cell, and `RET` -/
theorem leave_eq_returnToCaller {s : Interpreter} (hs : Mirror s) (hcalls : s.callStack ≠ [])
    (h : callerOf s.callStack.tail = callerOf s.callStack) : leave s = returnToCaller s := by
  have hregisters : { s.controlRegisters with c0 := callerOf s.callStack.tail }
      = s.controlRegisters := by rw [h, ← hs]
  unfold leave
  rw [get_bind, returnToCaller_apply]
  cases hstack : s.callStack with
  | nil => exact absurd hstack hcalls
  | cons caller rest =>
    have htop : s.controlRegisters.c0 = some ⟨caller.1, caller.2⟩ := hs.trans (hstack ▸ rfl)
    rw [htop]
    show _ = Res.ok true { s with
      currentCode := caller.1
      pcBits := caller.2
      callStack := s.callStack.tail
      controlRegisters := { s.controlRegisters with c0 := callerOf s.callStack.tail } }
    rw [hregisters, hstack]
    rfl

section
variable {c : Crypto}

theorem again_panic {s : Interpreter} (h : again c s = .panic) : step c s = .panic := by
  unfold again at h
  cases hs : step c s with
  | ok b t =>
    rw [hs] at h
    cases h
  | err e t =>
    rw [hs] at h
    cases h
  | panic => rfl

/-- **Returns and calls**, along a run in which the return register mirrors the call stack. -/
theorem tally_le (k : Continuation) (n : Nat) {s : Interpreter}
    (hmirror : ∀ n t, steps c n s = .next t → Mirror t) :
    tally c (resumed c) k n s ≤ tally c (called c) k n s + pending k s := by
  induction n generalizing s with
  | zero => exact Nat.zero_le _
  | succ n ih =>
    unfold tally
    cases h : again c s with
    | next t =>
      have ht : ∀ n u, steps c n t = .next u → Mirror u := fun n u hu =>
        hmirror (n + 1) u ((loop_succ_of_next h).trans hu)
      have hstep := pending_again k (hmirror 0 s rfl) h
      have hrest := ih ht
      dsimp only
      omega
    | done r =>
      unfold again at h
      cases hs : step c s <;> rw [hs] at h <;> cases h
    | panic =>
      have hnone : resumed c s = none := by
        unfold resumed
        rw [again_panic h]
      rw [hnone]
      exact Nat.zero_le _

theorem inStep_of_mirror {s : Interpreter} (hstack : s.callStack = [])
    (hmirror : ∀ n t, steps c n s = .next t → Mirror t ∧ ¬ Forgets t) : InStep c s where
  mirror := fun n t ht => (hmirror n t ht).1
  leave_eq := by
    intro n t ht hend hcalls
    obtain ⟨hs, hforgets⟩ := hmirror n t ht
    rw [step_of_end hend]
    refine leave_eq_returnToCaller hs hcalls ?_
    by_contra hne
    exact hforgets ⟨hend, hcalls, hne⟩
  once := by
    intro n k
    have hle := tally_le k n fun n t ht => (hmirror n t ht).1
    have hzero : pending k s = 0 := by
      unfold pending
      rw [hstack]
      rfl
    rw [hzero] at hle
    exact hle

/-- an interpreter with code to call -/
def Interpreter.fresh (code data : Cell) (message : Message) (context : ExecutionContext)
    (codeRefs : List Cell) : Interpreter :=
  { Interpreter.new code data message context with codeRefs := codeRefs }

/-- **When return addresses are in step**: along the runs in which no code cell comes to its end
with a caller to go back to that is not the caller before it. -/
theorem inStep_iff (c : Crypto) (code data : Cell) (message : Message) (context : ExecutionContext)
    (codeRefs : List Cell) :
    InStep c (Interpreter.fresh code data message context codeRefs)
      ↔ ∀ n t, steps c n (Interpreter.fresh code data message context codeRefs) = .next t →
          ¬ Forgets t := by
  constructor
  · intro hin n t ht
    have hs := hin.mirror n t ht
    cases h : again c t with
    | next u =>
      have hu : steps c (n + 1) (Interpreter.fresh code data message context codeRefs)
          = .next u := by
        unfold steps at ht ⊢
        rw [loop_succ, ht]
        exact h
      exact (mirror_again hs h).mp (hin.mirror (n + 1) u hu)
    | done r =>
      unfold again at h
      cases hstep : step c t <;> rw [hstep] at h <;> cases h
    | panic =>
      -- the end of a code cell does not panic
      rintro ⟨hend, hcalls, _⟩
      have hpanic := again_panic h
      rw [step_of_end hend] at hpanic
      have hleave := stepped_leave hend
      rw [hpanic] at hleave
      cases hleave with
      | paid hcode => exact hcode hend
      | panicked hcode => exact hcode hend
  · intro hforgets
    refine inStep_of_mirror rfl fun n => ?_
    induction n with
    | zero =>
      intro t ht
      have hforget := hforgets 0 t ht
      cases ht
      exact ⟨rfl, hforget⟩
    | succ n ih =>
      intro t ht
      have hforget := hforgets (n + 1) t ht
      unfold steps at ht ih
      rw [loop_succ] at ht
      cases hn : loop (again c) n _ with
      | next u =>
        rw [hn] at ht
        obtain ⟨hu, hforgetsu⟩ := ih u hn
        exact ⟨(mirror_again hu ht).mpr hforgetsu, hforget⟩
      | done r =>
        rw [hn] at ht
        cases ht
      | panic =>
        rw [hn] at ht
        cases ht

end

/-! ## a call that returns twice -/

/-- a call of the first cell, a builder, and a return -/
def callOnceCode : Cell :=
  ⟨[0x71, 0, 0x40, 0x72], [], false, Nat.le_of_ble_eq_true rfl, Nat.zero_le _⟩

/-- the callee is empty: it is left by its end -/
def callOnce : Interpreter :=
  Interpreter.fresh callOnceCode emptyCell sampleMessage sampleContext [emptyCell]

/-- one call, two returns behind it, and two builders -/
theorem returns_twice :
    tally sampleCrypto (called sampleCrypto) ⟨callOnceCode, 16⟩ 5 callOnce = 1
    ∧ tally sampleCrypto (resumed sampleCrypto) ⟨callOnceCode, 16⟩ 5 callOnce = 2
    ∧ (match steps sampleCrypto 5 callOnce with
      | .next t => t.stack
      | _ => []) = [.builder Builder.default, .builder Builder.default]
    ∧ ¬ ∀ c code data message context codeRefs,
      InStep c (Interpreter.fresh code data message context codeRefs) := by
  have hcalled : tally sampleCrypto (called sampleCrypto) ⟨callOnceCode, 16⟩ 5 callOnce = 1 := by
    decide +kernel
  have hresumed : tally sampleCrypto (resumed sampleCrypto) ⟨callOnceCode, 16⟩ 5 callOnce = 2 := by
    decide +kernel
  refine ⟨hcalled, hresumed, by decide +kernel, fun h => ?_⟩
  have hle := (h sampleCrypto callOnceCode emptyCell sampleMessage sampleContext
    [emptyCell]).once 5 ⟨callOnceCode, 16⟩
  change tally _ _ _ 5 callOnce ≤ tally _ _ _ 5 callOnce at hle
  rw [hcalled, hresumed] at hle
  exact absurd hle (by decide)

end Onx.Vm
