import Onx.Vm.Gas

/-!
# Exception handlers and gas

A handler in `c2` is entered after every exception, with the number of the exception on the stack.
A passage through it pays gas, or makes the stack longer, unless the handler begins with one of the
three instructions that pop before they pay: these take the number off again, and fail again.

* `Opcode.PopsFirst`       these instructions;
* `charge_stack`           the other ones leave the stack as it is until they have paid;
* `handled_next`           a turn that does not pay comes nearer to the end;
* `run_forever`            a handler that pops first is not left again;
* `run_ends_iff`           **when a run with a handler ends**;
* `handler_loops`          a run that does not.
-/

namespace Onx.Vm
open Machine

/-- the instructions that look at their operands before they pay -/
def Opcode.PopsFirst (op : Opcode) : Prop := op = .concat ∨ op = .byteEq ∨ op = .stBytes

/-- the first instruction of a handler pops before it pays -/
def Continuation.PopsFirst (handler : Continuation) : Prop :=
  ∃ op, (byteAt handler.code handler.pcBits).bind Opcode.ofByte = some op ∧ op.PopsFirst

/-- the step raises an exception whose number fits on the stack -/
def Enters (c : Crypto) (s : Interpreter) : Prop :=
  ∃ e t, step c s = .err e t ∧ t.stack.length < MAX_STACK_DEPTH

/-- the next instruction pays its gas -/
def Pays (s : Interpreter) : Prop :=
  ∃ n, charged s = some n ∧ gasAfter s n ≤ s.gasLimit.toNat

/-! ## before the gas -/

def SameStack (s t : Interpreter) : Prop := t.stack = s.stack

instance : Std.Refl SameStack := ⟨fun _ => rfl⟩

instance : IsTrans Interpreter SameStack := ⟨fun _ _ _ h h' => h'.trans h⟩

/-- a program that leaves the stack as it is -/
abbrev Unstacked {α : Type} (m : Instr α) : Prop :=
  Moves SameStack (fun _ => True) m fun _ => True

theorem unstacked_readUint8 : Unstacked readUint8 := by
  intro s
  rw [readUint8_apply]
  cases byteAt s.currentCode s.pcBits with
  | none => exact ⟨rfl, trivial⟩
  | some b => exact ⟨rfl, trivial⟩

theorem unstacked_cost {op : Opcode} (h : ¬ op.PopsFirst) : Unstacked op.cost := by
  cases op with
  | concat => exact absurd (Or.inl rfl) h
  | byteEq => exact absurd (Or.inr (Or.inl rfl)) h
  | stBytes => exact absurd (Or.inr (Or.inr rfl)) h
  | pushBytes =>
    refine moves_bind (P := fun _ => True) ?_ fun _ _ => moves_pure trivial
    exact moves_bind unstacked_readUint8 fun _ _ =>
      moves_bind unstacked_readUint8 fun _ _ => moves_pure trivial
  | _ => exact moves_pure trivial

/-- the stack stays as it is until the instruction has paid -/
theorem charge_stack {s : Interpreter} (h : ¬ ∃ op, opcodeAt s = some op ∧ op.PopsFirst) :
    match charge s with
    | .ok _ u => u.stack = s.stack
    | .err _ u => u.stack = s.stack
    | .panic => True := by
  unfold charge opcodeAt at *
  rw [bind_apply, readUint8_apply]
  cases hb : byteAt s.currentCode s.pcBits with
  | none => rfl
  | some b =>
    rw [hb] at h
    dsimp only
    cases hop : Opcode.ofByte b with
    | none => rfl
    | some op =>
      have hcost : ¬ op.PopsFirst := fun hpops => h ⟨op, hop, hpops⟩
      rw [ofOption_some_bind]
      have hrun := unstacked_cost hcost { s with pcBits := s.pcBits + 8 }
      cases hr : op.cost { s with pcBits := s.pcBits + 8 } with
      | ok n u =>
        rw [hr] at hrun
        exact hrun.1
      | err e u =>
        rw [hr] at hrun
        exact hrun.1
      | panic => trivial

/-! ## one turn -/

/-- the state in which the handler begins -/
def enter (handler : Continuation) (kind : ExceptionKind) (self : Interpreter) : Interpreter :=
  { self with stack := .integer (fromI128 kind.discriminator) :: self.stack }.jumpTo handler

theorem raised_of_c2 {handler : Continuation} {kind : ExceptionKind} {s : Interpreter}
    (hc2 : s.controlRegisters.c2 = some handler) :
    raised kind s = if s.stack.length < MAX_STACK_DEPTH then .next (enter handler kind s)
      else .done (.exception kind s.gasUsed) := by
  unfold raised pushI128
  rw [hc2]
  dsimp only
  rw [push_apply]
  by_cases h : s.stack.length ≥ MAX_STACK_DEPTH
  · rw [if_pos h, if_neg (Nat.not_lt.mpr h)]
  · rw [if_neg h, if_pos (Nat.not_le.mp h)]
    rfl

/-- whether a state is where the handler begins -/
def atHandler (handler : Continuation) (s : Interpreter) : Prop :=
  s.currentCode = handler.code ∧ s.pcBits = handler.pcBits

instance (handler : Continuation) (s : Interpreter) : Decidable (atHandler handler s) :=
  inferInstanceAs (Decidable (_ ∧ _))

/-- callers, then whether the handler is still to be entered, then the room on the stack -/
def distance (handler : Continuation) (s : Interpreter) : Nat × Nat × Nat :=
  (s.callStack.length, if atHandler handler s then 0 else 1, MAX_STACK_DEPTH - s.stack.length)

def Retreats (handler : Continuation) (t s : Interpreter) : Prop :=
  Prod.Lex (· < ·) (Prod.Lex (· < ·) (· < ·)) (distance handler t) (distance handler s)

theorem retreats_wf (handler : Continuation) : WellFounded (Retreats handler) :=
  InvImage.wf _ (Prod.lex ⟨_, Nat.lt_wfRel.wf⟩ (Prod.lex ⟨_, Nat.lt_wfRel.wf⟩
    ⟨_, Nat.lt_wfRel.wf⟩)).wf

def gasLeft (s : Interpreter) : Nat := s.gasLimit.toNat - s.gasUsed.toNat

/-- a passage through the handler, where the stack was not touched or the handler is new -/
theorem enter_retreats {handler : Continuation} {kind : ExceptionKind} {s u : Interpreter}
    (hcalls : u.callStack = s.callStack) (hroom : u.stack.length < MAX_STACK_DEPTH)
    (hstack : atHandler handler s → u.stack = s.stack) :
    Retreats handler (enter handler kind u) s := by
  have hat : atHandler handler (enter handler kind u) := ⟨rfl, rfl⟩
  unfold Retreats distance
  rw [if_pos hat]
  show Prod.Lex _ _ (u.callStack.length, 0, MAX_STACK_DEPTH - (u.stack.length + 1)) _
  rw [hcalls]
  refine Prod.Lex.right _ ?_
  by_cases h : atHandler handler s
  · rw [if_pos h, ← hstack h]
    exact Prod.Lex.right _ (by omega)
  · rw [if_neg h]
    exact Prod.Lex.left _ _ one_pos

/-- the states of a run with a handler -/
structure Handled (handler : Continuation) (limit : Uint64) (s : Interpreter) : Prop where
  c2_eq : s.controlRegisters.c2 = some handler
  gasLimit_eq : s.gasLimit = limit

theorem Handled.free {handler : Continuation} {limit : Uint64} {s t : Interpreter}
    (hs : Handled handler limit s) (h : Free s t) : Handled handler limit t :=
  ⟨h.c2_eq.trans hs.c2_eq, h.gasLimit_eq.trans hs.gasLimit_eq⟩

theorem Handled.enter {handler : Continuation} {limit : Uint64} {s : Interpreter}
    (kind : ExceptionKind) (hs : Handled handler limit s) :
    Handled handler limit (Vm.enter handler kind s) := ⟨hs.c2_eq, hs.gasLimit_eq⟩

theorem Handled.turn {c : Crypto} {handler : Continuation} {limit : Uint64} {s t : Interpreter}
    (hs : Handled handler limit s) (h : turn c s = .next t) : Handled handler limit t := by
  unfold Vm.turn at h
  cases hstep : step c s with
  | ok b u =>
    rw [hstep] at h
    have hcases := step_cases c s
    rw [hstep] at hcases
    cases b with
    | true =>
      cases h
      cases hcases with
      | left => exact ⟨hs.c2_eq, hs.gasLimit_eq⟩
      | paid _ _ hlocal _ _ hfinal =>
        have hu := hs.free hlocal.free
        have hfree : Free _ t := Moved.free hfinal
        exact ⟨hfree.c2_eq.trans hu.c2_eq, hfree.gasLimit_eq.trans hu.gasLimit_eq⟩
    | false => cases h
  | err e u =>
    rw [hstep] at h
    have hu : Handled handler limit u := by
      obtain ⟨_, _, _, rfl⟩ := step_err_keeps hstep
      exact ⟨hs.c2_eq, hs.gasLimit_eq⟩
    replace h : raised e u = .next t := h
    rw [raised_of_c2 hu.c2_eq] at h
    split_ifs at h
    cases h
    exact hu.enter e
  | panic =>
    rw [hstep] at h
    cases h

theorem not_pays_of_end {s : Interpreter} (hend : s.pcBits ≥ s.totalBits) : ¬ Pays s := by
  rintro ⟨n, hn, _⟩
  unfold charged at hn
  rw [if_pos hend] at hn
  cases hn

theorem charged_eq {s u : Interpreter} {n : Nat} (hcode : ¬ s.pcBits ≥ s.totalBits)
    (h : charge s = .ok n u) : charged s = some n := by
  unfold charged
  rw [if_neg hcode, h]

/-- an exception before the instruction has paid -/
theorem failed_next {c : Crypto} {handler : Continuation} {limit : Uint64} {s t u : Interpreter}
    {e : ExceptionKind} (hfirst : ¬ (handler.PopsFirst ∧ Enters c s)) (hstep : step c s = .err e u)
    (hu : Handled handler limit u) (hcalls : u.callStack = s.callStack)
    (hstack : ¬ (∃ op, opcodeAt s = some op ∧ op.PopsFirst) → u.stack = s.stack)
    (h : raised e u = .next t) :
    gasLeft t = gasLeft u ∧ Retreats handler t s := by
  rw [raised_of_c2 hu.c2_eq] at h
  split_ifs at h with hroom
  cases h
  refine ⟨rfl, enter_retreats hcalls hroom fun hat => hstack ?_⟩
  rintro ⟨op, hop, hpops⟩
  refine hfirst ⟨⟨op, ?_, hpops⟩, e, u, hstep, hroom⟩
  rw [← hat.1, ← hat.2]
  exact hop

/-- the gas that is left after an instruction has paid -/
theorem gasLeft_paid {s u v : Interpreter} {n : Nat} (hlocal : Local s u) (hn : 0 < n)
    (hin : gasAfter s n ≤ s.gasLimit.toNat) (hlimit : s.gasLimit ≠ BitVec.allOnes 64)
    (hv : Free (pay u n) v) : gasLeft v < gasLeft s := by
  have hspends := spends_paid hlocal hn hin hlimit
  have hle : (pay u n).gasUsed.toNat ≤ (pay u n).gasLimit.toNat := by
    refine (metered_pay ?_).within
    rw [gasAfter_local hlocal, hlocal.free.gasLimit_eq]
    exact hin
  have hlim : (pay u n).gasLimit = s.gasLimit := hlocal.free.gasLimit_eq
  unfold gasLeft
  rw [hv.gasLimit_eq, hv.gasUsed_eq, hlim]
  rw [hlim] at hle
  omega

theorem Local.callStack_eq {s t : Interpreter} (h : Local s t) : t.callStack = s.callStack := by
  obtain ⟨_, _, rfl⟩ := h
  rfl

/-- **One turn** with a handler: it pays, or it is a turn nearer to the end. -/
theorem handled_next {c : Crypto} {handler : Continuation} {limit : Uint64} {s t : Interpreter}
    (hs : Handled handler limit s) (hfirst : ¬ (handler.PopsFirst ∧ Enters c s))
    (h : turn c s = .next t) :
    Pays s ∧ (limit ≠ BitVec.allOnes 64 → gasLeft t < gasLeft s)
      ∨ ¬ Pays s ∧ gasLeft t ≤ gasLeft s ∧ Retreats handler t s := by
  unfold turn at h
  have hcases := step_cases c s
  generalize hrun : step c s = r at h hcases
  cases hcases with
  | finished => cases h
  | left hend hstack =>
    cases h
    refine Or.inr ⟨not_pays_of_end hend, le_refl _, ?_⟩
    unfold Retreats distance
    rw [hstack]
    exact Prod.Lex.left _ _ (Nat.lt_succ_self _)
  | unpaid hcode hcharge hlocal he =>
    obtain ⟨hgas, hdown⟩ := failed_next hfirst hrun (hs.free hlocal.free)
      hlocal.callStack_eq (fun hop => by simpa [hcharge] using charge_stack hop) h
    refine Or.inr ⟨?_, ?_, hdown⟩
    · rintro ⟨n, hn, _⟩
      unfold charged at hn
      rw [if_neg hcode, hcharge] at hn
      cases hn
    · unfold gasLeft at hgas ⊢
      rw [hgas, hlocal.free.gasLimit_eq, hlocal.free.gasUsed_eq]
  | @outOfGas n u hcode hcharge hlocal hn hout =>
    obtain ⟨hgas, hdown⟩ := failed_next hfirst hrun
      (u := { u with gasUsed := u.gasLimit }) ⟨(hs.free hlocal.free).c2_eq,
        (hs.free hlocal.free).gasLimit_eq⟩
      hlocal.callStack_eq (fun hop => by simpa [hcharge] using charge_stack hop) h
    refine Or.inr ⟨?_, ?_, hdown⟩
    · rintro ⟨m, hm, hin⟩
      rw [charged_eq hcode hcharge] at hm
      cases hm
      exact absurd hout (Nat.not_lt.mpr hin)
    · rw [hgas]
      show u.gasLimit.toNat - u.gasLimit.toNat ≤ _
      rw [Nat.sub_self]
      exact Nat.zero_le _
  | @paid n u r hcode hcharge hlocal hn hin hfinal =>
    have hu : Handled handler limit (pay u n) :=
      ⟨(hs.free hlocal.free).c2_eq, (hs.free hlocal.free).gasLimit_eq⟩
    have hless : ∀ v, Free (pay u n) v → limit ≠ BitVec.allOnes 64 → gasLeft v < gasLeft s :=
      fun v hv hlimit => gasLeft_paid hlocal hn hin (hs.gasLimit_eq ▸ hlimit) hv
    refine Or.inl ⟨⟨n, charged_eq hcode hcharge, hin⟩, ?_⟩
    cases r with
    | ok b v =>
      cases b with
      | true =>
        cases h
        exact hless _ (Moved.free hfinal)
      | false => cases h
    | err e v =>
      have hv := hfinal.1.free
      replace h : raised e v = .next t := h
      rw [raised_of_c2 (hu.free hv).c2_eq] at h
      split_ifs at h
      cases h
      exact hless v hv
    | panic => cases h
  | panicked => cases h

/-! ## runs -/

theorem handled_setExceptionHandler (handler : Continuation) (s : Interpreter) :
    Handled handler s.gasLimit (s.setExceptionHandler handler) := ⟨rfl, rfl⟩

section
variable {c : Crypto} {handler : Continuation} {limit : Uint64} {s : Interpreter}

/-- the handler does not pop the number of an exception that is its own -/
def Calmly (c : Crypto) (handler : Continuation) (s : Interpreter) : Prop :=
  ∀ n t, run c n s = .next t → ¬ (handler.PopsFirst ∧ Enters c t)

theorem handled_of_run (hs : Handled handler limit s) {n : Nat} {t : Interpreter}
    (h : run c n s = .next t) : Handled handler limit t :=
  loop_inv (fun _ _ hu ht => hu.turn ht) hs h

/-- a state that the run reaches after at least `N` turns -/
def ReachedAfter (c : Crypto) (s : Interpreter) (N : Nat) (t : Interpreter) : Prop :=
  ∃ n, N ≤ n ∧ run c n s = .next t

theorem ReachedAfter.turn {N : Nat} {t u : Interpreter} (h : ReachedAfter c s N t)
    (hturn : turn c t = .next u) : ReachedAfter c s N u := by
  obtain ⟨n, hle, hn⟩ := h
  refine ⟨n + 1, hle.trans (Nat.le_succ n), ?_⟩
  unfold run at hn ⊢
  rw [loop_succ, hn]
  exact hturn

/-- turns that pay, and turns between them -/
def Consumes (handler : Continuation) (t s : Interpreter) : Prop :=
  Prod.Lex (· < ·) (Retreats handler) (gasLeft t, t) (gasLeft s, s)

theorem consumes_wf (handler : Continuation) : WellFounded (Consumes handler) :=
  InvImage.wf _ (Prod.lex ⟨_, Nat.lt_wfRel.wf⟩ ⟨_, retreats_wf handler⟩).wf

/-- where the counter does not saturate below the limit, every turn consumes gas or comes nearer to
the next one that does -/
theorem consumes_of_turn (hs : Handled handler limit s) (hlimit : limit ≠ BitVec.allOnes 64)
    (hfirst : ¬ (handler.PopsFirst ∧ Enters c s)) {t : Interpreter} (h : turn c s = .next t) :
    Consumes handler t s := by
  unfold Consumes
  rcases handled_next hs hfirst h with ⟨_, hless⟩ | ⟨_, hle, hdown⟩
  · exact Prod.Lex.left _ _ (hless hlimit)
  · rcases hle.lt_or_eq with hlt | heq
    · exact Prod.Lex.left _ _ hlt
    · rw [heq]
      exact Prod.Lex.right _ hdown

/-- **A run with a handler ends** if the handler does not pop its own numbers, and gas runs out or
is no longer paid. -/
theorem ends_of_calmly (hs : Handled handler limit s) (hcalm : Calmly c handler s)
    (hpays : limit = BitVec.allOnes 64 → ∃ N, ∀ t, ReachedAfter c s N t → ¬ Pays t) :
    Ends c s := by
  rw [ends_iff]
  by_cases hlimit : limit = BitVec.allOnes 64
  · obtain ⟨N, hN⟩ := hpays hlimit
    cases h : run c N s with
    | next u =>
      refine loop_ends_of_next h (loop_ends (retreats_wf handler) (fun t v ht hv => ?_)
        (show ReachedAfter c s N u from ⟨N, le_refl N, h⟩))
      have ⟨n, _, hn⟩ := ht
      have hnext := handled_next (handled_of_run hs hn) (hcalm n t hn) hv
      refine ⟨ht.turn hv, ?_⟩
      rcases hnext with ⟨hpay, _⟩ | ⟨_, _, hdown⟩
      · exact absurd hpay (hN t ht)
      · exact hdown
    | done r =>
      refine ⟨N, fun u hu => ?_⟩
      rw [h] at hu
      cases hu
    | panic =>
      refine ⟨N, fun u hu => ?_⟩
      rw [h] at hu
      cases hu
  · refine loop_ends (consumes_wf handler) (fun t v ht hv => ?_)
      (show ReachedAfter c s 0 s from ⟨0, le_refl 0, rfl⟩)
    have ⟨n, _, hn⟩ := ht
    exact ⟨ht.turn hv,
      consumes_of_turn (handled_of_run hs hn) hlimit (hcalm n t hn) hv⟩

/-! ## a handler that pops first -/

/-- the handler begins, with the number of the exception on the stack -/
structure Entered (handler : Continuation) (s : Interpreter) : Prop where
  c2_eq : s.controlRegisters.c2 = some handler
  at_handler : atHandler handler s
  stack : ∃ number rest, s.stack = .integer number :: rest ∧ rest.length < MAX_STACK_DEPTH

/-- the three instructions take the number for bytes -/
theorem exec_of_popsFirst {op : Opcode} (h : op.PopsFirst) {number : Uint256}
    {rest : List StackValue} (hstack : s.stack = .integer number :: rest) :
    exec c op s = .err .typeMismatch { s with stack := rest } := by
  have hpop : popBytes s = .err .typeMismatch { s with stack := rest } := by
    unfold popBytes
    rw [bind_apply, pop_apply, hstack]
    rfl
  rcases h with rfl | rfl | rfl
  · exact bind_err (bind_err hpop)
  · exact bind_err (bind_err hpop)
  · exact bind_err (bind_err hpop)

/-- such a handler comes back to its start -/
theorem entered_next (hfirst : handler.PopsFirst) (hs : Entered handler s) :
    ∃ t, turn c s = .next t ∧ Entered handler t := by
  obtain ⟨op, hop, hpops⟩ := hfirst
  obtain ⟨number, rest, hstack, hroom⟩ := hs.stack
  have hat : opcodeAt s = some op := by
    unfold opcodeAt
    rw [hs.at_handler.1, hs.at_handler.2]
    exact hop
  have hstep : step c s = .err .typeMismatch { behindOpcode s with stack := rest } :=
    (step_of_opcode hat).trans (exec_of_popsFirst hpops hstack)
  refine ⟨enter handler .typeMismatch { behindOpcode s with stack := rest }, ?_,
    hs.c2_eq, ⟨rfl, rfl⟩, _, rest, rfl, hroom⟩
  unfold turn
  rw [hstep]
  exact (raised_of_c2 (s := { behindOpcode s with stack := rest }) hs.c2_eq).trans
    (if_pos hroom)

/-- **Such a handler is not left again**, once it is entered. -/
theorem run_forever (hs : Handled handler limit s) (hfirst : handler.PopsFirst) {n : Nat}
    {t : Interpreter} (ht : run c n s = .next t) (h : Enters c t) (k : Nat) :
    ∃ u, run c k s = .next u := by
  obtain ⟨e, u, hu, hroom⟩ := h
  have hc2 : u.controlRegisters.c2 = some handler := by
    obtain ⟨_, _, _, rfl⟩ := step_err_keeps hu
    exact (handled_of_run hs ht).c2_eq
  have hentered : turn c t = .next (enter handler e u) := by
    unfold turn
    rw [hu]
    exact (raised_of_c2 hc2).trans (if_pos hroom)
  have hstart : Entered handler (enter handler e u) := ⟨hc2, ⟨rfl, rfl⟩, _, u.stack, rfl, hroom⟩
  refine loop_forever_of_next (t := enter handler e u) (n := n + 1) ?_ (fun k => ?_) k
  · unfold run at ht
    rw [loop_succ, ht]
    exact hentered
  · obtain ⟨v, hv, _⟩ := loop_forever (fun _ => entered_next hfirst) hstart k
    exact ⟨v, hv⟩

/-- **When a run with an exception handler ends**: its handler does not begin with an instruction
that pops before it pays, or is not entered; and, where the gas counter saturates before it exceeds
the limit, gas is paid only so often. -/
theorem run_ends_iff (c : Crypto) (handler : Continuation) (s : Interpreter) :
    Ends c (s.setExceptionHandler handler)
      ↔ ¬ (handler.PopsFirst
          ∧ ∃ n t, run c n (s.setExceptionHandler handler) = .next t ∧ Enters c t)
        ∧ (s.gasLimit = BitVec.allOnes 64 →
          ∃ N, ∀ t, ReachedAfter c (s.setExceptionHandler handler) N t → ¬ Pays t) := by
  have hs := handled_setExceptionHandler handler s
  constructor
  · intro hends
    obtain ⟨N, hN⟩ := ends_iff.mp hends
    refine ⟨?_, fun _ => ⟨N, ?_⟩⟩
    · rintro ⟨hfirst, n, t, ht, hentered⟩
      obtain ⟨u, hu⟩ := run_forever hs hfirst ht hentered N
      exact hN u hu
    · rintro t ⟨n, hle, hn⟩ _
      obtain ⟨k, rfl⟩ := Nat.exists_eq_add_of_le hle
      unfold run at hn
      rw [loop_stays hN] at hn
      exact hN t hn
  · rintro ⟨hfirst, hpays⟩
    exact ends_of_calmly hs (fun n t ht h => hfirst ⟨h.1, n, t, ht, h.2⟩) hpays

end

/-! ## a run that does not end -/

theorem byte_fits (b : Byte) : [b].length ≤ MAX_CELL_DATA_BYTES := Nat.le_of_ble_eq_true rfl

/-- a code cell of one byte -/
def byteCell (b : Byte) : Cell := ⟨[b], [], false, byte_fits b, Nat.zero_le _⟩

/-- a byte that is no instruction, in the hands of `CONCAT` -/
def concatHandler : Continuation := ⟨byteCell 0x31, 0⟩

theorem handler_loops :
    (∀ n, ∃ t, run sampleCrypto n ((Interpreter.new (byteCell 0xFF) emptyCell sampleMessage
      sampleContext).setExceptionHandler concatHandler) = .next t)
    ∧ ¬ ∀ c (s : Interpreter) handler, Ends c (s.setExceptionHandler handler) := by
  have hfirst : concatHandler.PopsFirst := ⟨.concat, by decide, Or.inl rfl⟩
  have hforever : ∀ n, ∃ t, run sampleCrypto n ((Interpreter.new (byteCell 0xFF) emptyCell
      sampleMessage sampleContext).setExceptionHandler concatHandler) = .next t :=
    run_forever (handled_setExceptionHandler _ _) hfirst (n := 0) rfl
      ⟨.malformedCell, _, rfl, by decide⟩
  refine ⟨hforever, fun h => ?_⟩
  obtain ⟨n, hn⟩ := ends_iff.mp (h _ _ _)
  obtain ⟨t, ht⟩ := hforever n
  exact hn t ht

end Onx.Vm
