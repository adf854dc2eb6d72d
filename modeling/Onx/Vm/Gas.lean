import Onx.Vm.Panic

/-!
# Gas bounds execution

Without an exception handler a run ends, whatever code and whatever values it starts with.  A panic
ends it too.

* `Free`                   gas, limit and handler are as they were;
* `step_metered`           what a step does to the gas;
* `outOfGas_iff`           a step raises `OutOfGas` if and only if its cost exceeds what is left;
* `Ends`                   the run returns, or panics;
* `gas_bounds_execution`   **runs end, within their gas**.
-/

namespace Onx.Vm
open Machine

structure Free (s t : Interpreter) : Prop where
  gasLimit_eq : t.gasLimit = s.gasLimit
  gasUsed_eq : t.gasUsed = s.gasUsed
  c2_eq : t.controlRegisters.c2 = s.controlRegisters.c2

theorem Local.free {s t : Interpreter} (h : Local s t) : Free s t := by
  obtain ⟨_, _, rfl⟩ := h
  exact ⟨rfl, rfl, rfl⟩

theorem Moved.free {s t : Interpreter} (h : Moved s t) : Free s t := by
  cases h with
  | stays h => exact h.free
  | jumps h _ => exact ⟨h.free.gasLimit_eq, h.free.gasUsed_eq, h.free.c2_eq⟩
  | calls h _ => exact ⟨h.free.gasLimit_eq, h.free.gasUsed_eq, h.free.c2_eq⟩
  | returns h _ => exact ⟨h.free.gasLimit_eq, h.free.gasUsed_eq, h.free.c2_eq⟩

/-- the gas of a state is within its limit -/
def Within (s : Interpreter) : Prop := s.gasUsed.toNat ≤ s.gasLimit.toNat

/-- gas is within the limit, and not less than before -/
structure Metered (s t : Interpreter) : Prop where
  along : Along s t
  within : Within t

/-- what is as it was, and the gas that was spent -/
theorem Free.metered {s t : Interpreter} (h : Free s t) (hs : Within s) : Metered s t where
  along := ⟨h.gasLimit_eq, h.c2_eq, (congrArg BitVec.toNat h.gasUsed_eq).ge⟩
  within := by
    unfold Within
    rw [h.gasUsed_eq, h.gasLimit_eq]
    exact hs

theorem Metered.trans {s t u : Interpreter} (h : Metered s t) (h' : Metered t u) : Metered s u :=
  ⟨h.along.trans h'.along, h'.within⟩

theorem metered_pay {s : Interpreter} {n : Nat} (h : gasAfter s n ≤ s.gasLimit.toNat) :
    Metered s (pay s n) where
  along := along_consumeGas h
  within := (toNat_gasAfter h).trans_le h

/-- the counter does not saturate below the limit -/
theorem pay_spends {s : Interpreter} {n : Nat} (hn : 0 < n) (h : gasAfter s n ≤ s.gasLimit.toNat)
    (hlimit : s.gasLimit ≠ BitVec.allOnes 64) :
    s.gasUsed.toNat < (pay s n).gasUsed.toNat := by
  have hmax := toNat_lt_of_ne_allOnes hlimit
  have hused : (pay s n).gasUsed.toNat = gasAfter s n := toNat_gasAfter h
  rw [hused]
  unfold gasAfter at h ⊢
  omega

theorem Local.within {s t : Interpreter} (h : Local s t) (hs : Within s) : Within t :=
  (h.free.metered hs).within

theorem gasAfter_local {s t : Interpreter} (h : Local s t) (n : Nat) :
    gasAfter t n = gasAfter s n := by
  unfold gasAfter
  rw [h.free.gasUsed_eq]

/-- an instruction that has paid: where it was, its gas, and that much is spent -/
theorem metered_paid {s u : Interpreter} {n : Nat} (hlocal : Local s u) (hs : Within s)
    (hin : gasAfter s n ≤ s.gasLimit.toNat) : Metered s (pay u n) := by
  refine (hlocal.free.metered hs).trans (metered_pay ?_)
  rw [gasAfter_local hlocal, hlocal.free.gasLimit_eq]
  exact hin

theorem spends_paid {s u : Interpreter} {n : Nat} (hlocal : Local s u) (hn : 0 < n)
    (hin : gasAfter s n ≤ s.gasLimit.toNat) (hlimit : s.gasLimit ≠ BitVec.allOnes 64) :
    s.gasUsed.toNat < (pay u n).gasUsed.toNat := by
  rw [← hlocal.free.gasUsed_eq]
  refine pay_spends hn ?_ ?_
  · rw [gasAfter_local hlocal, hlocal.free.gasLimit_eq]
    exact hin
  · rw [hlocal.free.gasLimit_eq]
    exact hlimit

/-- a step that succeeds spends gas, or goes back to a caller -/
theorem step_ok {c : Crypto} {s t : Interpreter} {b : Bool} (hs : Within s)
    (h : step c s = .ok b t) :
    Metered s t ∧ (b = true → s.gasLimit ≠ BitVec.allOnes 64 → Descends t s) := by
  have hcases := step_cases c s
  rw [h] at hcases
  cases hcases with
  | finished => exact ⟨⟨Std.Refl.refl s, hs⟩, fun h => (nomatch h)⟩
  | left _ hstack =>
    refine ⟨⟨⟨rfl, rfl, le_refl _⟩, hs⟩, fun _ _ => ?_⟩
    unfold Descends
    rw [hstack]
    exact Prod.Lex.right _ (Nat.lt_succ_self _)
  | paid _ _ hlocal hn hin hfinal =>
    have hpaid := metered_paid hlocal hs hin
    have hfree : Free _ t := Moved.free hfinal
    have hmetered := hpaid.trans (hfree.metered hpaid.within)
    refine ⟨hmetered, fun _ hlimit => Prod.Lex.left _ _ ?_⟩
    have hspends := spends_paid hlocal hn hin hlimit
    have hwithin : t.gasUsed.toNat ≤ t.gasLimit.toNat := hmetered.within
    rw [hmetered.along.gasLimit_eq] at hwithin ⊢
    rw [hfree.gasUsed_eq] at hwithin ⊢
    omega

theorem step_err {c : Crypto} {s t : Interpreter} {e : ExceptionKind} (hs : Within s)
    (h : step c s = .err e t) : Metered s t ∧ (e = .outOfGas → t.gasUsed = t.gasLimit) := by
  have hcases := step_cases c s
  rw [h] at hcases
  cases hcases with
  | unpaid _ _ hlocal he => exact ⟨hlocal.free.metered hs, fun h => absurd h he⟩
  | outOfGas _ _ hlocal _ _ =>
    have hfree := hlocal.free
    refine ⟨⟨⟨hfree.gasLimit_eq, hfree.c2_eq, ?_⟩, le_refl _⟩, fun _ => rfl⟩
    show s.gasUsed.toNat ≤ BitVec.toNat _
    rw [hfree.gasLimit_eq]
    exact hs
  | paid _ _ hlocal hn hin hfinal =>
    obtain ⟨hmoved, he⟩ := hfinal
    have hpaid := metered_paid hlocal hs hin
    exact ⟨hpaid.trans (hmoved.free.metered hpaid.within), fun h => absurd h he⟩

/-- **A step raises `OutOfGas`** if and only if its cost exceeds what is left. -/
theorem outOfGas_iff {c : Crypto} {s : Interpreter} (hs : Within s)
    (hlimit : s.gasLimit ≠ BitVec.allOnes 64) :
    (∃ t, step c s = .err .outOfGas t)
      ↔ ∃ n, charged s = some n ∧ s.gasLimit.toNat - s.gasUsed.toNat < n := by
  have hmax := toNat_lt_of_ne_allOnes hlimit
  have hused : s.gasUsed.toNat ≤ s.gasLimit.toNat := hs
  have hgas : ∀ n, gasAfter s n > s.gasLimit.toNat
      ↔ s.gasLimit.toNat - s.gasUsed.toNat < n := by
    intro n
    unfold gasAfter
    omega
  unfold charged
  generalize hrun : step c s = r
  have hcases := step_cases c s
  rw [hrun] at hcases
  cases hcases with
  | finished hend _ => simp [if_pos hend]
  | left hend _ => simp [if_pos hend]
  | unpaid hcode hcharge _ he =>
    rw [if_neg hcode, hcharge]
    simp [he]
  | outOfGas hcode hcharge _ _ hout =>
    rw [if_neg hcode, hcharge]
    exact ⟨fun _ => ⟨_, rfl, (hgas _).mp hout⟩, fun _ => ⟨_, rfl⟩⟩
  | paid hcode hcharge hlocal hn hin hfinal =>
    rw [if_neg hcode, hcharge]
    constructor
    · rintro ⟨t, rfl⟩
      exact absurd rfl hfinal.2
    · rintro ⟨n, hn, hlt⟩
      cases hn
      exact absurd ((hgas _).mpr hlt) (Nat.not_lt.mpr hin)
  | panicked hcode hcharge =>
    rw [if_neg hcode, hcharge]
    simp

theorem step_of_opcode {c : Crypto} {s : Interpreter} {op : Opcode} (h : opcodeAt s = some op) :
    step c s = exec c op (behindOpcode s) := by
  rw [step_of_code (not_end_of_opcode h)]
  obtain ⟨b, hb, hop⟩ := Option.bind_eq_some_iff.mp h
  unfold fetchAndExec
  rw [bind_apply, readUint8_apply, hb]
  dsimp only
  rw [hop, ofOption_some_bind]
  rfl

/-! ## runs -/

def ExecutionResult.gasUsed : ExecutionResult → Uint64
  | .success _ _ gasUsed => gasUsed
  | .exception _ gasUsed => gasUsed

/-- the run returns, or panics -/
def Ends (c : Crypto) (s : Interpreter) : Prop :=
  ∃ n, (∃ r, run c n s = .done r) ∨ run c n s = .panic

theorem ends_iff {c : Crypto} {s : Interpreter} : Ends c s ↔ ∃ n, ∀ t, run c n s ≠ .next t := by
  refine exists_congr fun n => ?_
  cases run c n s with
  | next t => simp
  | done r => simp
  | panic => simp

/-- the gas of a state in a run, and what its turn does to it -/
structure Gauged (c : Crypto) (limit : Uint64) (t : Interpreter) : Prop where
  gasLimit_eq : t.gasLimit = limit
  gasUsed_le : t.gasUsed.toNat ≤ limit.toNat
  next : ∀ u, turn c t = .next u → t.gasUsed.toNat ≤ u.gasUsed.toNat
  done : ∀ r, turn c t = .done r →
    t.gasUsed.toNat ≤ r.gasUsed.toNat ∧ r.gasUsed.toNat ≤ limit.toNat
  outOfGas : ∀ u, step c t = .err .outOfGas u → u.gasUsed = limit
  outOfGas_iff : (∃ u, step c t = .err .outOfGas u)
    ↔ ∃ n, charged t = some n ∧ limit.toNat - t.gasUsed.toNat < n

/-- without a handler the run goes on only where the step succeeds -/
theorem step_of_turn_next {c : Crypto} {s t : Interpreter} (hs : Within s)
    (hc2 : s.controlRegisters.c2 = none) (h : turn c s = .next t) : step c s = .ok true t := by
  unfold turn at h
  cases hstep : step c s with
  | ok b u =>
    rw [hstep] at h
    cases b with
    | true =>
      cases h
      rfl
    | false => cases h
  | err e u =>
    rw [hstep] at h
    dsimp only [raised] at h
    rw [(step_err hs hstep).1.along.c2_eq, hc2] at h
    cases h
  | panic =>
    rw [hstep] at h
    cases h

theorem done_of_turn {c : Crypto} {s : Interpreter} {r : ExecutionResult} (hs : Within s)
    (hc2 : s.controlRegisters.c2 = none) (h : turn c s = .done r) :
    ∃ t, Metered s t ∧ r.gasUsed = t.gasUsed := by
  unfold turn at h
  cases hstep : step c s with
  | ok b t =>
    rw [hstep] at h
    cases b with
    | true => cases h
    | false =>
      cases h
      exact ⟨t, (step_ok hs hstep).1, rfl⟩
  | err e t =>
    rw [hstep] at h
    have hmetered := (step_err hs hstep).1
    dsimp only [raised] at h
    rw [hmetered.along.c2_eq, hc2] at h
    cases h
    exact ⟨t, hmetered, rfl⟩
  | panic =>
    rw [hstep] at h
    cases h

/-- the states of a run without a handler -/
structure Unhandled (s t : Interpreter) : Prop where
  metered : Metered s t
  c2_none : t.controlRegisters.c2 = none

theorem Unhandled.turn {c : Crypto} {s t u : Interpreter} (ht : Unhandled s t)
    (h : turn c t = .next u) : Unhandled s u := by
  have hmetered := (step_ok ht.metered.within (step_of_turn_next ht.metered.within ht.c2_none h)).1
  exact ⟨ht.metered.trans hmetered, hmetered.along.c2_eq.trans ht.c2_none⟩

theorem Unhandled.gauged {c : Crypto} {s t : Interpreter} (ht : Unhandled s t)
    (hlimit : s.gasLimit ≠ BitVec.allOnes 64) : Gauged c s.gasLimit t := by
  have hwithin := ht.metered.within
  have heq := ht.metered.along.gasLimit_eq
  refine ⟨heq, heq ▸ hwithin, fun u hu => ?_, fun r hr => ?_, fun u hu => ?_, ?_⟩
  · exact (step_ok hwithin (step_of_turn_next hwithin ht.c2_none hu)).1.along.gasUsed_le
  · obtain ⟨u, hu, hr⟩ := done_of_turn hwithin ht.c2_none hr
    rw [hr, ← heq, ← hu.along.gasLimit_eq]
    exact ⟨hu.along.gasUsed_le, hu.within⟩
  · obtain ⟨hu, hgas⟩ := step_err hwithin hu
    rw [hgas rfl, hu.along.gasLimit_eq, heq]
  · rw [← heq]
    exact Vm.outOfGas_iff hwithin (heq ▸ hlimit)

/-- **Gas bounds execution**, from every state without an exception handler. -/
theorem gas_bounds_execution (c : Crypto) (s : Interpreter)
    (hc2 : s.controlRegisters.c2 = none) (hused : s.gasUsed.toNat ≤ s.gasLimit.toNat)
    (hlimit : s.gasLimit.toNat < 2^64 - 1) :
    Ends c s ∧ ∀ n t, run c n s = .next t →
      s.gasUsed.toNat ≤ t.gasUsed.toNat ∧ Gauged c s.gasLimit t := by
  have hmax : s.gasLimit ≠ BitVec.allOnes 64 := by
    intro h
    rw [h, BitVec.toNat_allOnes] at hlimit
    exact Nat.lt_irrefl _ hlimit
  have hstart : Unhandled s s := ⟨⟨Std.Refl.refl s, hused⟩, hc2⟩
  have hdescends : ∀ t u, Unhandled s t → turn c t = .next u → Unhandled s u ∧ Descends u t := by
    intro t u ht h
    have hstep := step_of_turn_next ht.metered.within ht.c2_none h
    have hdown := (step_ok ht.metered.within hstep).2 rfl
    exact ⟨ht.turn h, hdown (ht.metered.along.gasLimit_eq ▸ hmax)⟩
  constructor
  · exact ends_iff.mpr (loop_ends descends_wf hdescends hstart)
  · intro n t ht
    have hunhandled : Unhandled s t := loop_inv (fun _ _ h h' => h.turn h') hstart ht
    exact ⟨hunhandled.metered.along.gasUsed_le, hunhandled.gauged hmax⟩

/-- the code that jumps back to its start -/
def backwardCode : Cell := ⟨[0x7A, 1, 0xFD], [], false, Nat.le_of_ble_eq_true rfl, Nat.zero_le _⟩

/-- on the way, with a caller and a value that is no builder the code would make -/
def backwardState : Interpreter :=
  { Interpreter.new backwardCode emptyCell sampleMessage sampleContext with
    stack := [.builder ⟨[], 8, []⟩]
    callStack := [(backwardCode, 0)]
    gasUsed := 10 }

theorem gas_bounds_execution_sample : Ends sampleCrypto backwardState
    ∧ ∀ n t, run sampleCrypto n backwardState = .next t → Gauged sampleCrypto 1000 t := by
  obtain ⟨hends, hgauged⟩ := gas_bounds_execution sampleCrypto backwardState rfl (by decide)
    (by decide)
  exact ⟨hends, fun n t ht => (hgauged n t ht).2⟩

end Onx.Vm
