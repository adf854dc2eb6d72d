import Onx.Vm.Likeness
import Onx.Vm.Gas

/-!
# What the gas limit decides

No instruction looks at the gas limit but to compare with it.  Without an exception handler a higher limit
does not change what a run does with the gas it had: a run that ends within its limit ends alike under every
higher one, and a run that ends beyond it under a higher limit ends as out of gas.

* `limits`               states that differ in the limit are alike, up to `OutOfGas`;
* `step_raised`          one step under a higher limit;
* `run_raised`           a run that goes on, `run_raised_panic` one that panics;
* `gas_limit_decides`    **what the gas limit decides**.
-/

namespace Onx.Vm
open Machine

/-- the state with another gas limit -/
def withGasLimit (s : Interpreter) (limit : Uint64) : Interpreter := { s with gasLimit := limit }

def ExecutionResult.IsOutOfGas : ExecutionResult → Prop
  | .exception .outOfGas _ => True
  | _ => False

/-- the same state under a limit that is not lower -/
def Raises (limit : Uint64) (s t : Interpreter) : Prop :=
  t = withGasLimit s limit ∧ s.gasLimit.toNat ≤ limit.toNat

section
variable {c : Crypto} {s t u : Interpreter} {limit : Uint64}

/-- what the first pays, the second can pay -/
theorem couples_consumeGas (amount : Nat) :
    Couples (Raises limit) (fun e _ => e = .outOfGas) (fun _ _ => False) (consumeGas amount)
      (consumeGas amount) (Both (Raises limit) Eq) := by
  rintro s _ ⟨rfl, hle⟩
  rw [consumeGas_apply, consumeGas_apply]
  have hsame : gasAfter (withGasLimit s limit) amount = gasAfter s amount := rfl
  by_cases hout : gasAfter s amount > s.gasLimit.toNat
  · rw [if_pos hout]
    exact .first rfl
  · have hin : ¬ gasAfter (withGasLimit s limit) amount > (withGasLimit s limit).gasLimit.toNat := by
      show ¬ gasAfter s amount > limit.toNat
      omega
    rw [if_neg hout, if_neg hin, hsame]
    exact .ok ⟨rfl, rfl, hle⟩

theorem placed_raises (limit : Uint64) : Placed (Raises limit) := by
  rintro s _ ⟨rfl, hle⟩
  exact ⟨rfl, rfl, fun _ => ⟨rfl, hle⟩⟩

/-- states that differ in the limit -/
def limits (limit : Uint64) : Likeness where
  R := Raises limit
  Q := Both (Raises limit) Eq
  G := fun e _ => e = .outOfGas
  H := fun _ _ => False
  stacked := by
    rintro s _ ⟨rfl, hle⟩
    refine ⟨[], (List.append_nil _).symm, fun h => absurd rfl h, fun stack => ?_⟩
    rw [List.append_nil]
    exact ⟨rfl, hle⟩
  reads := (placed_raises limit).reads
  jumps := (placed_raises limit).jumps
  gas := couples_consumeGas
  transfers := by
    rintro refIdx call s _ ⟨rfl, hle⟩
    rw [transferTo_apply, transferTo_apply]
    show Alike _ _ _ _ _ (match s.codeRefs[refIdx]? with | none => _ | some target => _)
    cases s.codeRefs[refIdx]? with
    | none => exact .err ⟨rfl, hle⟩
    | some target => cases call <;> exact .ok ⟨rfl, rfl, hle⟩
  returns := by
    rintro s _ ⟨rfl, hle⟩
    rw [returnToCaller_apply, returnToCaller_apply]
    show Alike _ _ _ _ _ (match s.controlRegisters.c0 with | none => _ | some k => _)
    cases s.controlRegisters.c0 with
    | none => exact .ok ⟨rfl, rfl, hle⟩
    | some k => exact .ok ⟨rfl, rfl, hle⟩
  leaves := by
    rintro s _ ⟨rfl, hle⟩
    unfold leave
    rw [get_bind, get_bind]
    show Alike _ _ _ _ _ ((match s.callStack with | (code, pc) :: rest => _ | [] => _ : Instr Bool) _)
    cases s.callStack with
    | nil => exact .ok ⟨rfl, rfl, hle⟩
    | cons caller rest => exact .ok ⟨rfl, rfl, hle⟩
  goes := fun h => ⟨rfl, h⟩

/-- **A step under a higher limit.** -/
theorem step_raised (c : Crypto) (hle : s.gasLimit.toNat ≤ limit.toNat) :
    Alike (Raises limit) (fun e _ => e = .outOfGas) (fun _ _ => False) (Both (Raises limit) Eq)
      (step c s) (step c (withGasLimit s limit)) :=
  @Likeness.alike_step (limits limit) c s _ ⟨rfl, hle⟩ ((placed_raises limit).end_iff ⟨rfl, hle⟩)

/-- what the next instruction charges under a higher limit -/
theorem charge_raised {n : Nat} (hle : s.gasLimit.toNat ≤ limit.toNat) (h : charge s = .ok n u) :
    ∃ v, charge (withGasLimit s limit) = .ok n v := by
  have halike := Likeness.same_charge (L := limits limit) s _ ⟨rfl, hle⟩
  rw [h] at halike
  generalize charge (withGasLimit s limit) = r at halike ⊢
  cases halike with
  | ok hboth =>
    obtain ⟨rfl, _⟩ := hboth
    exact ⟨_, rfl⟩
  | second hno => exact absurd hno not_false

/-! ## turns -/

/-- a state without a handler, and the same one under a limit that is not lower -/
structure Higher (limit : Uint64) (s t : Interpreter) : Prop where
  raises : Raises limit s t
  within : Within s
  c2_none : s.controlRegisters.c2 = none

theorem Higher.c2_none' (h : Higher limit s t) : t.controlRegisters.c2 = none := by
  obtain ⟨rfl, _⟩ := h.raises
  exact h.c2_none

theorem Higher.within' (h : Higher limit s t) : Within t := by
  obtain ⟨rfl, hle⟩ := h.raises
  exact h.within.trans hle

theorem Higher.alike (h : Higher limit s t) (c : Crypto) :
    Alike (Raises limit) (fun e _ => e = .outOfGas) (fun _ _ => False) (Both (Raises limit) Eq)
      (step c s) (step c t) := by
  obtain ⟨rfl, hle⟩ := h.raises
  exact step_raised c hle

/-- a step that raises an exception ends a run without a handler -/
theorem turn_of_err {e : ExceptionKind} (hs : Within s) (hc2 : s.controlRegisters.c2 = none)
    (h : step c s = .err e u) : turn c s = .done (.exception e u.gasUsed) := by
  unfold turn
  rw [h]
  unfold raised
  dsimp only
  rw [(step_err hs h).1.along.c2_eq, hc2]

theorem Higher.turn_next (h : Higher limit s t) {s' : Interpreter} (hnext : turn c s = .next s') :
    ∃ t', turn c t = .next t' ∧ Higher limit s' t' := by
  have hstep := step_of_turn_next h.within h.c2_none hnext
  have halike := h.alike c
  rw [hstep] at halike
  generalize ht : step c t = r at halike
  cases halike with
  | @ok _ _ b t' hboth =>
    obtain ⟨rfl, hraises⟩ := hboth
    have hmetered := (step_ok h.within hstep).1
    refine ⟨t', ?_, hraises, hmetered.within, hmetered.along.c2_eq.trans h.c2_none⟩
    unfold turn
    rw [ht]
  | second hno => exact absurd hno not_false

theorem Higher.turn_panic (h : Higher limit s t) (hpanic : turn c s = .panic) : turn c t = .panic := by
  have halike := h.alike c
  generalize hs : step c s = r at halike
  generalize ht : step c t = r' at halike
  have hstep : r = .panic := by
    cases r with
    | ok b u =>
      unfold turn at hpanic
      rw [hs] at hpanic
      cases b <;> cases hpanic
    | err e u =>
      rw [turn_of_err h.within h.c2_none hs] at hpanic
      cases hpanic
    | panic => rfl
  subst hstep
  cases halike with
  | panic =>
    unfold turn
    rw [ht]
  | second hno => exact absurd hno not_false

theorem Higher.turn_done (h : Higher limit s t) {r : ExecutionResult} (hdone : turn c s = .done r)
    (hr : ¬ r.IsOutOfGas) : turn c t = .done r := by
  have halike := h.alike c
  generalize hs : step c s = a at halike
  generalize ht : step c t = b at halike
  cases halike with
  | @ok b s' b' t' hboth =>
    obtain ⟨rfl, rfl, _⟩ := hboth
    unfold turn at hdone ⊢
    rw [hs] at hdone
    rw [ht]
    cases b with
    | true => cases hdone
    | false =>
      cases hdone
      rfl
  | @err e s' t' hR =>
    obtain ⟨rfl, _⟩ := hR
    rw [turn_of_err h.within h.c2_none hs] at hdone
    cases hdone
    exact turn_of_err (u := withGasLimit s' limit) h.within' h.c2_none' ht
  | panic =>
    unfold turn at hdone
    rw [hs] at hdone
    cases hdone
  | first he =>
    subst he
    rw [turn_of_err h.within h.c2_none hs] at hdone
    cases hdone
    exact absurd trivial hr
  | second hno => exact absurd hno not_false

/-! ## runs -/

/-- **A run that goes on** goes on under a higher limit. -/
theorem Higher.run_next (h : Higher limit s t) {n : Nat} {s' : Interpreter} (hn : run c n s = .next s') :
    ∃ t', run c n t = .next t' ∧ Higher limit s' t' := by
  have hturn : ∀ s t s', Higher limit s t → turn c s = .next s' →
      (fun _ => False) t ∨ ∃ t', turn c t = .next t' ∧ Higher limit s' t' :=
    fun _ _ _ h hnext => .inr (h.turn_next hnext)
  rcases loops_alike hturn h hn with ⟨_, _, _, _, hno⟩ | hrun
  · exact absurd hno not_false
  · exact hrun

theorem Higher.run_done (h : Higher limit s t) {n : Nat} {r : ExecutionResult} (hn : run c n s = .done r)
    (hr : ¬ r.IsOutOfGas) : ∃ k, run c k t = .done r := by
  obtain ⟨k, u, hu, hdone⟩ := loop_done hn
  obtain ⟨v, hv, huv⟩ := h.run_next hu
  exact ⟨k + 1, loop_succ_of_last hv (huv.turn_done hdone hr)⟩

theorem Higher.run_panic (h : Higher limit s t) (hn : ∃ n, run c n s = .panic) :
    ∃ n, run c n t = .panic := by
  obtain ⟨n, u, hu, hpanic⟩ := panics_iff.mp hn
  obtain ⟨v, hv, huv⟩ := h.run_next hu
  exact panics_iff.mpr ⟨n, v, hv, huv.turn_panic hpanic⟩

/-- more gas is spent than `used` -/
def Beyond (used : Uint64) : Turn Interpreter ExecutionResult → Prop
  | .next t => used.toNat < t.gasUsed.toNat
  | .done r => used.toNat < r.gasUsed.toNat
  | .panic => True

theorem beyond_turn {used : Uint64} (hs : Within s) (hc2 : s.controlRegisters.c2 = none)
    (h : used.toNat < s.gasUsed.toNat) : Beyond used (turn c s) := by
  cases hturn : turn c s with
  | next t =>
    exact h.trans_le (step_ok hs (step_of_turn_next hs hc2 hturn)).1.along.gasUsed_le
  | done r =>
    obtain ⟨t, hmetered, hr⟩ := done_of_turn hs hc2 hturn
    show used.toNat < r.gasUsed.toNat
    rw [hr]
    exact h.trans_le hmetered.along.gasUsed_le
  | panic => trivial

/-- gas that is spent stays spent -/
theorem beyond_run {used : Uint64} (hs : Within s) (hc2 : s.controlRegisters.c2 = none)
    (h : used.toNat < s.gasUsed.toNat) (n : Nat) : Beyond used (run c n s) := by
  have hstart : Unhandled s s := ⟨⟨Std.Refl.refl s, hs⟩, hc2⟩
  have hinv : ∀ {k t}, run c k s = .next t → Unhandled s t ∧ used.toNat < t.gasUsed.toNat := by
    intro k t ht
    have hunhandled : Unhandled s t := loop_inv (fun _ _ h h' => h.turn h') hstart ht
    exact ⟨hunhandled, h.trans_le hunhandled.metered.along.gasUsed_le⟩
  cases hn : run c n s with
  | next t => exact (hinv hn).2
  | done r =>
    obtain ⟨k, t, ht, hdone⟩ := loop_done hn
    obtain ⟨hunhandled, hused⟩ := hinv ht
    have hbeyond := beyond_turn (c := c) hunhandled.metered.within hunhandled.c2_none hused
    rw [hdone] at hbeyond
    exact hbeyond
  | panic => trivial

/-- a step that has paid -/
theorem beyond_paid {used : Uint64} {n : Nat} {r : Res Interpreter ExceptionKind Bool} (hs : Within s)
    (hc2 : s.controlRegisters.c2 = none) (hlocal : Local s u) (hin : gasAfter s n ≤ s.gasLimit.toNat)
    (hout : used.toNat < gasAfter s n) (hstep : step c s = r) (hfinal : Final (pay u n) r) :
    Beyond used (turn c s) := by
  have hpaid : used.toNat < (pay u n).gasUsed.toNat := by
    rw [← gasAfter_local hlocal n] at hin hout
    rw [← hlocal.free.gasLimit_eq] at hin
    exact hout.trans_eq (toNat_gasAfter hin).symm
  cases r with
  | ok b t =>
    have hfree : Free _ t := Moved.free hfinal
    rw [← hfree.gasUsed_eq] at hpaid
    unfold turn
    rw [hstep]
    cases b <;> exact hpaid
  | err e t =>
    rw [← hfinal.1.free.gasUsed_eq] at hpaid
    rw [turn_of_err hs hc2 hstep]
    exact hpaid
  | panic =>
    unfold turn
    rw [hstep]
    trivial

/-- only a step that raises the exception ends in it -/
theorem step_of_turn_short (hs : Within s) (hc2 : s.controlRegisters.c2 = none) {r : ExecutionResult}
    (hdone : turn c s = .done r) (hr : r.IsOutOfGas) :
    ∃ u, step c s = .err .outOfGas u ∧ r = .exception .outOfGas u.gasUsed := by
  cases hstep : step c s with
  | ok b u =>
    unfold turn at hdone
    rw [hstep] at hdone
    cases b with
    | true => cases hdone
    | false =>
      cases hdone
      exact absurd hr not_false
  | err e u =>
    rw [turn_of_err hs hc2 hstep] at hdone
    cases hdone
    cases e with
    | outOfGas => exact ⟨u, rfl, rfl⟩
    | _ => exact absurd hr not_false
  | panic =>
    unfold turn at hdone
    rw [hstep] at hdone
    cases hdone

/-- the turn that runs out of gas spends more under a higher limit, if it has more -/
theorem Higher.turn_short (h : Higher limit s t) (hlt : s.gasLimit.toNat < limit.toNat)
    {r : ExecutionResult} (hdone : turn c s = .done r) (hr : r.IsOutOfGas) :
    r = .exception .outOfGas s.gasLimit ∧ Beyond s.gasLimit (turn c t) := by
  obtain ⟨u, hstep, rfl⟩ := step_of_turn_short h.within h.c2_none hdone hr
  obtain ⟨hmetered, hused⟩ := step_err h.within hstep
  rw [hused rfl, hmetered.along.gasLimit_eq]
  refine ⟨rfl, ?_⟩
  have hcases := step_cases c s
  rw [hstep] at hcases
  cases hcases with
  | unpaid _ _ _ he => exact absurd rfl he
  | paid _ _ _ _ _ hfinal => exact absurd rfl hfinal.2
  | @outOfGas n w hcode hcharge _ _ hout =>
    obtain ⟨rfl, hle⟩ := h.raises
    obtain ⟨v, hcharge'⟩ : ∃ v, charge (withGasLimit s limit) = .ok n v := charge_raised hle hcharge
    have hcases := step_cases c (withGasLimit s limit)
    generalize hrun : step c (withGasLimit s limit) = r at hcases
    cases hcases with
    | finished hend _ => exact absurd hend hcode
    | left hend _ => exact absurd hend hcode
    | unpaid _ hcharge _ _ =>
      rw [hcharge'] at hcharge
      cases hcharge
    | outOfGas _ _ hlocal _ _ =>
      rw [turn_of_err h.within' h.c2_none' hrun]
      show _ < BitVec.toNat _
      rw [hlocal.free.gasLimit_eq]
      exact hlt
    | paid _ hcharge hlocal _ hin hfinal =>
      rw [hcharge'] at hcharge
      cases hcharge
      exact beyond_paid h.within' h.c2_none' hlocal hin hout hrun hfinal
    | panicked =>
      unfold turn
      rw [hrun]
      trivial

/-- **A run out of gas** spends more under a higher limit, if it has more. -/
theorem Higher.run_short (h : Higher limit s t) (hlt : s.gasLimit.toNat < limit.toNat) {n k : Nat}
    {r r' : ExecutionResult} (hn : run c n s = .done r) (hr : r.IsOutOfGas) (hk : run c k t = .done r') :
    r = .exception .outOfGas s.gasLimit ∧ s.gasLimit.toNat < r'.gasUsed.toNat := by
  obtain ⟨m, u, hu, hdone⟩ := loop_done hn
  obtain ⟨v, hv, huv⟩ := h.run_next hu
  have hlimit : u.gasLimit = s.gasLimit :=
    loop_inv (I := fun w => Unhandled s w) (fun _ _ h h' => h.turn h')
      ⟨⟨Std.Refl.refl s, h.within⟩, h.c2_none⟩ hu |>.metered.along.gasLimit_eq
  obtain ⟨hshort, hbeyond⟩ := huv.turn_short (hlimit ▸ hlt) hdone hr
  rw [hlimit] at hshort hbeyond
  refine ⟨hshort, ?_⟩
  obtain ⟨k', hk'⟩ := (returns_of_loop hv).mp ⟨k, hk⟩
  cases hturn : turn c v with
  | next w =>
    rw [hturn] at hbeyond
    have hw := huv.within'
    have hmetered := (step_ok hw (step_of_turn_next hw huv.c2_none' hturn)).1
    obtain ⟨j, hj⟩ := (returns_of_next hturn).mp ⟨k', hk'⟩
    have hend := beyond_run (c := c) hmetered.within (hmetered.along.c2_eq.trans huv.c2_none') hbeyond j
    rw [show run c j w = _ from hj] at hend
    exact hend
  | done r'' =>
    rw [hturn] at hbeyond
    cases (returns_of_done hturn).mp ⟨k', hk'⟩
    exact hbeyond
  | panic => exact absurd hturn ((returns_iff.mp ⟨k, r', hk⟩).1 m v hv)

/-- a run ends within its gas -/
theorem run_within (hs : Within s) (hc2 : s.controlRegisters.c2 = none) {n : Nat} {r : ExecutionResult}
    (h : run c n s = .done r) : r.gasUsed.toNat ≤ s.gasLimit.toNat := by
  obtain ⟨m, u, hu, hdone⟩ := loop_done h
  have hunhandled : Unhandled s u :=
    loop_inv (fun _ _ h h' => h.turn h') ⟨⟨Std.Refl.refl s, hs⟩, hc2⟩ hu
  obtain ⟨v, hv, hr⟩ := done_of_turn hunhandled.metered.within hunhandled.c2_none hdone
  rw [hr, ← (hunhandled.metered.trans hv).along.gasLimit_eq]
  exact hv.within

/-- a run ends where the run under the higher limit returns -/
theorem Higher.run_ends (h : Higher limit s t) {k : Nat} {r : ExecutionResult} (hk : run c k t = .done r) :
    ∃ r', run c k s = .done r' := by
  cases hn : run c k s with
  | next u =>
    obtain ⟨v, hv, _⟩ := h.run_next hn
    rw [hv] at hk
    cases hk
  | done r' => exact ⟨r', rfl⟩
  | panic =>
    obtain ⟨j, u, hu, hturn⟩ := panics_iff.mp (h.run_panic ⟨k, hn⟩)
    exact absurd hturn ((returns_iff.mp ⟨k, r, hk⟩).1 j u hu)

/-- a run that runs out of gas, beside one that returns -/
theorem Higher.run_out (h : Higher limit s t) {n k : Nat} {r r' : ExecutionResult}
    (hn : run c n s = .done r) (hr : r.IsOutOfGas) (hk : run c k t = .done r') :
    r = r' ∨ r = .exception .outOfGas s.gasLimit ∧ s.gasLimit.toNat < r'.gasUsed.toNat := by
  obtain ⟨rfl, hle⟩ := h.raises
  rcases hle.lt_or_eq with hlt | heq
  · exact .inr (h.run_short hlt hn hr hk)
  · have hself : withGasLimit s limit = s := by
      unfold withGasLimit
      rw [← BitVec.eq_of_toNat_eq heq]
    rw [hself] at hk
    exact .inl (loop_done_unique hn hk)

/-- **What the gas limit decides**, from every state without an exception handler. -/
theorem gas_limit_decides (c : Crypto) (s : Interpreter) (limit : Uint64)
    (hc2 : s.controlRegisters.c2 = none) (hused : s.gasUsed.toNat ≤ s.gasLimit.toNat)
    (hlimit : s.gasLimit.toNat ≤ limit.toNat) :
    (∀ r, ¬ r.IsOutOfGas → ((∃ n, run c n s = .done r)
      ↔ (∃ n, run c n (withGasLimit s limit) = .done r) ∧ r.gasUsed.toNat ≤ s.gasLimit.toNat))
    ∧ (∀ r, (∃ n, run c n (withGasLimit s limit) = .done r) → s.gasLimit.toNat < r.gasUsed.toNat →
      ∃ n, run c n s = .done (.exception .outOfGas s.gasLimit))
    ∧ ((∃ n, run c n s = .panic) → ∃ n, run c n (withGasLimit s limit) = .panic) := by
  have hhigher : Higher limit s (withGasLimit s limit) := ⟨⟨rfl, hlimit⟩, hused, hc2⟩
  refine ⟨fun r hr => ⟨?_, ?_⟩, ?_, hhigher.run_panic⟩
  · rintro ⟨n, hn⟩
    exact ⟨hhigher.run_done hn hr, run_within hused hc2 hn⟩
  · rintro ⟨⟨k, hk⟩, hle⟩
    obtain ⟨r', hr'⟩ := hhigher.run_ends hk
    by_cases hshort : r'.IsOutOfGas
    · rcases hhigher.run_out hr' hshort hk with rfl | ⟨_, hlt⟩
      · exact ⟨k, hr'⟩
      · exact absurd hlt (Nat.not_lt.mpr hle)
    · obtain ⟨m, hm⟩ := hhigher.run_done hr' hshort
      cases loop_done_unique hm hk
      exact ⟨k, hr'⟩
  · rintro r ⟨k, hk⟩ hlt
    obtain ⟨r', hr'⟩ := hhigher.run_ends hk
    by_cases hshort : r'.IsOutOfGas
    · rcases hhigher.run_out hr' hshort hk with rfl | ⟨rfl, _⟩
      · exact absurd hlt (Nat.not_lt.mpr (run_within hused hc2 hr'))
      · exact ⟨k, hr'⟩
    · obtain ⟨m, hm⟩ := hhigher.run_done hr' hshort
      cases loop_done_unique hm hk
      exact absurd hlt (Nat.not_lt.mpr (run_within hused hc2 hr'))

/-- five instructions that cost one each, and gas for three of them -/
def fiveNops : Interpreter :=
  { Interpreter.new ⟨List.replicate 5 0, [], false, Nat.le_of_ble_eq_true rfl, Nat.zero_le _⟩ emptyCell
      sampleMessage sampleContext with gasLimit := 3 }

theorem gas_limit_decides_sample : ∃ n, run sampleCrypto n fiveNops = .done (.exception .outOfGas 3) :=
  (gas_limit_decides sampleCrypto fiveNops 5 rfl (Nat.zero_le _) (by decide)).2.1
    (.success emptyCell [] 5) ⟨6, rfl⟩ (by decide)

end

end Onx.Vm
