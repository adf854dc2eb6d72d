import Mathlib.Algebra.BigOperators.Group.List.Basic
import Onx.Lib.Runs
import Onx.State.Account

/-!
# Value over account histories

A history is a chain of account states, each accepted as the successor of the one before with a
balance delta.

* `loss_of_accepted`     one transition: balance and delta arrive in the next balance but for a loss,
                         which is never negative;
* `value_conserved_iff`  a history keeps all value exactly when no transition of it loses any;
* `value_destroyed`      an account of 100 that is destroyed.
-/

namespace Onx

/-- a record with a balance of its own -/
def AccountState.hasBalance : AccountState → Bool
  | .active .. => true
  | .frozen .. => true
  | .uninitialized => false
  | .destroyed => false

/-- a proposed successor, with the logical time and the balance delta of the transaction -/
structure Transition where
  next : AccountState
  newLt : Uint64
  balanceDelta : BitVec 128

namespace Transition

/-- the state after a transition -/
def step (_ : AccountState) (t : Transition) : AccountState := t.next

/-- the transition passes all checks -/
def Accepted (s : AccountState) (t : Transition) : Prop :=
  s.validateTransitionWithDelta t.next t.newLt t.balanceDelta = .ok ()

instance instDecidableAccepted (s : AccountState) (t : Transition) : Decidable (t.Accepted s) :=
  inferInstanceAs (Decidable (_ = _))

/-- Where the next record has a balance, the old balance and the delta fit into it; where it has
none, the delta takes out the whole balance. -/
def Fits (s : AccountState) (t : Transition) : Prop :=
  if t.next.hasBalance then s.balanceNanos.toNat + t.balanceDelta.toInt < 2^128
  else s.balanceNanos.toNat + t.balanceDelta.toInt = 0

end Transition

/-- the balance that is expected behind a delta -/
theorem expected_balance {cur delta : BitVec 128}
    (hcovered : ¬ (delta.toInt < 0 ∧ delta.toInt.natAbs > cur.toNat)) :
    0 ≤ cur.toNat + delta.toInt ∧ ∃ loss : ℕ,
      ((if delta.toInt ≥ 0 then satAdd cur delta
        else cur - BitVec.ofNat 128 delta.toInt.natAbs).toNat : ℤ) + loss = cur.toNat + delta.toInt
      ∧ (loss = 0 ↔ cur.toNat + delta.toInt < 2^128) := by
  have hcur := cur.isLt
  by_cases hpos : delta.toInt ≥ 0
  · have hdelta : (delta.toNat : ℤ) = delta.toInt := by
      have hcond := BitVec.toInt_eq_toNat_cond delta
      have hlt := delta.isLt
      split_ifs at hcond <;> omega
    rw [if_pos hpos, toNat_satAdd]
    refine ⟨by omega, cur.toNat + delta.toNat - min (cur.toNat + delta.toNat) (2^128 - 1), ?_, ?_⟩
    · omega
    · omega
  · have habs : delta.toInt.natAbs ≤ cur.toNat := by omega
    have hnat : (BitVec.ofNat 128 delta.toInt.natAbs).toNat = delta.toInt.natAbs := by
      rw [BitVec.toNat_ofNat, Nat.mod_eq_of_lt (by omega)]
    refine ⟨by omega, 0, ?_, ?_⟩
    · rw [if_neg hpos, BitVec.toNat_sub_of_le (by rw [BitVec.le_def, hnat]; exact habs), hnat]
      omega
    · omega

theorem next_of_validateBalance {next : AccountState} {expected : Uint128}
    (h : next.validateBalance expected = .ok ()) :
    next.hasBalance = true ∧ next.balanceNanos = expected
      ∨ next.hasBalance = false ∧ next.balanceNanos = 0 := by
  cases next with
  | uninitialized => exact Or.inr ⟨rfl, rfl⟩
  | destroyed => exact Or.inr ⟨rfl, rfl⟩
  | active balance lt code data stat =>
    unfold AccountState.validateBalance at h
    dsimp only at h
    split_ifs at h with hne
    exact Or.inl ⟨rfl, not_not.mp hne⟩
  | frozen balance lt storage =>
    unfold AccountState.validateBalance at h
    dsimp only at h
    split_ifs at h with hne
    exact Or.inl ⟨rfl, not_not.mp hne⟩

/-- **One transition**: what arrives and what is lost. -/
theorem Transition.loss_of_accepted {s : AccountState} {t : Transition} (h : t.Accepted s) :
    ∃ loss : ℕ, (t.next.balanceNanos.toNat : ℤ) + loss
        = s.balanceNanos.toNat + t.balanceDelta.toInt
      ∧ (loss = 0 ↔ t.Fits s) := by
  unfold Accepted AccountState.validateTransitionWithDelta at h
  cases hlife : s.validateTransition t.next t.newLt with
  | error e =>
    rw [hlife] at h
    cases h
  | ok u =>
    rw [hlife] at h
    dsimp only [bind, Except.bind] at h
    by_cases hshort : t.balanceDelta.toInt < 0
        ∧ t.balanceDelta.toInt.natAbs > s.balanceNanos.toNat
    · rw [if_pos hshort] at h
      cases h
    · rw [if_neg hshort] at h
      obtain ⟨hpos, loss, hloss, hzero⟩ := expected_balance hshort
      unfold Fits
      rcases next_of_validateBalance h with ⟨hhas, hnext⟩ | ⟨hhas, hnext⟩
      · rw [if_pos hhas, hnext]
        exact ⟨loss, hloss, hzero⟩
      · -- all that is left is lost
        rw [if_neg (by rw [hhas]; exact Bool.false_ne_true), hnext]
        obtain ⟨rest, hrest⟩ := Int.eq_ofNat_of_zero_le hpos
        refine ⟨rest, ?_, ?_⟩
        · rw [hrest]
          exact zero_add _
        · rw [hrest]
          exact Int.natCast_eq_zero.symm

/-- the deltas of a history -/
def deltas (ts : List Transition) : ℤ := (ts.map fun t => t.balanceDelta.toInt).sum

theorem loss_of_history {s : AccountState} {ts : List Transition}
    (h : Runs.Along Transition.step (fun s t => t.Accepted s) s ts) :
    ∃ loss : ℕ, ((Runs.run Transition.step s ts).balanceNanos.toNat : ℤ) + loss
        = s.balanceNanos.toNat + deltas ts
      ∧ (loss = 0 ↔ Runs.Along Transition.step (fun s t => t.Fits s) s ts) := by
  induction ts generalizing s with
  | nil => exact ⟨0, by simp [deltas], iff_of_true rfl trivial⟩
  | cons t ts ih =>
    obtain ⟨hhead, htail⟩ := h
    obtain ⟨first, hfirst, hfits⟩ := Transition.loss_of_accepted hhead
    obtain ⟨later, hlater, hrest⟩ := ih htail
    refine ⟨first + later, ?_, ?_⟩
    · rw [Runs.run_cons]
      unfold deltas at hlater ⊢
      rw [List.map_cons, List.sum_cons]
      unfold Transition.step at hlater ⊢
      push_cast
      omega
    · rw [Nat.add_eq_zero_iff, hfits, hrest]
      rfl

/-- **Value is conserved exactly over the histories none of whose transitions loses any.** -/
theorem value_conserved_iff (s : AccountState) (ts : List Transition)
    (h : Runs.Along Transition.step (fun s t => t.Accepted s) s ts) :
    ((Runs.run Transition.step s ts).balanceNanos.toNat : ℤ) = s.balanceNanos.toNat + deltas ts
      ↔ Runs.Along Transition.step (fun s t => t.Fits s) s ts := by
  obtain ⟨loss, hloss, hzero⟩ := loss_of_history h
  rw [← hzero]
  omega

def sampleAccount (balance : Uint128) (lt : Uint64) : AccountState :=
  .active balance lt 1 2 ⟨1, 100⟩

theorem value_conserved_sample :
    ((Runs.run Transition.step (sampleAccount 100 10)
      [⟨sampleAccount 70 15, 15, -30⟩]).balanceNanos.toNat : ℤ)
        = (sampleAccount 100 10).balanceNanos.toNat + deltas [⟨sampleAccount 70 15, 15, -30⟩]
      ↔ Runs.Along Transition.step (fun s t => t.Fits s) (sampleAccount 100 10)
        [⟨sampleAccount 70 15, 15, -30⟩] :=
  value_conserved_iff (sampleAccount 100 10) [⟨sampleAccount 70 15, 15, -30⟩] (by decide +kernel)

/-- **An account of 100 is destroyed with a delta of 0.** -/
theorem value_destroyed : ¬ ∀ (s : AccountState) (ts : List Transition),
    Runs.Along Transition.step (fun s t => t.Accepted s) s ts →
    ((Runs.run Transition.step s ts).balanceNanos.toNat : ℤ) = s.balanceNanos.toNat + deltas ts := by
  intro h
  have hkept := h (sampleAccount 100 10) [⟨.destroyed, 15, 0⟩] (by decide +kernel)
  exact absurd hkept (by decide +kernel)

end Onx
