import Onx.Lib.Runs
import Onx.State.Account

/-!
# Logical time over account histories

A history is a chain of account states from an account that does not exist yet, each accepted as
the successor of the one before at the logical time of a transaction.

* `validateTransition_ok`   the transitions that are accepted;
* `settled_of_accepted`     in every history nothing follows destruction, no account is uninitialized
                            again, and records carry the time they were written at;
* `forward_iff`             **logical time increases** exactly over the histories that destroy an
                            account after its last record;
* `destroyed_before`        an account of time 10 that is destroyed at time 3.
-/

namespace Onx

/-- the logical time of the last transaction, for the states that record it -/
def AccountState.lastTransLt : AccountState → Option Uint64
  | .active _ lt .. => some lt
  | .frozen _ lt _ => some lt
  | .uninitialized => none
  | .destroyed => none

@[simp] theorem AccountState.lastTransLt_uninitialized :
    AccountState.uninitialized.lastTransLt = none := rfl

@[simp] theorem AccountState.lastTransLt_destroyed : AccountState.destroyed.lastTransLt = none := rfl

/-- a state that records a time has been opened, and not destroyed -/
theorem AccountState.ne_of_lastTransLt {s : AccountState} {lt : Uint64}
    (h : s.lastTransLt = some lt) : s ≠ .uninitialized ∧ s ≠ .destroyed := by
  constructor
  · rintro rfl
    cases h
  · rintro rfl
    cases h

/-- a proposed successor and the logical time of its transaction -/
structure Successor where
  next : AccountState
  newLt : Uint64

namespace Successor

def step (_ : AccountState) (t : Successor) : AccountState := t.next

def Accepted (s : AccountState) (t : Successor) : Prop :=
  s.validateTransition t.next t.newLt = .ok ()

instance instDecidableAccepted (s : AccountState) (t : Successor) : Decidable (t.Accepted s) :=
  inferInstanceAs (Decidable (_ = _))

/-- an account is destroyed later than it was written last -/
def Timely (s : AccountState) (t : Successor) : Prop :=
  t.next = .destroyed → ∀ lt ∈ s.lastTransLt, lt < t.newLt

instance instDecidableTimely (s : AccountState) (t : Successor) : Decidable (t.Timely s) :=
  @instDecidableForall _ _ _ (Option.decidableForallMem s.lastTransLt)

end Successor

/-- **The accepted transitions**: nothing happens, an account is opened, written again, or
destroyed. -/
theorem AccountState.validateTransition_ok {s next : AccountState} {newLt : Uint64}
    (h : s.validateTransition next newLt = .ok ()) :
    (s = .uninitialized ∧ next = .uninitialized) ∨
    (s = .uninitialized ∧ next.lastTransLt = some newLt) ∨
    (∃ lt, s.lastTransLt = some lt ∧ next.lastTransLt = some newLt ∧ lt < newLt) ∨
    (∃ lt, s.lastTransLt = some lt ∧ next = .destroyed) := by
  have hlt : ∀ {curLt nextLt : Uint64}, validateLt curLt nextLt newLt = .ok () →
      nextLt = newLt ∧ curLt < newLt := by
    intro curLt nextLt h
    unfold validateLt at h
    split_ifs at h with hcond
    push Not at hcond
    exact ⟨hcond.2, BitVec.lt_def.mpr hcond.1⟩
  cases s with
  | uninitialized =>
    cases next with
    | uninitialized => exact .inl ⟨rfl, rfl⟩
    | active balance lt code data stat =>
      dsimp only [validateTransition] at h
      split_ifs at h with hne
      rw [not_not.mp hne]
      exact .inr (.inl ⟨rfl, rfl⟩)
    | frozen => cases h
    | destroyed => cases h
  | active balance lt code data stat =>
    cases next with
    | uninitialized => cases h
    | active =>
      obtain ⟨rfl, hcur⟩ := hlt h
      exact .inr (.inr (.inl ⟨lt, rfl, rfl, hcur⟩))
    | frozen =>
      obtain ⟨rfl, hcur⟩ := hlt h
      exact .inr (.inr (.inl ⟨lt, rfl, rfl, hcur⟩))
    | destroyed => exact .inr (.inr (.inr ⟨lt, rfl, rfl⟩))
  | frozen balance lt storage =>
    cases next with
    | uninitialized => cases h
    | active =>
      obtain ⟨rfl, hcur⟩ := hlt h
      exact .inr (.inr (.inl ⟨lt, rfl, rfl, hcur⟩))
    | frozen =>
      obtain ⟨rfl, hcur⟩ := hlt h
      exact .inr (.inr (.inl ⟨lt, rfl, rfl, hcur⟩))
    | destroyed => exact .inr (.inr (.inr ⟨lt, rfl, rfl⟩))
  | destroyed => cases h

/-! ## histories -/

/-- what the states and times of a history should satisfy -/
structure Forward (ts : List Successor) : Prop where
  /-- nothing follows a destroyed account -/
  last : ts.Pairwise (fun a _ => a.next ≠ .destroyed)
  left : ts.Pairwise (fun a b => a.next ≠ .uninitialized → b.next ≠ .uninitialized)
  carried : ∀ t ∈ ts, ∀ lt ∈ t.next.lastTransLt, lt = t.newLt
  increasing : ts.Pairwise (fun a b => a.next ≠ .uninitialized → a.newLt < b.newLt)

section
variable {s : AccountState} {ts : List Successor}

theorem nil_of_destroyed
    (h : Runs.Along Successor.step (fun s t => t.Accepted s) .destroyed ts) : ts = [] := by
  cases ts with
  | nil => rfl
  | cons t ts => cases h.1

/-- an account that is opened stays so -/
theorem next_ne_uninitialized (h : Runs.Along Successor.step (fun s t => t.Accepted s) s ts)
    (hs : s ≠ .uninitialized) : ∀ t ∈ ts, t.next ≠ .uninitialized := by
  induction ts generalizing s with
  | nil => exact nofun
  | cons t ts ih =>
    obtain ⟨hhead, htail⟩ := h
    have hnext : t.next ≠ .uninitialized := by
      rcases AccountState.validateTransition_ok hhead with
        ⟨hu, _⟩ | ⟨hu, _⟩ | ⟨_, _, hlt, _⟩ | ⟨_, _, hd⟩
      · exact absurd hu hs
      · exact absurd hu hs
      · exact (AccountState.ne_of_lastTransLt hlt).1
      · rw [hd]
        exact nofun
    exact List.forall_mem_cons.mpr ⟨hnext, ih htail hnext⟩

/-- **What holds of every history.** -/
theorem settled_of_accepted (h : Runs.Along Successor.step (fun s t => t.Accepted s) s ts) :
    ts.Pairwise (fun a _ => a.next ≠ .destroyed)
    ∧ ts.Pairwise (fun a b => a.next ≠ .uninitialized → b.next ≠ .uninitialized)
    ∧ ∀ t ∈ ts, ∀ lt ∈ t.next.lastTransLt, lt = t.newLt := by
  induction ts generalizing s with
  | nil => exact ⟨.nil, .nil, nofun⟩
  | cons t ts ih =>
    obtain ⟨hhead, htail⟩ := h
    obtain ⟨hlast, hleft, hcarried⟩ := ih htail
    refine ⟨.cons (fun b hb hd => ?_) hlast, .cons (fun b hb hne => ?_) hleft,
      List.forall_mem_cons.mpr ⟨fun lt hlt => ?_, hcarried⟩⟩
    · unfold Successor.step at htail
      rw [hd] at htail
      rw [nil_of_destroyed htail] at hb
      cases hb
    · exact next_ne_uninitialized htail hne b hb
    · rcases AccountState.validateTransition_ok hhead with
        ⟨_, hu⟩ | ⟨_, hsome⟩ | ⟨_, _, hsome, _⟩ | ⟨_, _, hd⟩
      · rw [hu] at hlt
        cases hlt
      · exact Option.some.inj (hlt.symm.trans hsome)
      · exact Option.some.inj (hlt.symm.trans hsome)
      · rw [hd] at hlt
        cases hlt

/-- times increase, from the time of the first state on -/
theorem increasing_iff_timely (h : Runs.Along Successor.step (fun s t => t.Accepted s) s ts) :
    ts.Pairwise (fun a b => a.next ≠ .uninitialized → a.newLt < b.newLt)
      ∧ (∀ lt ∈ s.lastTransLt, ∀ t ∈ ts, lt < t.newLt)
    ↔ Runs.Along Successor.step (fun s t => t.Timely s) s ts := by
  induction ts generalizing s with
  | nil => exact iff_of_true ⟨.nil, fun _ _ => nofun⟩ trivial
  | cons t ts ih =>
    obtain ⟨hhead, htail⟩ := h
    rw [List.pairwise_cons, Runs.along_cons]
    rw [← ih htail]
    unfold Successor.Timely Successor.step
    rcases AccountState.validateTransition_ok hhead with
      ⟨rfl, hnext⟩ | ⟨rfl, hnext⟩ | ⟨cur, hs, hnext, hlt⟩ | ⟨cur, hs, hnext⟩
    · simp [hnext]
    · have hopen := (AccountState.ne_of_lastTransLt hnext).1
      simp [hnext, hopen, and_comm]
    · obtain ⟨hopen, hlive⟩ := AccountState.ne_of_lastTransLt hnext
      have hrest : (∀ b ∈ ts, t.newLt < b.newLt) → ∀ b ∈ ts, cur < b.newLt :=
        fun hall b hb => BitVec.lt_trans hlt (hall b hb)
      simp only [hs, hnext, hopen, hlive, Option.mem_def, Option.some.injEq, forall_eq',
        List.forall_mem_cons, ne_eq, not_false_eq_true, forall_const, false_implies, true_and, hlt]
      exact ⟨fun ⟨⟨hall, hpair⟩, _⟩ => ⟨hpair, hall⟩,
        fun ⟨hpair, hall⟩ => ⟨⟨hall, hpair⟩, hrest hall⟩⟩
    · unfold Successor.step at htail
      rw [hnext] at htail
      rw [nil_of_destroyed htail]
      simp [hs, hnext]

end

/-- **When the history of an account moves forward in logical time.** -/
theorem forward_iff (ts : List Successor)
    (h : Runs.Along Successor.step (fun s t => t.Accepted s) .uninitialized ts) :
    Forward ts ↔ Runs.Along Successor.step (fun s t => t.Timely s) .uninitialized ts := by
  obtain ⟨hlast, hleft, hcarried⟩ := settled_of_accepted h
  rw [← increasing_iff_timely h]
  exact ⟨fun hf => ⟨hf.increasing, nofun⟩, fun ⟨hincreasing, _⟩ =>
    ⟨hlast, hleft, hcarried, hincreasing⟩⟩

/-- an account whose last transaction is of this time -/
def recordAt (lt : Uint64) : AccountState := .active 100 lt 1 2 ⟨1, 100⟩

theorem forward_sample : Forward [⟨.uninitialized, 20⟩, ⟨recordAt 10, 10⟩, ⟨.frozen 100 12 3, 12⟩,
    ⟨.destroyed, 15⟩] :=
  (forward_iff _ (by decide +kernel)).mpr (by decide +kernel)

/-- **An account is destroyed at a time before its last record.** -/
theorem destroyed_before :
    Runs.Along Successor.step (fun s t => t.Accepted s) .uninitialized
      [⟨recordAt 10, 10⟩, ⟨.destroyed, 3⟩]
    ∧ ¬ ∀ ts, Runs.Along Successor.step (fun s t => t.Accepted s) .uninitialized ts → Forward ts := by
  have hrun : Runs.Along Successor.step (fun s t => t.Accepted s) .uninitialized
      [⟨recordAt 10, 10⟩, ⟨.destroyed, 3⟩] := by decide +kernel
  refine ⟨hrun, fun h => ?_⟩
  obtain ⟨hhead, _⟩ := List.pairwise_cons.mp (h _ hrun).increasing
  exact absurd (hhead _ List.mem_cons_self nofun) (by decide)

end Onx
