import Onx.Consensus.Evidence

/-!
# Timeouts of steps

Calls on a clock that does not go back.  `on_timeout` measures every step from the start of the
round, also the steps that the round reaches later.

* `Watched.step`         an engine, and when it entered its step;
* `Full`                 a timeout that fires has given the step its whole duration;
* `full_timeout_iff`     **in which runs every step gets its timeout**: those that do not call
                         `on_timeout` between the two deadlines of a step;
* `step_cut_short`       a step that ends one tick after it began.
-/

namespace Onx.Consensus

/-- the configured duration of a step -/
def RoundTimeouts.forStep (timeouts : RoundTimeouts) : ConsensusStep → Uint64
  | .proposal => timeouts.proposal
  | .preVote => timeouts.prevote
  | .preCommit => timeouts.precommit
  | .commit => timeouts.commit
  | .finalized => BitVec.allOnes 64

/-- what a call brings -/
inductive Received where
  | proposal (p : ConsensusProposal)
  | vote (v : ConsensusVote)
  | timeout

/-- a call, and the clock when it is made -/
structure TimedCall where
  now : Uint64
  received : Received

namespace TimedCall

def call (t : TimedCall) : Call :=
  match t.received with
  | .proposal p => .proposal p
  | .vote v => .vote v
  | .timeout => .timeout t.now

/-- `on_timeout` returns true -/
def fires (t : TimedCall) (e : ConsensusEngine) : Bool :=
  match t.received with
  | .timeout => (e.onTimeout t.now).1
  | _ => false

end TimedCall

/-- an engine, and the time of the event by which it entered its step -/
structure Watched where
  engine : ConsensusEngine
  enteredAt : Uint64

/-- a step is entered where it changes, and where a timeout begins a round -/
def Watched.step (c : Crypto) (w : Watched) (t : TimedCall) : Watched where
  engine := t.call.apply c w.engine
  enteredAt :=
    if (t.call.apply c w.engine).step ≠ w.engine.step ∨ t.fires w.engine = true then t.now
    else w.enteredAt

/-- a timeout that fires comes after the whole duration of the step -/
def Full (timeouts : RoundTimeouts) (w : Watched) (t : TimedCall) : Prop :=
  t.fires w.engine = true →
    w.enteredAt.toNat + (timeouts.forStep w.engine.step).toNat ≤ t.now.toNat

/-- `on_timeout` is not called in a voting step after its duration from the start of the round and
before its duration from when it was entered -/
def Patient (timeouts : RoundTimeouts) (w : Watched) (t : TimedCall) : Prop :=
  t.received = .timeout → ConsensusEngine.expectedPhase w.engine.step ≠ none →
    ¬ (w.engine.roundStartedAt.toNat + (timeouts.forStep w.engine.step).toNat ≤ t.now.toNat
      ∧ t.now.toNat < w.enteredAt.toNat + (timeouts.forStep w.engine.step).toNat)

/-- the clock does not go back, from a reading on -/
def Ascending (start : Uint64) (calls : List TimedCall) : Prop :=
  (start :: calls.map (·.now)).Pairwise (· ≤ ·)

instance instDecidableFull (timeouts : RoundTimeouts) (w : Watched) (t : TimedCall) :
    Decidable (Full timeouts w t) :=
  inferInstanceAs (Decidable (_ → _))

instance instDecidableTimeout (t : TimedCall) : Decidable (t.received = .timeout) :=
  match t.received with
  | .proposal _ => .isFalse nofun
  | .vote _ => .isFalse nofun
  | .timeout => .isTrue rfl

instance instDecidablePatient (timeouts : RoundTimeouts) (w : Watched) (t : TimedCall) :
    Decidable (Patient timeouts w t) :=
  inferInstanceAs (Decidable (_ → _ → ¬ _))

instance instDecidableAscending (start : Uint64) (calls : List TimedCall) :
    Decidable (Ascending start calls) :=
  inferInstanceAs (Decidable (List.Pairwise _ _))

section
variable {c : Crypto} {timeouts : RoundTimeouts}

theorem timeoutForStep_eq {e : ConsensusEngine} (h : e.timeouts = timeouts) :
    e.timeoutForStep = timeouts.forStep e.step := by
  obtain rfl := h
  unfold ConsensusEngine.timeoutForStep RoundTimeouts.forStep
  cases e.step <;> rfl

theorem fires_iff {e : ConsensusEngine} {t : TimedCall} (ht : e.timeouts = timeouts)
    (hclock : e.roundStartedAt ≤ t.now) :
    t.fires e = true ↔ t.received = .timeout ∧ e.step ≠ .finalized
      ∧ e.roundStartedAt.toNat + (timeouts.forStep e.step).toNat ≤ t.now.toNat := by
  have hle := BitVec.le_def.mp hclock
  obtain ⟨now, received⟩ := t
  cases received with
  | proposal p => simp [TimedCall.fires]
  | vote v => simp [TimedCall.fires]
  | timeout =>
    unfold TimedCall.fires ConsensusEngine.onTimeout
    dsimp only at hle ⊢
    rw [timeoutForStep_eq ht]
    split_ifs with h
    · refine iff_of_false not_false ?_
      rintro ⟨_, hstep, hdue⟩
      rcases h with hfinal | hearly
      · exact hstep hfinal
      · omega
    · obtain ⟨hstep, hdue⟩ := not_or.mp h
      exact iff_of_true rfl ⟨rfl, hstep, by omega⟩

theorem advanceAfterQuorum_deadline {e : ConsensusEngine} (phase : VotePhase) {p : ConsensusProposal}
    (h : e.proposal = some p) :
    (e.advanceAfterQuorum phase).timeouts = e.timeouts
      ∧ (e.advanceAfterQuorum phase).roundStartedAt = e.roundStartedAt
      ∧ (e.advanceAfterQuorum phase).step ≠ .proposal := by
  cases phase with
  | preVote => exact ⟨rfl, rfl, nofun⟩
  | preCommit => exact ⟨rfl, rfl, nofun⟩
  | commit =>
    unfold ConsensusEngine.advanceAfterQuorum
    rw [h]
    exact ⟨rfl, rfl, nofun⟩

/-- the effect of a call on the deadline -/
theorem apply_cases (e : ConsensusEngine) (t : TimedCall) :
    (t.call.apply c e).timeouts = e.timeouts ∧
    (t.fires e = true ∧ (t.call.apply c e).step = .proposal
        ∧ (t.call.apply c e).roundStartedAt = t.now ∨
      t.fires e = false ∧ (t.call.apply c e).roundStartedAt = e.roundStartedAt
        ∧ ((t.call.apply c e).step = e.step ∨ (t.call.apply c e).step ≠ .proposal)) := by
  obtain ⟨now, received⟩ := t
  cases received with
  | proposal p =>
    show (e.receiveProposal c p).2.timeouts = _ ∧ _
    unfold TimedCall.call Call.apply
    dsimp only
    rcases e.receiveProposal_cases c p with ⟨_, hr⟩ | ⟨_, _, _, _, _, hr⟩ | ⟨_, _, _, hr⟩
    · rw [hr]
      exact ⟨rfl, .inr ⟨rfl, rfl, .inl rfl⟩⟩
    · rw [hr]
      exact ⟨rfl, .inr ⟨rfl, rfl, .inl rfl⟩⟩
    · rw [hr]
      exact ⟨rfl, .inr ⟨rfl, rfl, .inr nofun⟩⟩
  | vote v =>
    show (e.receiveVote c v).2.timeouts = _ ∧ _
    unfold TimedCall.call Call.apply
    dsimp only
    rcases e.receiveVote_cases c v with ⟨_, hr⟩ | ⟨_, _, _, _, _, _, hr⟩ | ⟨p, hp, _, _, _, hr⟩
    · rw [hr]
      exact ⟨rfl, .inr ⟨rfl, rfl, .inl rfl⟩⟩
    · rw [hr]
      exact ⟨rfl, .inr ⟨rfl, rfl, .inl rfl⟩⟩
    · rw [hr]
      dsimp only
      split_ifs with hq
      · obtain ⟨htimeouts, hstart, hstep⟩ := advanceAfterQuorum_deadline v.phase
          (e:=e.withVote v) hp
        exact ⟨htimeouts, .inr ⟨rfl, hstart, .inr hstep⟩⟩
      · exact ⟨rfl, .inr ⟨rfl, rfl, .inl rfl⟩⟩
  | timeout =>
    show (e.onTimeout now).2.timeouts = _ ∧ _
    unfold TimedCall.call Call.apply TimedCall.fires
    dsimp only
    rcases e.onTimeout_cases now with hr | ⟨_, hr⟩
    · rw [hr]
      exact ⟨rfl, .inr ⟨rfl, rfl, .inl rfl⟩⟩
    · rw [hr]
      exact ⟨rfl, .inl ⟨rfl, rfl, rfl⟩⟩

/-- what is known of an engine and of when it entered its step -/
structure Watching (timeouts : RoundTimeouts) (w : Watched) : Prop where
  timeouts_eq : w.engine.timeouts = timeouts
  entered : w.engine.step = .proposal → w.enteredAt = w.engine.roundStartedAt

variable {w : Watched} {t : TimedCall}

theorem Watching.step (h : Watching timeouts w) : Watching timeouts (w.step c t) := by
  obtain ⟨htimeouts, hcases⟩ := @apply_cases c w.engine t
  refine ⟨htimeouts.trans h.timeouts_eq, fun hstep => ?_⟩
  unfold Watched.step at hstep ⊢
  dsimp only at hstep ⊢
  rcases hcases with ⟨hfires, _, hstart⟩ | ⟨hfires, hstart, hsame | hother⟩
  · rw [if_pos (.inr hfires), hstart]
  · rw [if_neg (not_or.mpr ⟨not_not.mpr hsame, by rw [hfires]; nofun⟩), hstart]
    exact h.entered (hsame ▸ hstep)
  · exact absurd hstep hother

/-- **When a timeout that fires has given a step its duration.** -/
theorem full_iff (h : Watching timeouts w) (hclock : w.engine.roundStartedAt ≤ t.now) :
    Full timeouts w t ↔ Patient timeouts w t := by
  unfold Full Patient
  rw [fires_iff h.timeouts_eq hclock]
  cases hstep : w.engine.step with
  | proposal =>
    refine iff_of_true (fun ⟨_, _, hdue⟩ => ?_) fun _ hphase => absurd rfl hphase
    rw [h.entered hstep]
    exact hdue
  | finalized => exact iff_of_true (fun ⟨_, hopen, _⟩ => absurd rfl hopen) fun _ hphase => absurd rfl hphase
  | preVote | preCommit | commit =>
    refine ⟨fun hfull hreceived _ ⟨hdue, hearly⟩ => ?_, fun hpatient ⟨hreceived, _, hdue⟩ => ?_⟩
    · exact Nat.not_le.mpr hearly (hfull ⟨hreceived, nofun, hdue⟩)
    · exact Nat.not_lt.mp fun hearly => hpatient hreceived nofun ⟨hdue, hearly⟩

/-- the clock along a run -/
theorem Ascending.step {calls : List TimedCall} {start : Uint64}
    (hclock : Ascending start (t :: calls)) (hstart : w.engine.roundStartedAt ≤ start) :
    w.engine.roundStartedAt ≤ t.now ∧ Ascending t.now calls
      ∧ (w.step c t).engine.roundStartedAt ≤ t.now := by
  unfold Ascending at hclock
  rw [List.map_cons, List.pairwise_cons] at hclock
  have hnow : w.engine.roundStartedAt ≤ t.now := hstart.trans (hclock.1 _ List.mem_cons_self)
  refine ⟨hnow, hclock.2, ?_⟩
  rcases (@apply_cases c w.engine t).2 with ⟨_, _, hbegun⟩ | ⟨_, hkept, _⟩
  · exact hbegun.le
  · exact hkept.trans_le hnow

/-- along a run, from any state in it -/
theorem along_full_iff {calls : List TimedCall} {start : Uint64} (h : Watching timeouts w)
    (hclock : Ascending start calls) (hstart : w.engine.roundStartedAt ≤ start) :
    Runs.Along (Watched.step c) (Full timeouts) w calls
      ↔ Runs.Along (Watched.step c) (Patient timeouts) w calls := by
  induction calls generalizing w start with
  | nil => exact Iff.rfl
  | cons t calls ih =>
    obtain ⟨hnow, hrest, hnext⟩ := hclock.step (c:=c) hstart
    rw [Runs.along_cons, Runs.along_cons, full_iff h hnow, ih (h.step (c:=c)) hrest hnext]

/-- the clock of a new engine -/
theorem watching_new {shard : ShardIdent} {height start : Uint64}
    {validators : List ValidatorSetEntry} {e : ConsensusEngine}
    (h : ConsensusEngine.new shard height validators start timeouts = .ok e) :
    Watching timeouts ⟨e, start⟩ ∧ e.roundStartedAt = start := by
  obtain ⟨V, total, hpos, _, _, rfl⟩ := new_ok h
  exact ⟨⟨rfl, fun _ => rfl⟩, rfl⟩

/-- **In which runs every step gets its full timeout.** -/
theorem full_timeout_iff (c : Crypto) {shard : ShardIdent} {height start : Uint64}
    {validators : List ValidatorSetEntry} {timeouts : RoundTimeouts} {e : ConsensusEngine}
    (h : ConsensusEngine.new shard height validators start timeouts = .ok e)
    (calls : List TimedCall) (hclock : Ascending start calls) :
    Runs.Along (Watched.step c) (Full timeouts) ⟨e, start⟩ calls
      ↔ Runs.Along (Watched.step c) (Patient timeouts) ⟨e, start⟩ calls := by
  obtain ⟨hwatching, hstart⟩ := watching_new h
  exact along_full_iff hwatching hclock hstart.le

end

/-- a proposal at once, and a timeout after three ticks -/
def patientCalls : List TimedCall := [⟨0, .proposal (sampleProposal 0 5 0)⟩, ⟨3, .timeout⟩]

theorem full_timeout_sample :
    (Runs.run (Watched.step sampleCrypto) ⟨sampleEngine, 0⟩ patientCalls).engine.round = 1
    ∧ Runs.Along (Watched.step sampleCrypto) (Full RoundTimeouts.default) ⟨sampleEngine, 0⟩
      patientCalls :=
  ⟨by decide +kernel,
    (full_timeout_iff sampleCrypto sampleEngine_new patientCalls (by decide)).mpr (by decide +kernel)⟩

/-- the proposal after two ticks, and a timeout after three -/
def hurriedCalls : List TimedCall := [⟨2, .proposal (sampleProposal 0 5 0)⟩, ⟨3, .timeout⟩]

/-- **A step that ends one tick after it began**, although it has three. -/
theorem step_cut_short :
    Ascending 0 hurriedCalls
    ∧ ¬ ∀ (c : Crypto) (shard : ShardIdent) (height start : Uint64) (validators : List ValidatorSetEntry)
      (timeouts : RoundTimeouts) (e : ConsensusEngine) (calls : List TimedCall),
      ConsensusEngine.new shard height validators start timeouts = .ok e → Ascending start calls →
        Runs.Along (Watched.step c) (Full timeouts) ⟨e, start⟩ calls := by
  have hclock : Ascending 0 hurriedCalls := by decide
  refine ⟨hclock, fun h => ?_⟩
  have hfull := h sampleCrypto _ _ _ _ _ _ hurriedCalls sampleEngine_new hclock
  exact absurd hfull (by decide +kernel)

end Onx.Consensus
