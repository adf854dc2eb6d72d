import Onx.Consensus.Stake
import Onx.Lib.Runs

/-!
# Commit evidence

What a finalized block stands on.  `EngineInv` ties the step, the proposal, the three vote
buckets and the finalized block of an engine together; every call keeps it
(`EngineInv.apply`), so it holds in every state reached from `new`.

* `receiveProposal_cases`, `receiveVote_cases`, `onTimeout_cases`   all a call can do;
* `VoteFor`, `ProposalFor`    what a counted vote and an accepted proposal satisfy;
* `Certificate`               a bucket of such votes with two thirds of the stake;
* `commit_evidence_sound`     the evidence of a finalized block in any run from `new`.
-/

set_option linter.unusedVariables false

namespace Onx.Consensus

/-- a vote of a listed validator for this round, phase and hash, with a signature that verifies -/
structure VoteFor (c : Crypto) (shard : ShardIdent) (height : Uint64)
    (V : OrdMap Uint32 ValidatorSetEntry) (round : Uint32) (phase : VotePhase) (hash : Uint256)
    (v : ConsensusVote) : Prop where
  height_eq : v.height = height
  round_eq : v.round = round
  phase_eq : v.phase = phase
  hash_eq : v.blockHash = hash
  verified : ∃ entry, V.get? v.validatorId = some entry
    ∧ entry.publicKey.verify c VALIDATOR_SIGN_V1 (voteSigningBytes shard height round phase hash)
      v.signature = true

/-- a proposal of the scheduled leader of this round, with a signature that verifies -/
structure ProposalFor (c : Crypto) (shard : ShardIdent) (height : Uint64)
    (V : OrdMap Uint32 ValidatorSetEntry) (hne : 0 < V.keys.length) (round : Uint32)
    (p : ConsensusProposal) : Prop where
  height_eq : p.height = height
  round_eq : p.round = round
  leader_eq : p.proposerId = scheduledLeader V hne round
  verified : ∃ entry, V.get? p.proposerId = some entry
    ∧ entry.publicKey.verify c VALIDATOR_SIGN_V1
      (proposalSigningBytes shard height round p.blockHash) p.signature = true

/-! ## what a call can do -/

namespace ConsensusEngine
variable (c : Crypto) (self : ConsensusEngine)

/-- the engine with one more vote in the bucket of its phase -/
def withVote (vote : ConsensusVote) : ConsensusEngine :=
  { self with
    votes := self.votes.insert vote.phase
      ((self.bucket vote.phase).insert vote.validatorId vote) }

/-- a proposal is refused, or known already, or it opens the PreVote step -/
theorem receiveProposal_cases (p : ConsensusProposal) :
    (∃ err, self.receiveProposal c p = (.error err, self)) ∨
    (∃ old, self.step ≠ .finalized ∧ self.proposal = some old ∧ old.blockHash = p.blockHash
      ∧ ProposalFor c self.shard self.height self.validators self.nonempty self.round p
      ∧ self.receiveProposal c p = (.ok (), self)) ∨
    (self.step ≠ .finalized ∧ self.proposal = none
      ∧ ProposalFor c self.shard self.height self.validators self.nonempty self.round p
      ∧ self.receiveProposal c p = (.ok (), { self with proposal := some p, step := .preVote })) := by
  unfold receiveProposal
  by_cases hstep : self.step = .finalized
  · exact Or.inl ⟨_, by rw [if_pos hstep]⟩
  rw [if_neg hstep]
  by_cases hround : p.height ≠ self.height ∨ p.round ≠ self.round
  · exact Or.inl ⟨_, by rw [if_pos hround]⟩
  rw [if_neg hround]
  push Not at hround
  by_cases hleader : p.proposerId ≠ self.leader
  · exact Or.inl ⟨_, by rw [if_pos hleader]⟩
  rw [if_neg hleader]
  cases hget : self.validators.get? p.proposerId with
  | none => exact Or.inl ⟨_, rfl⟩
  | some proposer =>
    by_cases hver : self.proposalVerifies c proposer.publicKey p = true
    swap
    · exact Or.inl ⟨.invalidSignature, by simp [hver]⟩
    have hfor : ProposalFor c self.shard self.height self.validators self.nonempty self.round p := by
      refine ⟨hround.1, hround.2, not_not.mp hleader, proposer, hget, ?_⟩
      rw [proposalVerifies, hround.1, hround.2] at hver
      exact hver
    simp only [hver, Bool.not_true, Bool.false_eq_true, if_false]
    cases hold : self.proposal with
    | some old =>
      by_cases hsame : old.blockHash ≠ p.blockHash
      · exact Or.inl ⟨_, if_pos hsame⟩
      · exact Or.inr (Or.inl ⟨old, hstep, rfl, not_not.mp hsame, hfor, if_neg hsame⟩)
    | none => exact Or.inr (Or.inr ⟨hstep, rfl, hfor, rfl⟩)

/-- opening a bucket that already holds a vote changes nothing -/
theorem insert_bucket {phase : VotePhase} {id : Uint32}
    (h : (self.bucket phase).contains id = true) :
    self.votes.insert phase (self.bucket phase) = self.votes := by
  cases hg : self.votes.get? phase with
  | none =>
    have hempty : self.bucket phase = OrdMap.empty := by rw [bucket, hg]; rfl
    rw [hempty] at h
    cases h
  | some m =>
    have hm : self.bucket phase = m := by rw [bucket, hg]; rfl
    rw [hm, OrdMap.insert_get?_self hg]

/-- a vote is refused, or it is for an earlier phase and ignored, or it is counted -/
theorem receiveVote_cases (v : ConsensusVote) :
    (∃ err, self.receiveVote c v = (.error err, self)) ∨
    (∃ p expected, self.proposal = some p ∧ expectedPhase self.step = some expected
      ∧ VoteFor c self.shard self.height self.validators self.round v.phase p.blockHash v
      ∧ phaseRank v.phase < phaseRank expected ∧ self.receiveVote c v = (.ok (), self)) ∨
    (∃ p, self.proposal = some p ∧ expectedPhase self.step = some v.phase
      ∧ VoteFor c self.shard self.height self.validators self.round v.phase p.blockHash v
      ∧ (self.bucket v.phase).contains v.validatorId = false
      ∧ self.receiveVote c v = (.ok (), if (self.withVote v).hasSupermajority v.phase
          then (self.withVote v).advanceAfterQuorum v.phase else self.withVote v)) := by
  unfold receiveVote
  by_cases hround : v.height ≠ self.height ∨ v.round ≠ self.round
  · exact Or.inl ⟨_, by rw [if_pos hround]⟩
  rw [if_neg hround]
  push Not at hround
  by_cases hprop : self.proposal.map (·.blockHash) ≠ some v.blockHash
  · exact Or.inl ⟨_, by rw [if_pos hprop]⟩
  rw [if_neg hprop]
  obtain ⟨p, hp, hhash⟩ := Option.map_eq_some_iff.mp (not_not.mp hprop)
  cases hexp : expectedPhase self.step with
  | none => exact Or.inl ⟨_, rfl⟩
  | some expected =>
    cases hget : self.validators.get? v.validatorId with
    | none => exact Or.inl ⟨_, rfl⟩
    | some validator =>
      by_cases hver : self.voteVerifies c validator.publicKey v = true
      swap
      · exact Or.inl ⟨.invalidSignature, by simp [hver]⟩
      have hfor : VoteFor c self.shard self.height self.validators self.round v.phase p.blockHash v := by
        refine ⟨hround.1, hround.2, rfl, hhash.symm, validator, hget, ?_⟩
        rw [voteVerifies, hround.1, hround.2, ← hhash] at hver
        exact hver
      simp only [hver, Bool.not_true, Bool.false_eq_true, if_false]
      by_cases hphase : v.phase ≠ expected
      · rw [if_pos hphase]
        by_cases hrank : phaseRank v.phase < phaseRank expected
        · rw [if_pos hrank]
          exact Or.inr (Or.inl ⟨p, expected, hp, rfl, hfor, hrank, rfl⟩)
        · rw [if_neg hrank]
          exact Or.inl ⟨_, rfl⟩
      rw [if_neg hphase]
      have hbucket : (({ self with votes := self.votes.insert v.phase (self.bucket v.phase) } :
          ConsensusEngine).bucket v.phase) = self.bucket v.phase := by
        simp [bucket]
      rw [hbucket]
      by_cases hdup : (self.bucket v.phase).contains v.validatorId = true
      · rw [if_pos hdup, self.insert_bucket hdup]
        exact Or.inl ⟨_, rfl⟩
      rw [if_neg hdup]
      simp only [OrdMap.insert_insert_same]
      have hexp' : expected = v.phase := (not_not.mp hphase).symm
      subst hexp'
      refine Or.inr (Or.inr ⟨p, hp, rfl, hfor, by simpa using hdup, ?_⟩)
      unfold withVote
      split_ifs <;> rfl

theorem onTimeout_cases (now : Uint64) :
    self.onTimeout now = (false, self) ∨
    (self.step ≠ .finalized ∧ self.onTimeout now = (true, { self with
      round := satAdd self.round 1, roundStartedAt := now, step := .proposal, proposal := none
      votes := OrdMap.empty })) := by
  unfold onTimeout
  split_ifs with h
  · exact Or.inl rfl
  · exact Or.inr ⟨fun hs => h (Or.inl hs), rfl⟩

end ConsensusEngine

/-! ## the invariant -/

def stepRank : ConsensusStep → Nat
  | .proposal => 0
  | .preVote => 1
  | .preCommit => 2
  | .commit => 3
  | .finalized => 4

theorem expectedPhase_rank {step : ConsensusStep} {phase : VotePhase}
    (h : ConsensusEngine.expectedPhase step = some phase) : stepRank step = phaseRank phase := by
  cases step <;> cases h <;> rfl

section
variable (c : Crypto) (P : ConsensusProposal → Prop) (Q : ConsensusVote → Prop)

/-- votes filed under their own ids, delivered (`Q`) and valid for the engine's round -/
def BucketFor (e : ConsensusEngine) (phase : VotePhase) (hash : Uint256)
    (m : OrdMap Uint32 ConsensusVote) : Prop :=
  ∀ id v, m.get? id = some v →
    v.validatorId = id ∧ Q v ∧ VoteFor c e.shard e.height e.validators e.round phase hash v

/-- a bucket of valid votes that passes the two-thirds test -/
structure Certificate (e : ConsensusEngine) (phase : VotePhase) (hash : Uint256)
    (m : OrdMap Uint32 ConsensusVote) : Prop where
  votes : BucketFor c Q e phase hash m
  stake : 2 * e.totalStake.toNat ≤ 3 * (tallyStake e.validators m).toNat

/-- The proposals and votes delivered so far satisfy `P` and `Q`; the rest ties the fields of
the engine together. -/
structure EngineInv (e : ConsensusEngine) : Prop where
  waiting : e.step = .proposal → e.proposal = none
  proposed : e.step ≠ .proposal → ∃ p, e.proposal = some p
  proposal_ok : ∀ p, e.proposal = some p →
    P p ∧ ProposalFor c e.shard e.height e.validators e.nonempty e.round p
  no_votes : e.proposal = none → e.votes = OrdMap.empty
  buckets : ∀ p, e.proposal = some p → ∀ phase, BucketFor c Q e phase p.blockHash (e.bucket phase)
  preVotes : 2 ≤ stepRank e.step → e.hasSupermajority .preVote = true
  preCommits : 3 ≤ stepRank e.step → e.hasSupermajority .preCommit = true
  pending : e.step ≠ .finalized → e.finalized = none
  finalized_ok : ∀ f, e.finalized = some f → ∃ p m, e.proposal = some p
    ∧ f = ⟨e.height, e.round, p.blockHash, m.values⟩ ∧ Certificate c Q e .commit p.blockHash m

end

namespace EngineInv
open ConsensusEngine (expectedPhase)
variable {c : Crypto} {P P' : ConsensusProposal → Prop} {Q Q' : ConsensusVote → Prop}
  {e : ConsensusEngine}

theorem mono (h : EngineInv c P Q e) (hP : ∀ p, P p → P' p) (hQ : ∀ v, Q v → Q' v) :
    EngineInv c P' Q' e where
  waiting := h.waiting
  proposed := h.proposed
  proposal_ok p hp := ⟨hP p (h.proposal_ok p hp).1, (h.proposal_ok p hp).2⟩
  no_votes := h.no_votes
  buckets p hp phase id v hv :=
    have hb := h.buckets p hp phase id v hv
    ⟨hb.1, hQ v hb.2.1, hb.2.2⟩
  preVotes := h.preVotes
  preCommits := h.preCommits
  pending := h.pending
  finalized_ok f hf := by
    obtain ⟨p, m, hp, hfm, hcert⟩ := h.finalized_ok f hf
    exact ⟨p, m, hp, hfm, fun id v hv =>
      ⟨(hcert.votes id v hv).1, hQ v (hcert.votes id v hv).2.1, (hcert.votes id v hv).2.2⟩,
      hcert.stake⟩

/-- a finalized engine is in its last step -/
theorem step_of_finalized (h : EngineInv c P Q e) {f : FinalizedBlock}
    (hf : e.finalized = some f) : e.step = .finalized := by
  by_contra hs
  rw [h.pending hs] at hf
  cases hf

theorem receiveProposal (h : EngineInv c P Q e) {p : ConsensusProposal} (hP : P p) :
    EngineInv c P Q (e.receiveProposal c p).2 := by
  rcases e.receiveProposal_cases c p with ⟨err, hr⟩ | ⟨_, _, _, _, _, hr⟩ | ⟨hstep, hnone, hfor, hr⟩
  · rwa [hr]
  · rwa [hr]
  · rw [hr]
    have hvotes := h.no_votes hnone
    exact
      { waiting := fun hs => nomatch hs
        proposed := fun _ => ⟨p, rfl⟩
        proposal_ok := fun p' hp' => by
          cases hp'
          exact ⟨hP, hfor⟩
        no_votes := fun hn => nomatch hn
        buckets := fun p' _ phase id v hv => by
          have hempty : e.bucket phase = OrdMap.empty := by
            rw [ConsensusEngine.bucket, hvotes]
            rfl
          change (e.bucket phase).get? id = some v at hv
          rw [hempty] at hv
          cases hv
        preVotes := fun hs => absurd (show 2 ≤ 1 from hs) (by decide)
        preCommits := fun hs => absurd (show 3 ≤ 1 from hs) (by decide)
        pending := fun _ => h.pending hstep
        finalized_ok := fun f hf => absurd (h.step_of_finalized hf) hstep }

theorem onTimeout (h : EngineInv c P Q e) (now : Uint64) : EngineInv c P Q (e.onTimeout now).2 := by
  rcases e.onTimeout_cases now with hr | ⟨hstep, hr⟩
  · rwa [hr]
  · rw [hr]
    exact
      { waiting := fun _ => rfl
        proposed := fun hs => absurd rfl hs
        proposal_ok := fun p hp => nomatch hp
        no_votes := fun _ => rfl
        buckets := fun p hp => nomatch hp
        preVotes := fun hs => absurd (show 2 ≤ 0 from hs) (by decide)
        preCommits := fun hs => absurd (show 3 ≤ 0 from hs) (by decide)
        pending := fun _ => h.pending hstep
        finalized_ok := fun f hf => absurd (h.step_of_finalized hf) hstep }

theorem bucket_withVote (e : ConsensusEngine) (v : ConsensusVote) (phase : VotePhase) :
    (e.withVote v).bucket phase
      = if phase = v.phase then (e.bucket phase).insert v.validatorId v else e.bucket phase := by
  unfold ConsensusEngine.bucket ConsensusEngine.withVote
  rw [OrdMap.get?_insert]
  split_ifs with hp
  · rw [hp]
    rfl
  · rfl

/-- a two-thirds test is a matter of the validators and the votes of its phase -/
theorem hasSupermajority_congr {e e' : ConsensusEngine} {phase : VotePhase}
    (hvalidators : e'.validators = e.validators) (htotal : e'.totalStake = e.totalStake)
    (hb : e'.bucket phase = e.bucket phase) :
    e'.hasSupermajority phase = e.hasSupermajority phase := by
  unfold ConsensusEngine.hasSupermajority
  rw [voteStake_eq, voteStake_eq, hvalidators, htotal, hb]

/-- votes of other phases do not change a two-thirds test -/
theorem hasSupermajority_withVote {v : ConsensusVote} {phase : VotePhase} (hne : phase ≠ v.phase) :
    (e.withVote v).hasSupermajority phase = e.hasSupermajority phase := by
  refine hasSupermajority_congr rfl rfl ?_
  rw [bucket_withVote, if_neg hne]

/-- finalizing takes the commit votes away and no others -/
theorem hasSupermajority_committed {finalized : Option FinalizedBlock} {phase : VotePhase}
    (hne : phase ≠ .commit) :
    { e with votes := e.votes.erase .commit, finalized, step := .finalized }.hasSupermajority phase
      = e.hasSupermajority phase := by
  refine hasSupermajority_congr rfl rfl ?_
  show ((e.votes.erase .commit).get? phase).getD OrdMap.empty = _
  rw [OrdMap.get?_erase, if_neg hne]
  rfl

/-- counting a valid vote keeps the invariant -/
theorem withVote (h : EngineInv c P Q e) {v : ConsensusVote} {p : ConsensusProposal} (hQ : Q v)
    (hp : e.proposal = some p) (hexp : expectedPhase e.step = some v.phase)
    (hv : VoteFor c e.shard e.height e.validators e.round v.phase p.blockHash v) :
    EngineInv c P Q (e.withVote v) := by
  have hrank := expectedPhase_rank hexp
  have hpend : e.step ≠ .finalized := by
    intro hs
    rw [hs] at hexp
    cases hexp
  exact
    { waiting := h.waiting
      proposed := h.proposed
      proposal_ok := h.proposal_ok
      no_votes := fun hn => by
        rw [show e.proposal = none from hn] at hp
        cases hp
      buckets := fun p' hp' phase id w hw => by
        have hpp : p' = p := Option.some.inj ((show e.proposal = some p' from hp').symm.trans hp)
        rw [bucket_withVote] at hw
        split_ifs at hw with hphase
        · rw [OrdMap.get?_insert] at hw
          split_ifs at hw with hid
          · cases hw
            rw [hpp, hphase]
            exact ⟨hid.symm, hQ, hv⟩
          · exact h.buckets p' hp' phase id w hw
        · exact h.buckets p' hp' phase id w hw
      preVotes := fun hs => by
        change 2 ≤ stepRank e.step at hs
        have hne : VotePhase.preVote ≠ v.phase := by
          intro heq
          rw [hrank, ← heq] at hs
          exact absurd hs (by decide)
        rw [hasSupermajority_withVote hne]
        exact h.preVotes hs
      preCommits := fun hs => by
        change 3 ≤ stepRank e.step at hs
        have hne : VotePhase.preCommit ≠ v.phase := by
          intro heq
          rw [hrank, ← heq] at hs
          exact absurd hs (by decide)
        rw [hasSupermajority_withVote hne]
        exact h.preCommits hs
      pending := h.pending
      finalized_ok := fun f hf => absurd (h.step_of_finalized hf) hpend }

/-- the step after a quorum keeps the invariant -/
theorem advanceAfterQuorum (h : EngineInv c P Q e) {phase : VotePhase}
    (hexp : expectedPhase e.step = some phase) (hq : e.hasSupermajority phase = true) :
    EngineInv c P Q (e.advanceAfterQuorum phase) := by
  have hrank := expectedPhase_rank hexp
  have hprop : e.step ≠ .proposal := by
    intro hs
    rw [hs] at hexp
    cases hexp
  have hpend : e.step ≠ .finalized := by
    intro hs
    rw [hs] at hexp
    cases hexp
  obtain ⟨p, hp⟩ := h.proposed hprop
  cases phase with
  | preVote =>
    exact
      { waiting := fun hs => nomatch hs
        proposed := fun _ => ⟨p, hp⟩
        proposal_ok := h.proposal_ok
        no_votes := h.no_votes
        buckets := h.buckets
        preVotes := fun _ => hq
        preCommits := fun hs => absurd (show 3 ≤ 2 from hs) (by decide)
        pending := fun _ => h.pending hpend
        finalized_ok := fun f hf => absurd (h.step_of_finalized hf) hpend }
  | preCommit =>
    exact
      { waiting := fun hs => nomatch hs
        proposed := fun _ => ⟨p, hp⟩
        proposal_ok := h.proposal_ok
        no_votes := h.no_votes
        buckets := h.buckets
        preVotes := fun _ => h.preVotes (le_of_eq hrank.symm)
        preCommits := fun _ => hq
        pending := fun _ => h.pending hpend
        finalized_ok := fun f hf => absurd (h.step_of_finalized hf) hpend }
  | commit =>
    have hr : e.advanceAfterQuorum .commit = { e with
        votes := e.votes.erase .commit
        finalized := some ⟨e.height, e.round, p.blockHash, (e.bucket .commit).values⟩
        step := .finalized } := by
      simp only [ConsensusEngine.advanceAfterQuorum, hp]
    rw [hr]
    exact
      { waiting := fun hs => nomatch hs
        proposed := fun _ => ⟨p, hp⟩
        proposal_ok := h.proposal_ok
        no_votes := fun hn => by
          rw [show e.proposal = none from hn] at hp
          cases hp
        buckets := fun p' hp' phase id v hv => by
          refine h.buckets p' hp' phase id v ?_
          unfold ConsensusEngine.bucket at hv
          rw [OrdMap.get?_erase] at hv
          split_ifs at hv with hc
          · cases hv
          · exact hv
        preVotes := fun _ => by
          rw [hasSupermajority_committed (by decide)]
          exact h.preVotes (by rw [hrank]; decide)
        preCommits := fun _ => by
          rw [hasSupermajority_committed (by decide)]
          exact h.preCommits (by rw [hrank]; decide)
        pending := fun hs => absurd rfl hs
        finalized_ok := fun f hf => by
          cases hf
          refine ⟨p, e.bucket .commit, hp, rfl, h.buckets p hp .commit, ?_⟩
          have hq' := of_decide_eq_true hq
          rw [voteStake_eq] at hq'
          show 2 * e.totalStake.toNat ≤ 3 * (tallyStake e.validators (e.bucket .commit)).toNat
          omega }

theorem receiveVote (h : EngineInv c P Q e) {v : ConsensusVote} (hQ : Q v) :
    EngineInv c P Q (e.receiveVote c v).2 := by
  rcases e.receiveVote_cases c v with ⟨err, hr⟩ | ⟨_, _, _, _, _, _, hr⟩ | ⟨p, hp, hexp, hv, _, hr⟩
  · rwa [hr]
  · rwa [hr]
  · rw [hr]
    have hw := h.withVote hQ hp hexp hv
    by_cases hq : (e.withVote v).hasSupermajority v.phase = true
    · rw [if_pos hq]
      exact hw.advanceAfterQuorum hexp hq
    · rw [if_neg hq]
      exact hw

/-- the calls delivered so far -/
theorem apply (h : EngineInv c P Q e) {call : Call} (hP : ∀ p, call = .proposal p → P p)
    (hQ : ∀ v, call = .vote v → Q v) : EngineInv c P Q (call.apply c e) := by
  cases call with
  | proposal p => exact h.receiveProposal (hP p rfl)
  | vote v => exact h.receiveVote (hQ v rfl)
  | timeout now => exact h.onTimeout now

end EngineInv

/-! ## the configuration of an engine -/

/-- shard, height, validators and total stake, which no call changes -/
structure SameConfig (e e' : ConsensusEngine) : Prop where
  shard : e'.shard = e.shard
  height : e'.height = e.height
  validators : e'.validators = e.validators
  totalStake : e'.totalStake = e.totalStake

theorem SameConfig.refl (e : ConsensusEngine) : SameConfig e e := ⟨rfl, rfl, rfl, rfl⟩

theorem SameConfig.trans {a b d : ConsensusEngine} (h : SameConfig a b) (h' : SameConfig b d) :
    SameConfig a d :=
  ⟨h'.shard.trans h.shard, h'.height.trans h.height, h'.validators.trans h.validators,
    h'.totalStake.trans h.totalStake⟩

theorem sameConfig_advanceAfterQuorum (e : ConsensusEngine) (phase : VotePhase) :
    SameConfig e (e.advanceAfterQuorum phase) := by
  cases phase with
  | preVote => exact ⟨rfl, rfl, rfl, rfl⟩
  | preCommit => exact ⟨rfl, rfl, rfl, rfl⟩
  | commit =>
    unfold ConsensusEngine.advanceAfterQuorum
    cases e.proposal with
    | none => exact SameConfig.refl e
    | some p => exact ⟨rfl, rfl, rfl, rfl⟩

theorem sameConfig_apply (c : Crypto) (e : ConsensusEngine) (call : Call) :
    SameConfig e (call.apply c e) := by
  cases call with
  | proposal p =>
    show SameConfig e (e.receiveProposal c p).2
    rcases e.receiveProposal_cases c p with ⟨_, hr⟩ | ⟨_, _, _, _, _, hr⟩ | ⟨_, _, _, hr⟩
      <;> rw [hr] <;> exact ⟨rfl, rfl, rfl, rfl⟩
  | vote v =>
    show SameConfig e (e.receiveVote c v).2
    rcases e.receiveVote_cases c v with ⟨_, hr⟩ | ⟨_, _, _, _, _, _, hr⟩ | ⟨p, _, _, _, _, hr⟩
    · rw [hr]
      exact SameConfig.refl e
    · rw [hr]
      exact SameConfig.refl e
    · rw [hr]
      have hw : SameConfig e (e.withVote v) := ⟨rfl, rfl, rfl, rfl⟩
      split_ifs
      · exact hw.trans (sameConfig_advanceAfterQuorum _ _)
      · exact hw
  | timeout now =>
    show SameConfig e (e.onTimeout now).2
    rcases e.onTimeout_cases now with hr | ⟨_, hr⟩ <;> rw [hr] <;> exact ⟨rfl, rfl, rfl, rfl⟩

theorem sameConfig_run (c : Crypto) (e : ConsensusEngine) (calls : List Call) :
    SameConfig e (Runs.run (Call.apply c) e calls) :=
  Runs.run_inv (fun s call hs => hs.trans (sameConfig_apply c s call)) calls (SameConfig.refl e)

/-! ## from `new` -/

/-- what `new` returns for a list whose stakes fit a u64 -/
structure StartOf (shard : ShardIdent) (height : Uint64) (vs : List ValidatorSetEntry)
    (e : ConsensusEngine) : Prop where
  shard_eq : e.shard = shard
  height_eq : e.height = height
  ids : ∀ id v, e.validators.get? id = some v → v.validatorId = id
  members : e.validators.values.Perm vs
  total : e.totalStake.toNat = totalWeight e.validators

/-- a new engine: the validator set of the list, and an open round 0 -/
theorem new_ok {shard : ShardIdent} {height : Uint64} {vs : List ValidatorSetEntry}
    {now : Uint64} {timeouts : RoundTimeouts} {e : ConsensusEngine}
    (h : ConsensusEngine.new shard height vs now timeouts = .ok e) :
    ∃ V total hpos, collectValidators vs OrdMap.empty 0 = .ok (V, total) ∧ total ≠ 0
      ∧ e = { shard, height, validators := V, totalStake := total, timeouts
              roundStartedAt := now, round := 0, step := .proposal, proposal := none
              votes := OrdMap.empty, finalized := none, nonempty := hpos } := by
  unfold ConsensusEngine.new at h
  cases hcollect : collectValidators vs OrdMap.empty 0 with
  | error err =>
    rw [hcollect] at h
    cases h
  | ok r =>
    rw [hcollect] at h
    dsimp only at h
    split_ifs at h with hempty
    cases h
    exact ⟨r.1, r.2, _, rfl, fun hzero => hempty (.inr hzero), rfl⟩

theorem new_spec {shard : ShardIdent} {height : Uint64} {vs : List ValidatorSetEntry}
    {now : Uint64} {timeouts : RoundTimeouts} {e : ConsensusEngine}
    (h : ConsensusEngine.new shard height vs now timeouts = .ok e)
    (hsum : stakeSum vs ≤ 2^64 - 1) :
    StartOf shard height vs e ∧ 0 < e.totalStake.toNat
      ∧ ∀ c P Q, EngineInv c P Q e := by
  obtain ⟨V, total, hpos, hcol, hne, rfl⟩ := new_ok h
  obtain ⟨hid, htot, hperm⟩ := collectValidators_spec hcol (fun id v hv => by cases hv) rfl
    (by simpa [stakeSum, OrdMap.values, OrdMap.empty] using hsum)
  refine ⟨⟨rfl, rfl, hid, ?_, ?_⟩, ?_, fun c P Q => ?_⟩
  · simpa [OrdMap.values, OrdMap.empty] using hperm
  · rw [totalWeight_eq]
    exact htot
  · show 0 < total.toNat
    exact Nat.pos_of_ne_zero (fun h0 => hne (BitVec.eq_of_toNat_eq h0))
  · exact
      { waiting := fun _ => rfl
        proposed := fun hs => absurd rfl hs
        proposal_ok := fun p hp => by cases hp
        no_votes := fun _ => rfl
        buckets := fun p hp => by cases hp
        preVotes := fun hs => absurd (show 2 ≤ 0 from hs) (by decide)
        preCommits := fun hs => absurd (show 3 ≤ 0 from hs) (by decide)
        pending := fun _ => rfl
        finalized_ok := fun f hf => by cases hf }

/-- the validator set of a new engine is a matter of the list alone -/
theorem collect_of_new {shard : ShardIdent} {height : Uint64} {vs : List ValidatorSetEntry}
    {now : Uint64} {timeouts : RoundTimeouts} {e : ConsensusEngine}
    (h : ConsensusEngine.new shard height vs now timeouts = .ok e) :
    collectValidators vs OrdMap.empty 0 = .ok (e.validators, e.totalStake) := by
  obtain ⟨V, total, hpos, hcol, _, rfl⟩ := new_ok h
  exact hcol

theorem StartOf.mem_list {shard : ShardIdent} {height : Uint64} {vs : List ValidatorSetEntry}
    {e : ConsensusEngine} (h : StartOf shard height vs e) {id : Uint32} {v : ValidatorSetEntry}
    (hv : e.validators.get? id = some v) : v ∈ vs ∧ v.validatorId = id :=
  ⟨h.members.subset (OrdMap.mem_values_iff.mpr ⟨id, hv⟩), h.ids id v hv⟩

/-- the invariant along a run, with the calls made so far as the calls delivered -/
theorem engineInv_run {c : Crypto} {e : ConsensusEngine} (h : ∀ P Q, EngineInv c P Q e)
    (calls : List Call) :
    EngineInv c (fun p => Call.proposal p ∈ calls) (fun v => Call.vote v ∈ calls)
      (Runs.run (Call.apply c) e calls) := by
  induction calls using List.reverseRecOn with
  | nil => exact h _ _
  | append_singleton calls call ih =>
    rw [Runs.run_concat]
    have hmono : EngineInv c (fun p => Call.proposal p ∈ calls ++ [call])
        (fun v => Call.vote v ∈ calls ++ [call]) (Runs.run (Call.apply c) e calls) :=
      ih.mono (fun _ hp => List.mem_append_left _ hp) (fun _ hv => List.mem_append_left _ hv)
    refine hmono.apply ?_ ?_
    · intro p hp
      exact List.mem_append_right _ (List.mem_singleton.mpr hp.symm)
    · intro v hv
      exact List.mem_append_right _ (List.mem_singleton.mpr hv.symm)

/-- a finalized block stays as it is -/
theorem finalized_apply {c : Crypto} {P : ConsensusProposal → Prop} {Q : ConsensusVote → Prop}
    {e : ConsensusEngine} (h : EngineInv c P Q e) {f : FinalizedBlock}
    (hf : e.finalized = some f) (call : Call) : (call.apply c e).finalized = some f := by
  have hstep := h.step_of_finalized hf
  cases call with
  | proposal p =>
    show (e.receiveProposal c p).2.finalized = some f
    rcases e.receiveProposal_cases c p with ⟨_, hr⟩ | ⟨_, _, _, _, _, hr⟩ | ⟨hs, _⟩
    · rwa [hr]
    · rwa [hr]
    · exact absurd hstep hs
  | vote v =>
    show (e.receiveVote c v).2.finalized = some f
    rcases e.receiveVote_cases c v with ⟨_, hr⟩ | ⟨_, _, _, _, _, _, hr⟩ | ⟨p, _, hexp, _⟩
    · rwa [hr]
    · rwa [hr]
    · rw [hstep] at hexp
      cases hexp
  | timeout now =>
    show (e.onTimeout now).2.finalized = some f
    rcases e.onTimeout_cases now with hr | ⟨hs, _⟩
    · rwa [hr]
    · exact absurd hstep hs

theorem finalized_run {c : Crypto} {e : ConsensusEngine}
    (h : EngineInv c (fun _ => True) (fun _ => True) e) {f : FinalizedBlock}
    (hf : e.finalized = some f) (calls : List Call) :
    (Runs.run (Call.apply c) e calls).finalized = some f := by
  have hinv := Runs.run_inv
    (I := fun s => EngineInv c (fun _ => True) (fun _ => True) s ∧ s.finalized = some f)
    (fun s call hs => ⟨hs.1.apply (fun _ _ => trivial) (fun _ _ => trivial),
      finalized_apply hs.1 hs.2 call⟩) calls ⟨h, hf⟩
  exact hinv.2

/-! ## the evidence of a finalized block -/

/-- votes of distinct listed validators with two thirds of the stake, each verified over the
bytes of one shard, height, round, phase and hash, and each delivered by one of the calls -/
structure QuorumVotes (c : Crypto) (shard : ShardIdent) (height : Uint64)
    (vs : List ValidatorSetEntry) (calls : List Call) (round : Uint32) (phase : VotePhase)
    (hash : Uint256) (votes : List ConsensusVote) : Prop where
  distinct : (votes.map (·.validatorId)).Nodup
  delivered : ∀ v ∈ votes, Call.vote v ∈ calls
  fields : ∀ v ∈ votes, v.height = height ∧ v.round = round ∧ v.phase = phase ∧ v.blockHash = hash
  verified : ∀ v ∈ votes, ∃ entry ∈ vs, entry.validatorId = v.validatorId
    ∧ entry.publicKey.verify c VALIDATOR_SIGN_V1 (voteSigningBytes shard height round phase hash)
      v.signature = true
  stake : 2 * stakeSum vs ≤ 3 * stakeOfIds vs (votes.map (·.validatorId))

/-- what a finalized block stands on in the engine that finalized it -/
structure SoundEvidence (c : Crypto) (shard : ShardIdent) (height : Uint64)
    (vs : List ValidatorSetEntry) (calls : List Call) (e : ConsensusEngine) (f : FinalizedBlock) :
    Prop where
  height_eq : f.height = height
  proposed : ∃ p, Call.proposal p ∈ calls ∧ p.height = height ∧ p.round = f.round
    ∧ p.blockHash = f.blockHash
    ∧ p.proposerId = scheduledLeader e.validators e.nonempty f.round
    ∧ ∃ entry ∈ vs, entry.validatorId = p.proposerId
      ∧ entry.publicKey.verify c VALIDATOR_SIGN_V1
        (proposalSigningBytes shard height f.round f.blockHash) p.signature = true
  preVotes : QuorumVotes c shard height vs calls f.round .preVote f.blockHash
    (e.bucket .preVote).values
  preCommits : QuorumVotes c shard height vs calls f.round .preCommit f.blockHash
    (e.bucket .preCommit).values
  commits : QuorumVotes c shard height vs calls f.round .commit f.blockHash f.commitVotes

theorem map_validatorId_values {m : OrdMap Uint32 ConsensusVote}
    (h : ∀ id v, m.get? id = some v → v.validatorId = id) :
    m.values.map (·.validatorId) = m.keys := by
  have hkeys := m.map_keys (fun id => id) (·.validatorId) (fun id v hv => (h id v hv).symm)
  rw [List.map_id'] at hkeys
  exact hkeys.symm

theorem quorumVotes_of_certificate {c : Crypto} {shard : ShardIdent} {height : Uint64}
    {vs : List ValidatorSetEntry} {calls : List Call} {e₀ e : ConsensusEngine}
    (hstart : StartOf shard height vs e₀) (hsum : stakeSum vs ≤ 2^64 - 1)
    (hconf : SameConfig e₀ e) {phase : VotePhase} {hash : Uint256}
    {m : OrdMap Uint32 ConsensusVote}
    (h : Certificate c (fun v => Call.vote v ∈ calls) e phase hash m) :
    QuorumVotes c shard height vs calls e.round phase hash m.values := by
  have hids := map_validatorId_values (fun id v hv => (h.votes id v hv).1)
  have hV : totalWeight e₀.validators = stakeSum vs := by
    rw [totalWeight_eq, stakeSum_perm hstart.members]
  refine ⟨?_, ?_, ?_, ?_, ?_⟩
  · rw [hids]
    exact m.keys_nodup
  · intro v hv
    obtain ⟨id, hg⟩ := OrdMap.mem_values_iff.mp hv
    exact (h.votes id v hg).2.1
  · intro v hv
    obtain ⟨id, hg⟩ := OrdMap.mem_values_iff.mp hv
    have hfor := (h.votes id v hg).2.2
    exact ⟨hfor.height_eq.trans (hconf.height.trans hstart.height_eq), hfor.round_eq,
      hfor.phase_eq, hfor.hash_eq⟩
  · intro v hv
    obtain ⟨id, hg⟩ := OrdMap.mem_values_iff.mp hv
    obtain ⟨entry, hentry, hver⟩ := (h.votes id v hg).2.2.verified
    rw [hconf.validators] at hentry
    rw [hconf.shard, hstart.shard_eq, hconf.height, hstart.height_eq] at hver
    obtain ⟨hmem, hid⟩ := hstart.mem_list hentry
    exact ⟨entry, hmem, hid, hver⟩
  · have hstake := h.stake
    rw [hconf.totalStake, hstart.total, hV, hconf.validators,
      tallyStake_eq (by rw [hV]; exact hsum), sum_weight_eq hstart.ids hstart.members] at hstake
    rw [hids]
    exact hstake

theorem EngineInv.certificate {c : Crypto} {P : ConsensusProposal → Prop}
    {Q : ConsensusVote → Prop} {e : ConsensusEngine} (h : EngineInv c P Q e)
    {p : ConsensusProposal} (hp : e.proposal = some p) {phase : VotePhase}
    (hq : e.hasSupermajority phase = true) :
    Certificate c Q e phase p.blockHash (e.bucket phase) := by
  refine ⟨h.buckets p hp phase, ?_⟩
  have hq' := of_decide_eq_true hq
  rw [voteStake_eq] at hq'
  omega

/-- **Commit evidence is sound**, whatever calls an engine receives, and refused calls leave no
trace. -/
theorem commit_evidence_sound (c : Crypto) {shard : ShardIdent} {height : Uint64}
    {vs : List ValidatorSetEntry} {now : Uint64} {timeouts : RoundTimeouts}
    {e₀ : ConsensusEngine} (hnew : ConsensusEngine.new shard height vs now timeouts = .ok e₀)
    (hsum : stakeSum vs ≤ 2^64 - 1) (calls : List Call) :
    let e := Runs.run (Call.apply c) e₀ calls
    (∀ f, e.finalized = some f → SoundEvidence c shard height vs calls e f
      ∧ ∀ later, (Runs.run (Call.apply c) e later).finalized = some f)
    ∧ (∀ p err, (e.receiveProposal c p).1 = .error err → (e.receiveProposal c p).2 = e)
    ∧ (∀ v err, (e.receiveVote c v).1 = .error err → (e.receiveVote c v).2 = e)
    ∧ (∀ v expected, ConsensusEngine.expectedPhase e.step = some expected →
        phaseRank v.phase < phaseRank expected → (e.receiveVote c v).2 = e)
    ∧ (∀ now, (e.onTimeout now).1 = false → (e.onTimeout now).2 = e) := by
  intro e
  obtain ⟨hstart, _, hinv⟩ := new_spec hnew hsum
  have hrun := engineInv_run (fun P Q => hinv c P Q) calls
  have hconf := sameConfig_run c e₀ calls
  refine ⟨fun f hf => ⟨?_, fun later => ?_⟩, fun p err herr => ?_, fun v err herr => ?_,
    fun v expected hexp hrank => ?_, fun now hfalse => ?_⟩
  · obtain ⟨p, m, hp, rfl, hcert⟩ := hrun.finalized_ok f hf
    have hstep := hrun.step_of_finalized hf
    have hpre := hrun.certificate hp (hrun.preVotes (by rw [hstep]; decide))
    have hcom := hrun.certificate hp (hrun.preCommits (by rw [hstep]; decide))
    obtain ⟨hmem, hfor⟩ := hrun.proposal_ok p hp
    obtain ⟨entry, hentry, hver⟩ := hfor.verified
    rw [hconf.validators] at hentry
    rw [hconf.shard, hstart.shard_eq, hconf.height, hstart.height_eq] at hver
    obtain ⟨hlisted, hid⟩ := hstart.mem_list hentry
    exact
      { height_eq := hconf.height.trans hstart.height_eq
        proposed := ⟨p, hmem, hfor.height_eq.trans (hconf.height.trans hstart.height_eq),
          hfor.round_eq, rfl, hfor.leader_eq, entry, hlisted, hid, hver⟩
        preVotes := quorumVotes_of_certificate hstart hsum hconf hpre
        preCommits := quorumVotes_of_certificate hstart hsum hconf hcom
        commits := quorumVotes_of_certificate hstart hsum hconf hcert }
  · exact finalized_run (hrun.mono (fun _ _ => trivial) (fun _ _ => trivial)) hf later
  · rcases e.receiveProposal_cases c p with ⟨_, hr⟩ | ⟨_, _, _, _, _, hr⟩ | ⟨_, _, _, hr⟩
    · rw [hr]
    · rw [hr]
    · rw [hr] at herr
      cases herr
  · rcases e.receiveVote_cases c v with ⟨_, hr⟩ | ⟨_, _, _, _, _, _, hr⟩ | ⟨p, _, _, _, _, hr⟩
    · rw [hr]
    · rw [hr]
    · rw [hr] at herr
      cases herr
  · rcases e.receiveVote_cases c v with ⟨_, hr⟩ | ⟨_, _, _, _, _, _, hr⟩ | ⟨p, _, hexp', _, _, hr⟩
    · rw [hr]
    · rw [hr]
    · rw [hexp'] at hexp
      cases hexp
      exact absurd hrank (lt_irrefl _)
  · rcases e.onTimeout_cases now with hr | ⟨_, hr⟩
    · rw [hr]
    · rw [hr] at hfalse
      cases hfalse

/-- one round of the sample engine, with a duplicate and a stale vote in between -/
def sampleCalls : List Call :=
  [.proposal (sampleProposal 0 5 0), .vote (sampleVote 0 .preVote 5 1),
    .vote (sampleVote 0 .preVote 5 1), .vote (sampleVote 0 .preVote 5 2),
    .vote (sampleVote 0 .preVote 5 3), .vote (sampleVote 0 .preVote 5 0),
    .vote (sampleVote 0 .preCommit 5 1), .vote (sampleVote 0 .preCommit 5 2),
    .vote (sampleVote 0 .preCommit 5 3), .vote (sampleVote 0 .commit 5 1),
    .vote (sampleVote 0 .commit 5 2), .vote (sampleVote 0 .commit 5 3)]

theorem commit_evidence_sound_sample :
    ∃ f, (Runs.run (Call.apply sampleCrypto) sampleEngine sampleCalls).finalized = some f
      ∧ SoundEvidence sampleCrypto sampleShard 1 sampleValidators sampleCalls
        (Runs.run (Call.apply sampleCrypto) sampleEngine sampleCalls) f := by
  have hsome : (Runs.run (Call.apply sampleCrypto) sampleEngine sampleCalls).finalized.isSome
      = true := by decide +kernel
  obtain ⟨f, hf⟩ := Option.isSome_iff_exists.mp hsome
  exact ⟨f, hf, ((commit_evidence_sound sampleCrypto sampleEngine_new (by decide)
    sampleCalls).1 f hf).1⟩

end Onx.Consensus
