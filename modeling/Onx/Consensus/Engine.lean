import Onx.DataStructures.Shard

/-!
# The Catchain engine

The round-based state machine of one replica for one shard height, as `engine.rs` computes it.

* `ConsensusEngine.new`     from a validator list; duplicate ids and an empty set are refused;
* `receiveProposal`, `receiveVote`, `onTimeout`   the three calls, each with its result and the
                            engine it leaves behind;
* `voteSigningBytes_inj`    the signed bytes of a vote determine the round, phase and hash.

The non-empty validator set that `leader` relies on is a field of the engine.
-/

namespace Onx.Consensus

inductive ConsensusError where
  | invalidCandidateStake
  | invalidLoadFactor
  | duplicateCandidate
  | emptyValidatorSet
  | insufficientQuorumStake
  | invalidSignature
  | duplicateValidatorSignature
  | invalidSignatureDepth
  | invalidityProofVerificationFailed
  | challengeWindowExpired
  | doubleSigningDetected
  | unknownValidator
  | invalidLeader
  | invalidRound
  | invalidStep
  | conflictingProposal
deriving DecidableEq

structure ValidatorSetEntry where
  validatorId : Uint32
  publicKey : PublicKey
  actualStake : Uint64
deriving DecidableEq

inductive VotePhase where
  | preVote
  | preCommit
  | commit
deriving DecidableEq

/-- `phase_rank` -/
def phaseRank : VotePhase → Nat
  | .preVote => 1
  | .preCommit => 2
  | .commit => 3

theorem phaseRank_inj {a b : VotePhase} (h : phaseRank a = phaseRank b) : a = b := by
  cases a <;> cases b <;> first | rfl | cases h

instance : LinearOrder VotePhase := LinearOrder.lift' phaseRank (fun _ _ h => phaseRank_inj h)

inductive ConsensusStep where
  | proposal
  | preVote
  | preCommit
  | commit
  | finalized
deriving DecidableEq

/-- in ticks of the caller's clock -/
structure RoundTimeouts where
  proposal : Uint64
  prevote : Uint64
  precommit : Uint64
  commit : Uint64
deriving DecidableEq

def RoundTimeouts.default : RoundTimeouts := ⟨3, 3, 3, 3⟩

structure ConsensusProposal where
  height : Uint64
  round : Uint32
  blockHash : Uint256
  proposerId : Uint32
  signature : Signature
deriving DecidableEq

structure ConsensusVote where
  height : Uint64
  round : Uint32
  phase : VotePhase
  blockHash : Uint256
  validatorId : Uint32
  signature : Signature
deriving DecidableEq

/-- a block finalized by a Commit supermajority, with the evidence -/
structure FinalizedBlock where
  height : Uint64
  round : Uint32
  blockHash : Uint256
  commitVotes : List ConsensusVote
deriving DecidableEq

/-! ## signed bytes -/

def proposalSigningBytes (shard : ShardIdent) (height : Uint64) (round : Uint32)
    (hash : Uint256) : Bytes :=
  ascii "ONX_CATCHAIN_PROPOSAL_V1" ++ shard.toBytes ++ encodeWord 8 height ++ encodeWord 4 round
    ++ encodeWord 32 hash

/-- the byte that stands for a phase in a signed vote -/
def phaseByte : VotePhase → Byte
  | .preVote => 1
  | .preCommit => 2
  | .commit => 3

def voteSigningBytes (shard : ShardIdent) (height : Uint64) (round : Uint32) (phase : VotePhase)
    (hash : Uint256) : Bytes :=
  ascii "ONX_CATCHAIN_VOTE_V1" ++ shard.toBytes ++ encodeWord 8 height ++ encodeWord 4 round
    ++ [phaseByte phase] ++ encodeWord 32 hash

theorem phaseByte_inj {a b : VotePhase} (h : phaseByte a = phaseByte b) : a = b := by
  cases a <;> cases b <;> first | rfl | exact absurd h (by decide)

/-- **A signed vote is for one shard, height, round, phase and hash.** -/
theorem voteSigningBytes_inj {s s' : ShardIdent} {ht ht' : Uint64} {r r' : Uint32}
    {p p' : VotePhase} {h h' : Uint256}
    (e : voteSigningBytes s ht r p h = voteSigningBytes s' ht' r' p' h') :
    s = s' ∧ ht = ht' ∧ r = r' ∧ p = p' ∧ h = h' := by
  unfold voteSigningBytes at e
  obtain ⟨e, eh⟩ := append_inj_be (by simp) e
  obtain ⟨e, ep⟩ := append_inj_be (by simp) e
  obtain ⟨e, er⟩ := append_inj_be (by simp) e
  obtain ⟨e, eht⟩ := append_inj_be (by simp) e
  obtain ⟨_, es⟩ := append_inj_be rfl e
  exact ⟨ShardIdent.toBytes_inj es, encodeWord_inj (n:=8) rfl eht, encodeWord_inj (n:=4) rfl er,
    phaseByte_inj (List.head_eq_of_cons_eq ep), encodeWord_inj (n:=32) rfl eh⟩

/-! ## the engine -/

structure ConsensusEngine where
  shard : ShardIdent
  height : Uint64
  validators : OrdMap Uint32 ValidatorSetEntry
  totalStake : Uint64
  timeouts : RoundTimeouts
  roundStartedAt : Uint64
  round : Uint32
  step : ConsensusStep
  proposal : Option ConsensusProposal
  votes : OrdMap VotePhase (OrdMap Uint32 ConsensusVote)
  finalized : Option FinalizedBlock
  nonempty : 0 < validators.keys.length

/-- the insertion loop of `new`: the validators by id and their saturating total -/
def collectValidators : List ValidatorSetEntry → OrdMap Uint32 ValidatorSetEntry → Uint64 →
    Except ConsensusError (OrdMap Uint32 ValidatorSetEntry × Uint64)
  | [], entries, total => .ok (entries, total)
  | v :: vs, entries, total =>
    if entries.contains v.validatorId then .error .duplicateCandidate
    else collectValidators vs (entries.insert v.validatorId v) (satAdd total v.actualStake)

/-- the leader of a round: `round % validator_count` over ascending ids -/
def scheduledLeader (validators : OrdMap Uint32 ValidatorSetEntry)
    (hne : 0 < validators.keys.length) (round : Uint32) : Uint32 :=
  validators.keys.get ⟨round.toNat % validators.keys.length, Nat.mod_lt _ hne⟩

namespace ConsensusEngine

def new (shard : ShardIdent) (height : Uint64) (validators : List ValidatorSetEntry)
    (now : Uint64) (timeouts : RoundTimeouts) : Except ConsensusError ConsensusEngine :=
  match collectValidators validators OrdMap.empty 0 with
  | .error e => .error e
  | .ok (entries, total) =>
    if h : entries.keys.length = 0 ∨ total = 0 then .error .emptyValidatorSet
    else .ok
      { shard, height, validators := entries, totalStake := total, timeouts
        roundStartedAt := now, round := 0, step := .proposal, proposal := none
        votes := OrdMap.empty, finalized := none
        nonempty := Nat.pos_of_ne_zero (fun h0 => h (Or.inl h0)) }

variable (c : Crypto) (self : ConsensusEngine)

def leader : Uint32 := scheduledLeader self.validators self.nonempty self.round

def bucket (phase : VotePhase) : OrdMap Uint32 ConsensusVote :=
  (self.votes.get? phase).getD OrdMap.empty

def voteStake (phase : VotePhase) : Uint64 :=
  ((self.bucket phase).keys.filterMap self.validators.get?).foldl
    (fun total v => satAdd total v.actualStake) 0

def hasSupermajority (phase : VotePhase) : Bool :=
  decide ((self.voteStake phase).toNat * 3 ≥ self.totalStake.toNat * 2)

def timeoutForStep : Uint64 :=
  match self.step with
  | .proposal => self.timeouts.proposal
  | .preVote => self.timeouts.prevote
  | .preCommit => self.timeouts.precommit
  | .commit => self.timeouts.commit
  | .finalized => BitVec.allOnes 64

def advanceAfterQuorum (phase : VotePhase) : ConsensusEngine :=
  match phase with
  | .preVote => { self with step := .preCommit }
  | .preCommit => { self with step := .commit }
  | .commit =>
    match self.proposal with
    -- `expect("votes require proposal")`: votes are counted only under a proposal
    | none => self
    | some p =>
      { self with
        votes := self.votes.erase .commit
        finalized := some
          { height := self.height, round := self.round, blockHash := p.blockHash
            commitVotes := (self.bucket .commit).values }
        step := .finalized }

/-- the key of a validator verifies the signature of a proposal -/
def proposalVerifies (key : PublicKey) (p : ConsensusProposal) : Bool :=
  key.verify c VALIDATOR_SIGN_V1 (proposalSigningBytes self.shard p.height p.round p.blockHash)
    p.signature

/-- the key of a validator verifies the signature of a vote -/
def voteVerifies (key : PublicKey) (v : ConsensusVote) : Bool :=
  key.verify c VALIDATOR_SIGN_V1 (voteSigningBytes self.shard v.height v.round v.phase v.blockHash)
    v.signature

def receiveProposal (proposal : ConsensusProposal) : Except ConsensusError Unit × ConsensusEngine :=
  if self.step = .finalized then (.error .invalidStep, self)
  else if proposal.height ≠ self.height ∨ proposal.round ≠ self.round then
    (.error .invalidRound, self)
  else if proposal.proposerId ≠ self.leader then (.error .invalidLeader, self)
  else match self.validators.get? proposal.proposerId with
  | none => (.error .unknownValidator, self)
  | some proposer =>
    if !self.proposalVerifies c proposer.publicKey proposal then (.error .invalidSignature, self)
    else match self.proposal with
    | some old =>
      if old.blockHash ≠ proposal.blockHash then (.error .conflictingProposal, self)
      else (.ok (), self)
    | none => (.ok (), { self with proposal := some proposal, step := .preVote })

/-- the phase whose votes a step counts -/
def expectedPhase : ConsensusStep → Option VotePhase
  | .preVote => some .preVote
  | .preCommit => some .preCommit
  | .commit => some .commit
  | _ => none

def receiveVote (vote : ConsensusVote) : Except ConsensusError Unit × ConsensusEngine :=
  if vote.height ≠ self.height ∨ vote.round ≠ self.round then (.error .invalidRound, self)
  else if self.proposal.map (·.blockHash) ≠ some vote.blockHash then
    (.error .conflictingProposal, self)
  else match expectedPhase self.step with
  | none => (.error .invalidStep, self)
  | some expected =>
    match self.validators.get? vote.validatorId with
    | none => (.error .unknownValidator, self)
    | some validator =>
      if !self.voteVerifies c validator.publicKey vote then (.error .invalidSignature, self)
      else if vote.phase ≠ expected then
        -- a vote that arrives after its phase is harmless evidence and is not counted
        if phaseRank vote.phase < phaseRank expected then (.ok (), self)
        else (.error .invalidStep, self)
      else
        -- `entry(phase).or_default()` leaves a bucket behind also when the vote is refused
        let opened := { self with votes := self.votes.insert vote.phase (self.bucket vote.phase) }
        if (opened.bucket vote.phase).contains vote.validatorId then
          (.error .duplicateValidatorSignature, opened)
        else
          let counted := { opened with
            votes := opened.votes.insert vote.phase
              ((opened.bucket vote.phase).insert vote.validatorId vote) }
          if counted.hasSupermajority expected then (.ok (), counted.advanceAfterQuorum expected)
          else (.ok (), counted)

def onTimeout (now : Uint64) : Bool × ConsensusEngine :=
  if self.step = .finalized
      ∨ now.toNat - self.roundStartedAt.toNat < self.timeoutForStep.toNat then
    (false, self)
  else
    (true, { self with
      round := satAdd self.round 1, roundStartedAt := now, step := .proposal, proposal := none
      votes := OrdMap.empty })

end ConsensusEngine

/-! ## calls -/

inductive Call where
  | proposal (p : ConsensusProposal)
  | vote (v : ConsensusVote)
  | timeout (now : Uint64)

/-- the engine after a call -/
def Call.apply (c : Crypto) (e : ConsensusEngine) : Call → ConsensusEngine
  | .proposal p => (e.receiveProposal c p).2
  | .vote v => (e.receiveVote c v).2
  | .timeout now => (e.onTimeout now).2

/-! ## a sample engine -/

def sampleShard : ShardIdent := ShardIdent.root WorkchainIdent.BASIC

/-- four validators of equal stake -/
def sampleValidators : List ValidatorSetEntry :=
  [⟨0, ⟨10⟩, 1⟩, ⟨1, ⟨11⟩, 1⟩, ⟨2, ⟨12⟩, 1⟩, ⟨3, ⟨13⟩, 1⟩]

def sampleKey (id : Uint32) : PublicKey := ⟨BitVec.ofNat 256 (10 + id.toNat)⟩

/-- an engine as `new` returns it for the sample list -/
def sampleEngine : ConsensusEngine where
  shard := sampleShard
  height := 1
  validators := ⟨[(0, ⟨0, ⟨10⟩, 1⟩), (1, ⟨1, ⟨11⟩, 1⟩), (2, ⟨2, ⟨12⟩, 1⟩), (3, ⟨3, ⟨13⟩, 1⟩)], by decide⟩
  totalStake := 4
  timeouts := RoundTimeouts.default
  roundStartedAt := 0
  round := 0
  step := .proposal
  proposal := none
  votes := OrdMap.empty
  finalized := none
  nonempty := by decide

theorem sampleEngine_new :
    ConsensusEngine.new sampleShard 1 sampleValidators 0 RoundTimeouts.default = .ok sampleEngine := by
  rfl

def sampleProposal (round : Uint32) (hash : Uint256) (id : Uint32) : ConsensusProposal :=
  ⟨1, round, hash, id, sampleSign (sampleKey id) VALIDATOR_SIGN_V1
    (proposalSigningBytes sampleShard 1 round hash)⟩

def sampleVote (round : Uint32) (phase : VotePhase) (hash : Uint256) (id : Uint32) : ConsensusVote :=
  ⟨1, round, phase, hash, id, sampleSign (sampleKey id) VALIDATOR_SIGN_V1
    (voteSigningBytes sampleShard 1 round phase hash)⟩

end Onx.Consensus
