import Onx.Consensus.Evidence

/-!
# Consensus signatures cannot be replayed

Proposals and votes are signed under one domain tag, and their tags inside the signed bytes have different
lengths.  All that a message is about is in its bytes, and an engine fills in its own shard.

* `Signed`                    what a validator signs, a proposal or a vote;
* `signingBytes_inj`          the bytes determine it, also across the two kinds;
* `Accepts`                   an engine takes a signature for it;
* `signatures_not_replayed`   **a signature counts for one message**, whichever engines take it.
-/

namespace Onx.Consensus

/-! ## signed bytes -/

theorem proposalSigningBytes_inj {s s' : ShardIdent} {ht ht' : Uint64} {r r' : Uint32} {h h' : Uint256}
    (e : proposalSigningBytes s ht r h = proposalSigningBytes s' ht' r' h') :
    s = s' ∧ ht = ht' ∧ r = r' ∧ h = h' := by
  unfold proposalSigningBytes at e
  obtain ⟨e, eh⟩ := append_inj_be (by simp) e
  obtain ⟨e, er⟩ := append_inj_be (by simp) e
  obtain ⟨e, eht⟩ := append_inj_be (by simp) e
  obtain ⟨_, es⟩ := append_inj_be rfl e
  exact ⟨ShardIdent.toBytes_inj es, encodeWord_inj (n:=8) rfl eht, encodeWord_inj (n:=4) rfl er,
    encodeWord_inj (n:=32) rfl eh⟩

/-- **No proposal is a vote**: its bytes are three more. -/
theorem proposal_ne_vote {s s' : ShardIdent} {ht ht' : Uint64} {r r' : Uint32} {p : VotePhase} {h h' : Uint256} :
    proposalSigningBytes s ht r h ≠ voteSigningBytes s' ht' r' p h' := by
  intro e
  have htag : (ascii "ONX_CATCHAIN_PROPOSAL_V1").length = (ascii "ONX_CATCHAIN_VOTE_V1").length + 4 := rfl
  have hlen := congrArg List.length e
  simp only [proposalSigningBytes, voteSigningBytes, List.length_append, length_encodeWord,
    ShardIdent.length_toBytes, List.length_singleton, htag] at hlen
  omega

/-- what a validator signs -/
inductive Signed where
  | proposal (shard : ShardIdent) (height : Uint64) (round : Uint32) (blockHash : Uint256)
  | vote (shard : ShardIdent) (height : Uint64) (round : Uint32) (phase : VotePhase) (blockHash : Uint256)

namespace Signed

def signingBytes : Signed → Bytes
  | proposal shard height round blockHash => proposalSigningBytes shard height round blockHash
  | vote shard height round phase blockHash => voteSigningBytes shard height round phase blockHash

/-- the shard, height and round -/
def place : Signed → ShardIdent × Uint64 × Uint32
  | proposal shard height round _ => (shard, height, round)
  | vote shard height round _ _ => (shard, height, round)

/-- **The signed bytes determine the message**, its kind included. -/
theorem signingBytes_inj : Function.Injective signingBytes := by
  intro x y h
  cases x with
  | proposal s ht r bh =>
    cases y with
    | proposal s' ht' r' bh' =>
      obtain ⟨rfl, rfl, rfl, rfl⟩ := proposalSigningBytes_inj h
      rfl
    | vote s' ht' r' p' bh' => exact absurd h proposal_ne_vote
  | vote s ht r p bh =>
    cases y with
    | proposal s' ht' r' bh' => exact absurd h.symm proposal_ne_vote
    | vote s' ht' r' p' bh' =>
      obtain ⟨rfl, rfl, rfl, rfl, rfl⟩ := voteSigningBytes_inj h
      rfl

end Signed

/-! ## what an engine accepts -/

namespace ConsensusEngine

/-- the engine takes the signature, in a proposal or in a vote -/
inductive Accepts (c : Crypto) (self : ConsensusEngine) (s : Signature) : Signed → Prop where
  | proposal (p : ConsensusProposal) (hsig : p.signature = s) (hok : (self.receiveProposal c p).1 = .ok ()) :
      Accepts c self s (.proposal self.shard p.height p.round p.blockHash)
  | vote (v : ConsensusVote) (hsig : v.signature = s) (hok : (self.receiveVote c v).1 = .ok ()) :
      Accepts c self s (.vote self.shard v.height v.round v.phase v.blockHash)

variable {c : Crypto} {self : ConsensusEngine} {s : Signature} {x : Signed}

theorem proposalFor_of_ok {p : ConsensusProposal} (hok : (self.receiveProposal c p).1 = .ok ()) :
    ProposalFor c self.shard self.height self.validators self.nonempty self.round p := by
  rcases self.receiveProposal_cases c p with ⟨err, hr⟩ | ⟨_, _, _, _, hfor, _⟩ | ⟨_, _, hfor, _⟩
  · rw [hr] at hok
    cases hok
  · exact hfor
  · exact hfor

/-- also when it comes late and is not counted -/
theorem voteFor_of_ok {v : ConsensusVote} (hok : (self.receiveVote c v).1 = .ok ()) :
    VoteFor c self.shard self.height self.validators self.round v.phase v.blockHash v := by
  rcases self.receiveVote_cases c v with ⟨err, hr⟩ | ⟨_, _, _, _, hfor, _⟩ | ⟨_, _, _, hfor, _⟩
  · rw [hr] at hok
    cases hok
  · rwa [hfor.hash_eq]
  · rwa [hfor.hash_eq]

/-- what an engine accepts a signature for, is in its place and verifies with a key -/
theorem Accepts.sound (h : self.Accepts c s x) :
    x.place = (self.shard, self.height, self.round)
    ∧ ∃ key : PublicKey, key.verify c VALIDATOR_SIGN_V1 x.signingBytes s = true := by
  cases h with
  | proposal p hsig hok =>
    subst hsig
    obtain ⟨hheight, hround, _, entry, _, hkey⟩ := proposalFor_of_ok hok
    rw [hheight, hround]
    exact ⟨rfl, entry.publicKey, hkey⟩
  | vote v hsig hok =>
    subst hsig
    obtain ⟨hheight, hround, _, _, entry, _, hkey⟩ := voteFor_of_ok hok
    rw [hheight, hround]
    exact ⟨rfl, entry.publicKey, hkey⟩

end ConsensusEngine

/-- what is claimed of a signature and any two engines -/
structure NotReplayed (c : Crypto) (s : Signature) (e e' : ConsensusEngine) : Prop where
  /-- shard, height, round, phase, block hash and the kind of the message are in its bytes -/
  bytes : ∀ x y : Signed, x.signingBytes = y.signingBytes → x = y
  accepted : c.Binds s → ∀ x y, e.Accepts c s x → e'.Accepts c s y → x = y
  /-- engines of another shard, height or round accept nothing with the signature -/
  engines : c.Binds s → ∀ x y, e.Accepts c s x → e'.Accepts c s y →
    e.shard = e'.shard ∧ e.height = e'.height ∧ e.round = e'.round

/-- **A consensus signature counts for one message**, in one place. -/
theorem signatures_not_replayed (c : Crypto) (s : Signature) (e e' : ConsensusEngine) :
    NotReplayed c s e e' := by
  have hsame : c.Binds s → ∀ x y, e.Accepts c s x → e'.Accepts c s y → x = y := by
    intro hbinds x y hx hy
    obtain ⟨_, key, hkey⟩ := hx.sound
    obtain ⟨_, key', hkey'⟩ := hy.sound
    exact Signed.signingBytes_inj (hbinds.message_eq hkey hkey')
  refine ⟨fun x y h => Signed.signingBytes_inj h, hsame, fun hbinds x y hx hy => ?_⟩
  have hplace : (e.shard, e.height, e.round) = (e'.shard, e'.height, e'.round) := by
    rw [← hx.sound.1, ← hy.sound.1, hsame hbinds x y hx hy]
  simpa using hplace

/-- validator 0 has signed one proposal, for block 7 -/
def proposedCrypto : Crypto :=
  signedOnce (domainSeparatedMessage VALIDATOR_SIGN_V1 (proposalSigningBytes sampleShard 1 0 7))
    [(sampleKey 0, ⟨11⟩)]

theorem signatures_not_replayed_sample :
    sampleEngine.Accepts proposedCrypto ⟨11⟩ (.proposal sampleShard 1 0 7)
    ∧ ¬ { sampleEngine with height := 2 }.Accepts proposedCrypto ⟨11⟩ (.proposal sampleShard 2 0 7) := by
  have haccepted : sampleEngine.Accepts proposedCrypto ⟨11⟩ (.proposal sampleShard 1 0 7) :=
    .proposal ⟨1, 0, 7, 0, ⟨11⟩⟩ rfl (by decide +kernel)
  refine ⟨haccepted, fun h => ?_⟩
  have hreplay := signatures_not_replayed proposedCrypto ⟨11⟩ sampleEngine { sampleEngine with height := 2 }
  have heq := (hreplay.engines (binds_signedOnce _ _ _) _ _ haccepted h).2.1
  exact absurd heq (by decide)

end Onx.Consensus
