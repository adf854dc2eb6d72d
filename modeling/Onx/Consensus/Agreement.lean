import Onx.Consensus.Evidence
import Mathlib.Logic.Function.Basic

/-!
# Agreement between replicas

Replicas run one engine each for the same shard, height and validator list.  A validator that
is not faulty signs a vote only for the step, round and proposal of its own engine, and a vote
under its id counts only if it signed those bytes.  Any message may be delivered to any replica,
at any time and any number of times, or never.

* `World`, `World.step`   engines and signed votes, and the events that change them;
* `Allowed`               what the signature scheme rules out;
* `KeepsCommit`           an honest validator signs Commit for one hash only.  `on_timeout` forgets
                          the proposal and the Commit step, so nothing in the engine enforces it;
* `agreement_of_keepsCommit`   runs in which every honest validator does so agree;
* `agreement_fails`       a run of two replicas that finalize different hashes.
-/

namespace Onx.Consensus
variable {ρ : Type} [DecidableEq ρ]

/-- a vote that a validator has put its signature under -/
structure SignedVote where
  validator : Uint32
  shard : ShardIdent
  height : Uint64
  round : Uint32
  phase : VotePhase
  hash : Uint256
deriving DecidableEq

/-- the signed bytes -/
def SignedVote.bytes (s : SignedVote) : Bytes :=
  voteSigningBytes s.shard s.height s.round s.phase s.hash

structure World (ρ : Type) where
  engines : ρ → ConsensusEngine
  signed : List SignedVote

inductive Event (ρ : Type) where
  | call (replica : ρ) (call : Call)
  | sign (validator : Uint32)

/-- the phase and hash that a validator with this engine may sign a vote for -/
def openVote (e : ConsensusEngine) : Option (VotePhase × Uint256) :=
  match ConsensusEngine.expectedPhase e.step, e.proposal with
  | some phase, some p => some (phase, p.blockHash)
  | _, _ => none

/-- the engine of a replica accepts the signature of a vote -/
def voteVerified (c : Crypto) (e : ConsensusEngine) (v : ConsensusVote) : Bool :=
  match e.validators.get? v.validatorId with
  | some entry => e.voteVerifies c entry.publicKey v
  | none => false

section
variable (c : Crypto) (own : Uint32 → ρ) (faulty : Uint32 → Bool)

/-- `own` is the replica whose engine a validator follows -/
def World.step (w : World ρ) : Event ρ → World ρ
  | .call i call => { w with engines := Function.update w.engines i (call.apply c (w.engines i)) }
  | .sign v =>
    let e := w.engines (own v)
    match openVote e with
    | some (phase, hash) =>
      { w with signed := ⟨v, e.shard, e.height, e.round, phase, hash⟩ :: w.signed }
    | none => w

/-- a vote under the id of an honest validator verifies only over bytes which that validator
signed -/
def Allowed (w : World ρ) : Event ρ → Prop
  | .call i (.vote v) => faulty v.validatorId = false → voteVerified c (w.engines i) v = true →
      ∃ s ∈ w.signed, s.validator = v.validatorId
        ∧ s.bytes = voteSigningBytes (w.engines i).shard v.height v.round v.phase v.blockHash
  | _ => True

instance (w : World ρ) : ∀ ev, Decidable (Allowed c faulty w ev)
  | .call _ (.vote _) => inferInstanceAs (Decidable (_ → _))
  | .call _ (.proposal _) => isTrue trivial
  | .call _ (.timeout _) => isTrue trivial
  | .sign _ => isTrue trivial

/-- an honest validator that signs Commit has signed Commit for no other hash before -/
def KeepsCommit (w : World ρ) : Event ρ → Prop
  | .sign v => faulty v = false → (openVote (w.engines (own v))).map Prod.fst = some .commit →
      ∀ s ∈ w.signed, s.validator = v → s.phase = .commit →
        openVote (w.engines (own v)) = some (.commit, s.hash)
  | .call _ _ => True

instance (w : World ρ) : ∀ ev, Decidable (KeepsCommit own faulty w ev)
  | .sign _ => inferInstanceAs (Decidable (_ → _))
  | .call _ _ => isTrue trivial

end

/-- no two replicas have finalized different hashes -/
def Agreement (w : World ρ) : Prop :=
  ∀ i j f g, (w.engines i).finalized = some f → (w.engines j).finalized = some g →
    f.blockHash = g.blockHash

/-- every replica starts from `new` with the same list; nothing has been signed -/
structure World.Start (shard : ShardIdent) (height : Uint64) (vs : List ValidatorSetEntry)
    (now : ρ → Uint64) (timeouts : ρ → RoundTimeouts) (w : World ρ) : Prop where
  engines : ∀ i, ConsensusEngine.new shard height vs (now i) (timeouts i) = .ok (w.engines i)
  signed : w.signed = []

/-! ## signatures behind a certificate -/

/-- what `Allowed` says of a delivered vote, in terms of the validator set -/
def Backed (c : Crypto) (faulty : Uint32 → Bool) (shard : ShardIdent)
    (V : OrdMap Uint32 ValidatorSetEntry) (signed : List SignedVote) (v : ConsensusVote) : Prop :=
  faulty v.validatorId = false →
    (∃ entry, V.get? v.validatorId = some entry ∧ entry.publicKey.verify c VALIDATOR_SIGN_V1
      (voteSigningBytes shard v.height v.round v.phase v.blockHash) v.signature = true) →
    ∃ s ∈ signed, s.validator = v.validatorId
      ∧ s.bytes = voteSigningBytes shard v.height v.round v.phase v.blockHash

/-- the invariant of a world: engines of one configuration whose delivered votes are backed by
signatures, and one Commit hash for each honest validator -/
structure WorldInv (c : Crypto) (faulty : Uint32 → Bool) (shard : ShardIdent) (height : Uint64)
    (V : OrdMap Uint32 ValidatorSetEntry) (total : Uint64) (w : World ρ) : Prop where
  shard_eq : ∀ i, (w.engines i).shard = shard
  height_eq : ∀ i, (w.engines i).height = height
  validators_eq : ∀ i, (w.engines i).validators = V
  total_eq : ∀ i, (w.engines i).totalStake = total
  engines : ∀ i, EngineInv c (fun _ => True) (Backed c faulty shard V w.signed) (w.engines i)
  commits : ∀ s ∈ w.signed, ∀ s' ∈ w.signed, s.validator = s'.validator →
    faulty s.validator = false → s.phase = .commit → s'.phase = .commit → s.hash = s'.hash

section
variable {c : Crypto} {own : Uint32 → ρ} {faulty : Uint32 → Bool} {shard : ShardIdent}
  {height : Uint64} {V : OrdMap Uint32 ValidatorSetEntry} {total : Uint64} {w : World ρ}

theorem Backed.mono {signed signed' : List SignedVote} {v : ConsensusVote}
    (h : Backed c faulty shard V signed v) (hsub : ∀ x ∈ signed, x ∈ signed') :
    Backed c faulty shard V signed' v := by
  intro hf hv
  obtain ⟨s, hs, hsigned⟩ := h hf hv
  exact ⟨s, hsub s hs, hsigned⟩

/-- a delivery to one replica -/
theorem WorldInv.call (h : WorldInv c faulty shard height V total w) {i : ρ} {call : Call}
    (hallowed : Allowed c faulty w (.call i call)) :
    WorldInv c faulty shard height V total (w.step c own (.call i call)) := by
  have hconf := sameConfig_apply c (w.engines i) call
  have hinv : EngineInv c (fun _ => True) (Backed c faulty shard V w.signed)
      (call.apply c (w.engines i)) := by
    refine (h.engines i).apply (fun _ _ => trivial) ?_
    rintro v rfl hf ⟨entry, hentry, hver⟩
    have hmem := hallowed hf
    rw [voteVerified, h.validators_eq, hentry] at hmem
    unfold ConsensusEngine.voteVerifies at hmem
    rw [h.shard_eq] at hmem
    exact hmem hver
  -- the other engines are as they were
  have hcases : ∀ j, (w.step c own (.call i call)).engines j
      = if j = i then call.apply c (w.engines i) else w.engines j := fun j => by
    show Function.update _ _ _ j = _
    rw [Function.update_apply]
  refine ⟨fun j => ?_, fun j => ?_, fun j => ?_, fun j => ?_, fun j => ?_, h.commits⟩
  · rw [hcases]
    split_ifs
    · rw [hconf.shard, h.shard_eq]
    · exact h.shard_eq j
  · rw [hcases]
    split_ifs
    · rw [hconf.height, h.height_eq]
    · exact h.height_eq j
  · rw [hcases]
    split_ifs
    · rw [hconf.validators, h.validators_eq]
    · exact h.validators_eq j
  · rw [hcases]
    split_ifs
    · rw [hconf.totalStake, h.total_eq]
    · exact h.total_eq j
  · rw [hcases]
    split_ifs
    · exact hinv
    · exact h.engines j

/-- an honest validator signs the open vote of its own engine -/
theorem WorldInv.sign (h : WorldInv c faulty shard height V total w) {v : Uint32}
    (hkeep : KeepsCommit own faulty w (.sign v)) :
    WorldInv c faulty shard height V total (w.step c own (.sign v)) := by
  unfold World.step
  cases hopen : openVote (w.engines (own v)) with
  | none => simpa only [hopen] using h
  | some x =>
    obtain ⟨phase, hash⟩ := x
    simp only [hopen]
    -- an earlier Commit of the signer is for the hash it signs now
    have hold : phase = .commit → faulty v = false → ∀ s ∈ w.signed, s.validator = v →
        s.phase = .commit → s.hash = hash := by
      intro hphase hv s hs hsv hsp
      have hsame := hkeep hv (by rw [hopen, hphase]; rfl) s hs hsv hsp
      rw [hopen] at hsame
      exact (Prod.mk.inj (Option.some.inj hsame)).2.symm
    refine ⟨h.shard_eq, h.height_eq, h.validators_eq, h.total_eq, fun j => ?_, ?_⟩
    · exact (h.engines j).mono (fun _ _ => trivial)
        (fun _ hb => hb.mono (fun _ hx => List.mem_cons_of_mem _ hx))
    · intro s hs s' hs' hval hf hp hp'
      rcases List.mem_cons.mp hs with rfl | hs <;> rcases List.mem_cons.mp hs' with rfl | hs'
      · rfl
      · exact (hold hp hf s' hs' hval.symm hp').symm
      · exact hold hp' (by rw [← hf, hval]) s hs hval hp
      · exact h.commits s hs s' hs' hval hf hp hp'

theorem WorldInv.step (h : WorldInv c faulty shard height V total w) {ev : Event ρ}
    (hallowed : Allowed c faulty w ev) (hkeep : KeepsCommit own faulty w ev) :
    WorldInv c faulty shard height V total (w.step c own ev) := by
  cases ev with
  | call i call => exact h.call hallowed
  | sign v => exact h.sign hkeep

omit [DecidableEq ρ] in
/-- the voters of a finalized block are a quorum -/
theorem WorldInv.commit_quorum (h : WorldInv c faulty shard height V total w)
    (htotal : total.toNat = totalWeight V) {i : ρ} {f : FinalizedBlock}
    (hf : (w.engines i).finalized = some f) :
    ∃ A, Quorum.IsQuorum (weight V) V.keys.toFinset A ∧ ∀ id ∈ A, faulty id = false →
      ∃ s ∈ w.signed, s.validator = id ∧ s.phase = .commit ∧ s.hash = f.blockHash := by
  obtain ⟨p, m, _, rfl, hcert⟩ := (h.engines i).finalized_ok f hf
  have hstake := hcert.stake
  rw [h.total_eq, htotal, h.validators_eq] at hstake
  have hfit : totalWeight V ≤ 2^64 - 1 := by
    have hlt := total.isLt
    omega
  refine ⟨m.keys.toFinset, isQuorum_of_tally hfit (fun id hid => ?_) hstake, ?_⟩
  · obtain ⟨v, hv⟩ := OrdMap.mem_keys_iff.mp hid
    obtain ⟨hvid, _, hfor⟩ := hcert.votes id v hv
    obtain ⟨entry, hentry, _⟩ := hfor.verified
    rw [h.validators_eq, hvid] at hentry
    exact OrdMap.mem_keys_iff.mpr ⟨entry, hentry⟩
  · intro id hid hhonest
    obtain ⟨v, hv⟩ := OrdMap.mem_keys_iff.mp (List.mem_toFinset.mp hid)
    obtain ⟨hvid, hbacked, hfor⟩ := hcert.votes id v hv
    obtain ⟨entry, hentry, hver⟩ := hfor.verified
    rw [h.validators_eq] at hentry
    rw [h.shard_eq, h.height_eq] at hver
    have hheight : v.height = height := hfor.height_eq.trans (h.height_eq i)
    rw [← hvid] at hhonest
    obtain ⟨s, hs, hsv, hbytes⟩ := hbacked hhonest ⟨entry, hentry, by
      rw [hheight, hfor.round_eq, hfor.phase_eq, hfor.hash_eq]
      exact hver⟩
    obtain ⟨_, _, _, hphase, hhash⟩ := voteSigningBytes_inj hbytes
    exact ⟨s, hs, hsv.trans hvid, hphase.trans hfor.phase_eq, hhash.trans hfor.hash_eq⟩

omit [DecidableEq ρ] in
/-- two finalized blocks share an honest voter -/
theorem WorldInv.agreement (h : WorldInv c faulty shard height V total w)
    (htotal : total.toNat = totalWeight V) {F : Finset Uint32}
    (hF : 3 * ∑ id ∈ F, weight V id < totalWeight V) (hhonest : ∀ id ∈ V.keys, id ∉ F →
      faulty id = false) : Agreement w := by
  intro i j f g hf hg
  obtain ⟨A, hA, hAsigned⟩ := h.commit_quorum htotal hf
  obtain ⟨B, hB, hBsigned⟩ := h.commit_quorum htotal hg
  obtain ⟨v, hvA, hvB, hvF⟩ := Quorum.exists_common (weight V) hA hB hF
  have hok := hhonest v (List.mem_toFinset.mp (hA.1 hvA)) hvF
  obtain ⟨s, hs, rfl, hphase, hhash⟩ := hAsigned v hvA hok
  obtain ⟨s', hs', hval, hphase', hhash'⟩ := hBsigned _ hvB hok
  exact hhash.symm.trans ((h.commits s hs s' hs' hval.symm hok hphase hphase').trans hhash')

end

/-- stake of the faulty validators of a list -/
def faultyStake (faulty : Uint32 → Bool) (vs : List ValidatorSetEntry) : Nat :=
  stakeSum (vs.filter (fun v => faulty v.validatorId))

/-- the faulty members of the set collected from a list weigh what the list says -/
theorem faultyStake_eq {shard : ShardIdent} {height : Uint64} {vs : List ValidatorSetEntry}
    {e : ConsensusEngine} (h : StartOf shard height vs e) (faulty : Uint32 → Bool) :
    ∑ id ∈ (e.validators.keys.filter faulty).toFinset, weight e.validators id
      = faultyStake faulty vs := by
  rw [sum_weight_eq h.ids h.members, stakeOfIds, faultyStake]
  refine congrArg stakeSum (List.filter_congr fun v hv => ?_)
  obtain ⟨id, hid⟩ := OrdMap.mem_values_iff.mp (h.members.symm.subset hv)
  have hkey : v.validatorId ∈ e.validators.keys := by
    rw [h.ids id v hid]
    exact OrdMap.mem_keys_iff.mpr ⟨v, hid⟩
  simp [hkey]

omit [DecidableEq ρ] in
theorem worldInv_start {c : Crypto} {faulty : Uint32 → Bool} {shard : ShardIdent}
    {height : Uint64} {vs : List ValidatorSetEntry} {now : ρ → Uint64}
    {timeouts : ρ → RoundTimeouts} {w : World ρ} (h : World.Start shard height vs now timeouts w)
    (hsum : stakeSum vs ≤ 2^64 - 1) (i : ρ) :
    WorldInv c faulty shard height (w.engines i).validators (w.engines i).totalStake w := by
  have hsame : ∀ j, (w.engines j).validators = (w.engines i).validators
      ∧ (w.engines j).totalStake = (w.engines i).totalStake := fun j => by
    have heq := (collect_of_new (h.engines j)).symm.trans (collect_of_new (h.engines i))
    exact Prod.mk.inj (Except.ok.inj heq)
  refine ⟨fun j => ?_, fun j => ?_, fun j => (hsame j).1, fun j => (hsame j).2, fun j => ?_, ?_⟩
  · exact (new_spec (h.engines j) hsum).1.shard_eq
  · exact (new_spec (h.engines j) hsum).1.height_eq
  · exact (new_spec (h.engines j) hsum).2.2 c _ _
  · intro s hs
    rw [h.signed] at hs
    cases hs

/-- the run rule for worlds -/
theorem worldInv_run {c : Crypto} {own : Uint32 → ρ} {faulty : Uint32 → Bool}
    {shard : ShardIdent} {height : Uint64} {V : OrdMap Uint32 ValidatorSetEntry} {total : Uint64}
    {w : World ρ} (h : WorldInv c faulty shard height V total w) {events : List (Event ρ)}
    (hallowed : Runs.Along (World.step c own) (Allowed c faulty) w events)
    (hkeep : Runs.Along (World.step c own) (KeepsCommit own faulty) w events) :
    WorldInv c faulty shard height V total (Runs.run (World.step c own) w events) := by
  induction events generalizing w with
  | nil => exact h
  | cons ev events ih => exact ih (h.step hallowed.1 hkeep.1) hallowed.2 hkeep.2

/-! ## a sample network -/

def sampleWorld : World (Fin 4) := ⟨fun _ => sampleEngine, []⟩

/-- the replica of each sample validator -/
def sampleOwn (id : Uint32) : Fin 4 := Fin.ofNat 4 id.toNat

/-- three validators sign in a phase, and some replicas receive the votes -/
def phaseEvents (round : Uint32) (phase : VotePhase) (hash : Uint256) (signers : List Uint32)
    (receivers : List (Fin 4)) : List (Event (Fin 4)) :=
  signers.map .sign ++ receivers.flatMap (fun i => signers.map (fun id =>
    .call i (.vote (sampleVote round phase hash id))))

def proposalEvents (round : Uint32) (hash : Uint256) (leader : Uint32)
    (receivers : List (Fin 4)) : List (Event (Fin 4)) :=
  receivers.map (fun i => .call i (.proposal (sampleProposal round hash leader)))

theorem sampleWorld_start : World.Start sampleShard 1 sampleValidators (fun _ : Fin 4 => 0)
    (fun _ => RoundTimeouts.default) sampleWorld := ⟨fun _ => sampleEngine_new, rfl⟩

/-- a run in which replicas 0 and 1 finalize in the same round -/
def agreeingEvents : List (Event (Fin 4)) :=
  proposalEvents 0 5 0 [0, 1, 2] ++ phaseEvents 0 .preVote 5 [0, 1, 2] [0, 1, 2]
    ++ phaseEvents 0 .preCommit 5 [0, 1, 2] [0, 1, 2] ++ phaseEvents 0 .commit 5 [0, 1, 2] [0, 1]

/-! ## agreement -/

/-- **Replicas agree as long as no honest validator signs Commit for two hashes.** -/
theorem agreement_of_keepsCommit (c : Crypto) (own : Uint32 → ρ) (faulty : Uint32 → Bool)
    {shard : ShardIdent} {height : Uint64} {vs : List ValidatorSetEntry} {now : ρ → Uint64}
    {timeouts : ρ → RoundTimeouts} {w₀ : World ρ}
    (hstart : World.Start shard height vs now timeouts w₀) (hsum : stakeSum vs ≤ 2^64 - 1)
    (hfaulty : 3 * faultyStake faulty vs < stakeSum vs) (events : List (Event ρ))
    (hallowed : Runs.Along (World.step c own) (Allowed c faulty) w₀ events)
    (hkeep : Runs.Along (World.step c own) (KeepsCommit own faulty) w₀ events) :
    Agreement (Runs.run (World.step c own) w₀ events) := by
  intro i
  have hinv := worldInv_run (worldInv_start hstart hsum i) hallowed hkeep
  obtain ⟨hof, _, _⟩ := new_spec (hstart.engines i) hsum
  have htotal : totalWeight (w₀.engines i).validators = stakeSum vs := by
    rw [totalWeight_eq, stakeSum_perm hof.members]
  refine hinv.agreement hof.total (F := ((w₀.engines i).validators.keys.filter faulty).toFinset)
    ?_ ?_ i
  · rw [faultyStake_eq hof, htotal]
    exact hfaulty
  · intro id hid hnot
    cases hf : faulty id with
    | false => rfl
    | true => exact absurd (List.mem_toFinset.mpr (List.mem_filter.mpr ⟨hid, hf⟩)) hnot

theorem agreement_of_keepsCommit_sample :
    Agreement (Runs.run (World.step sampleCrypto sampleOwn) sampleWorld agreeingEvents) :=
  agreement_of_keepsCommit sampleCrypto sampleOwn (fun _ => false) sampleWorld_start (by decide)
    (by decide) agreeingEvents (by decide +kernel) (by decide +kernel)

/-- round 0 reaches the Commit step at replicas 0, 1 and 2, but the Commit votes reach replica 0
only; the others time out and finalize the proposal of round 1 -/
def splitEvents : List (Event (Fin 4)) :=
  proposalEvents 0 5 0 [0, 1, 2] ++ phaseEvents 0 .preVote 5 [0, 1, 2] [0, 1, 2]
    ++ phaseEvents 0 .preCommit 5 [0, 1, 2] [0, 1, 2] ++ phaseEvents 0 .commit 5 [0, 1, 2] [0]
    ++ [.call 1 (.timeout 3), .call 2 (.timeout 3), .call 3 (.timeout 3)]
    ++ proposalEvents 1 6 1 [1, 2, 3] ++ phaseEvents 1 .preVote 6 [1, 2, 3] [1, 2, 3]
    ++ phaseEvents 1 .preCommit 6 [1, 2, 3] [1, 2, 3] ++ phaseEvents 1 .commit 6 [1, 2, 3] [1]

/-- **Two replicas can finalize different hashes**, with no faulty validator at all. -/
theorem agreement_fails :
    World.Start sampleShard 1 sampleValidators (fun _ : Fin 4 => 0)
      (fun _ => RoundTimeouts.default) sampleWorld
    ∧ stakeSum sampleValidators ≤ 2^64 - 1
    ∧ 3 * faultyStake (fun _ => false) sampleValidators < stakeSum sampleValidators
    ∧ Runs.Along (World.step sampleCrypto sampleOwn) (Allowed sampleCrypto (fun _ => false))
      sampleWorld splitEvents
    ∧ ¬ Agreement (Runs.run (World.step sampleCrypto sampleOwn) sampleWorld splitEvents) := by
  refine ⟨sampleWorld_start, by decide, by decide, by decide +kernel, fun hagree => ?_⟩
  have h0 : ((Runs.run (World.step sampleCrypto sampleOwn) sampleWorld splitEvents).engines
      0).finalized.map (·.blockHash) = some 5 := by decide +kernel
  have h1 : ((Runs.run (World.step sampleCrypto sampleOwn) sampleWorld splitEvents).engines
      1).finalized.map (·.blockHash) = some 6 := by decide +kernel
  obtain ⟨f, hf, hf5⟩ := Option.map_eq_some_iff.mp h0
  obtain ⟨g, hg, hg6⟩ := Option.map_eq_some_iff.mp h1
  have heq := hagree 0 1 f g hf hg
  rw [hf5, hg6] at heq
  exact absurd heq (by decide)

end Onx.Consensus
