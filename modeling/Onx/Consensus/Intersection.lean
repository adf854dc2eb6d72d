import Onx.Consensus.Evidence

/-!
# The intersection of quorums

Any two sets of voters that the engine takes for a supermajority should share a third of all stake.
The engine compares sums that saturate at `u64::MAX`.

* `Intersecting`              what quorums of a validator list should do;
* `intersecting_of_fits`      they do where the stakes fit a `u64`;
* `not_intersecting`          two sets that the engine takes for supermajorities although they share
                              too little;
* `intersection_iff`          **the sums of stakes** under which quorums always intersect;
* `disjoint_quorums`          one voter each.
-/

namespace Onx.Consensus
open Finset

/-- `u64::MAX` -/
def MAX_STAKE : Nat := 2^64 - 1

/-- the ids whose votes are recorded for a phase -/
def ConsensusEngine.voters (e : ConsensusEngine) (phase : VotePhase) : List Uint32 :=
  (e.bucket phase).keys

/-- any two sets of validators whose recorded votes are a supermajority share a third of the stake -/
def Intersecting (vs : List ValidatorSetEntry) : Prop :=
  ∀ shard height now timeouts e, ConsensusEngine.new shard height vs now timeouts = .ok e →
    ∀ (e₁ e₂ : ConsensusEngine) (phase₁ phase₂ : VotePhase), SameConfig e e₁ → SameConfig e e₂ →
      e₁.voters phase₁ ⊆ e.validators.keys → e₂.voters phase₂ ⊆ e.validators.keys →
      e₁.hasSupermajority phase₁ = true → e₂.hasSupermajority phase₂ = true →
      stakeSum vs ≤ 3 * stakeOfIds vs (e₁.voters phase₁ ∩ e₂.voters phase₂)

/-! ## stakes that fit -/

section
variable {vs : List ValidatorSetEntry} {e : ConsensusEngine}

theorem stakeOfIds_congr {ids ids' : List Uint32} (h : ∀ id, id ∈ ids ↔ id ∈ ids') :
    stakeOfIds vs ids = stakeOfIds vs ids' := by
  unfold stakeOfIds
  simp only [h]

/-- what `new` keeps of any list -/
theorem new_members {shard : ShardIdent} {height now : Uint64} {timeouts : RoundTimeouts}
    (h : ConsensusEngine.new shard height vs now timeouts = .ok e) :
    (∀ id v, e.validators.get? id = some v → v.validatorId = id)
      ∧ e.validators.values.Perm vs ∧ e.totalStake.toNat = min (stakeSum vs) MAX_STAKE := by
  obtain ⟨hids, hperm, htotal⟩ := collectValidators_members (collect_of_new h)
    (fun id v hv => by cases hv)
  refine ⟨hids, ?_, ?_⟩
  · simpa [OrdMap.values, OrdMap.empty] using hperm
  · rw [htotal, toNat_foldl_satAdd]
    unfold MAX_STAKE
    congr 1
    exact Nat.zero_add _

/-- the stake that the engine counts for its voters -/
theorem toNat_voteStake (hids : ∀ id v, e.validators.get? id = some v → v.validatorId = id)
    (hperm : e.validators.values.Perm vs) {e' : ConsensusEngine} (h : SameConfig e e')
    (phase : VotePhase) :
    (e'.voteStake phase).toNat = min (stakeOfIds vs (e'.voters phase)) MAX_STAKE := by
  rw [voteStake_eq, toNat_tallyStake, h.validators, sum_weight_eq hids hperm]
  rfl

/-- **Quorums intersect where the stakes fit a `u64`.** -/
theorem intersecting_of_fits (hsum : stakeSum vs ≤ MAX_STAKE) : Intersecting vs := by
  intro shard height now timeouts e hnew e₁ e₂ phase₁ phase₂ h₁ h₂ hmem₁ hmem₂ hq₁ hq₂
  obtain ⟨hids, hperm, htotal⟩ := new_members hnew
  have hV : totalWeight e.validators = stakeSum vs := by
    rw [totalWeight_eq, stakeSum_perm hperm]
  have hquorum : ∀ (e' : ConsensusEngine) (phase : VotePhase), SameConfig e e' →
      e'.voters phase ⊆ e.validators.keys → e'.hasSupermajority phase = true →
      Quorum.IsQuorum (weight e.validators) e.validators.keys.toFinset (e'.voters phase).toFinset := by
    intro e' phase hconf hmem hq
    have hcount := of_decide_eq_true hq
    rw [voteStake_eq, hconf.validators, hconf.totalStake, htotal, Nat.min_eq_left hsum] at hcount
    refine isQuorum_of_tally (hV.trans_le hsum) hmem ?_
    rw [hV]
    omega
  have hinter := Quorum.inter_weight _ (hquorum e₁ phase₁ h₁ hmem₁ hq₁)
    (hquorum e₂ phase₂ h₂ hmem₂ hq₂)
  change totalWeight e.validators ≤ _ at hinter
  rwa [hV, ← List.toFinset_inter, sum_weight_eq hids hperm] at hinter

/-! ## sums that saturate -/

/-- a vote that stands for a validator -/
def voteOf (id : Uint32) : ConsensusVote := ⟨0, 0, .preVote, 0, id, ⟨0⟩⟩

/-- a bucket with the votes of some ids -/
def recorded (ids : List Uint32) : OrdMap Uint32 ConsensusVote :=
  ids.foldl (fun bucket id => bucket.insert id (voteOf id)) OrdMap.empty

theorem mem_keys_recorded {ids : List Uint32} {id : Uint32} : id ∈ (recorded ids).keys ↔ id ∈ ids := by
  have hfold : ∀ (ids : List Uint32) (bucket : OrdMap Uint32 ConsensusVote),
      id ∈ (ids.foldl (fun bucket id => bucket.insert id (voteOf id)) bucket).keys
        ↔ id ∈ ids ∨ id ∈ bucket.keys := by
    intro ids
    induction ids with
    | nil => simp
    | cons head ids ih =>
      intro bucket
      rw [List.foldl_cons, ih, List.mem_cons, OrdMap.mem_keys_insert]
      tauto
  rw [recorded, hfold]
  simp [OrdMap.empty, OrdMap.keys]

/-- the engine with the votes of some ids in the first phase -/
def ConsensusEngine.recording (e : ConsensusEngine) (ids : List Uint32) : ConsensusEngine :=
  { e with votes := OrdMap.empty.insert .preVote (recorded ids) }

theorem mem_voters_recording {ids : List Uint32} {id : Uint32} :
    id ∈ (e.recording ids).voters .preVote ↔ id ∈ ids := by
  have hbucket : (e.recording ids).bucket .preVote = recorded ids := by
    unfold ConsensusEngine.bucket ConsensusEngine.recording
    dsimp only
    rw [OrdMap.get?_insert_self]
    rfl
  unfold ConsensusEngine.voters
  rw [hbucket, mem_keys_recorded]

/-- lists that `new` accepts -/
theorem exists_new (hnodup : (vs.map (·.validatorId)).Nodup) (hpos : 0 < stakeSum vs) :
    ∃ e, ConsensusEngine.new sampleShard 1 vs 0 RoundTimeouts.default = .ok e := by
  obtain ⟨V, total, hcollect⟩ := @collectValidators_ok vs OrdMap.empty 0 hnodup (fun _ _ => rfl)
  obtain ⟨_, hperm, htotal⟩ := collectValidators_members hcollect (fun id v hv => by cases hv)
  have hkeys : V.keys.length ≠ 0 := by
    intro hzero
    have hlen := hperm.length_eq
    rw [OrdMap.values, List.length_map, ← OrdMap.size, ← OrdMap.length_keys, hzero,
      List.length_append] at hlen
    have hnil : vs = [] := List.eq_nil_of_length_eq_zero (by omega)
    rw [hnil] at hpos
    exact absurd hpos (Nat.lt_irrefl 0)
  have hne : total ≠ 0 := by
    intro hzero
    have hnat := toNat_foldl_satAdd vs 0
    rw [← htotal, hzero, show (0 : Uint64).toNat = 0 from rfl] at hnat
    omega
  unfold ConsensusEngine.new
  rw [hcollect]
  dsimp only
  rw [dif_neg (not_or.mpr ⟨hkeys, hne⟩)]
  exact ⟨_, rfl⟩

/-- the ids of a list are those that `new` keeps -/
theorem mem_keys_of_new {shard : ShardIdent} {height now : Uint64} {timeouts : RoundTimeouts}
    (h : ConsensusEngine.new shard height vs now timeouts = .ok e) {id : Uint32}
    (hid : id ∈ vs.map (·.validatorId)) : id ∈ e.validators.keys := by
  obtain ⟨hown, hperm, _⟩ := new_members h
  obtain ⟨v, hv, rfl⟩ := List.mem_map.mp hid
  obtain ⟨id, hget⟩ := OrdMap.mem_values_iff.mp (hperm.mem_iff.mpr hv)
  exact OrdMap.mem_keys_iff.mpr ⟨v, hown id v hget ▸ hget⟩

theorem recording_hasSupermajority {shard : ShardIdent} {height now : Uint64}
    {timeouts : RoundTimeouts} (h : ConsensusEngine.new shard height vs now timeouts = .ok e)
    {ids : List Uint32} (hids : 2 * MAX_STAKE ≤ 3 * stakeOfIds vs ids) :
    (e.recording ids).hasSupermajority .preVote = true := by
  obtain ⟨hown, hperm, htotal⟩ := new_members h
  have hconf : SameConfig e (e.recording ids) := ⟨rfl, rfl, rfl, rfl⟩
  have hstake := toNat_voteStake hown hperm hconf .preVote
  rw [stakeOfIds_congr (fun _ => mem_voters_recording)] at hstake
  unfold ConsensusEngine.hasSupermajority
  rw [hstake, decide_eq_true_iff]
  have htotal' : (e.recording ids).totalStake.toNat = min (stakeSum vs) MAX_STAKE := htotal
  omega

/-- **Two sets that share too little**, each a supermajority of the total that saturates. -/
theorem not_intersecting (hnodup : (vs.map (·.validatorId)).Nodup) (hpos : 0 < stakeSum vs)
    {ids₁ ids₂ : List Uint32} (h₁ : ids₁ ⊆ vs.map (·.validatorId)) (h₂ : ids₂ ⊆ vs.map (·.validatorId))
    (hq₁ : 2 * MAX_STAKE ≤ 3 * stakeOfIds vs ids₁) (hq₂ : 2 * MAX_STAKE ≤ 3 * stakeOfIds vs ids₂)
    (hlt : 3 * stakeOfIds vs (ids₁ ∩ ids₂) < stakeSum vs) : ¬ Intersecting vs := by
  intro h
  obtain ⟨e, hnew⟩ := exists_new hnodup hpos
  have hmem : ∀ {ids : List Uint32}, ids ⊆ vs.map (·.validatorId) →
      (e.recording ids).voters .preVote ⊆ e.validators.keys := fun hsub id hid =>
    mem_keys_of_new hnew (hsub (mem_voters_recording.mp hid))
  have hthird := h _ _ _ _ e hnew (e.recording ids₁) (e.recording ids₂) .preVote .preVote
    ⟨rfl, rfl, rfl, rfl⟩ ⟨rfl, rfl, rfl, rfl⟩ (hmem h₁) (hmem h₂)
    (recording_hasSupermajority hnew hq₁) (recording_hasSupermajority hnew hq₂)
  have hcommon : ∀ id, id ∈ (e.recording ids₁).voters .preVote ∩ (e.recording ids₂).voters .preVote
      ↔ id ∈ ids₁ ∩ ids₂ := by
    intro id
    rw [List.mem_inter_iff, List.mem_inter_iff, mem_voters_recording, mem_voters_recording]
  rw [stakeOfIds_congr hcommon] at hthird
  omega

end

/-! ## lists of a given sum -/

/-- `k` stakes of any sum that they can have -/
theorem exists_stakes (k n : Nat) (h : n ≤ k * MAX_STAKE) :
    ∃ stakes : List Uint64, stakes.length = k ∧ (stakes.map BitVec.toNat).sum = n := by
  induction k generalizing n with
  | zero =>
    rw [Nat.zero_mul, Nat.le_zero] at h
    exact ⟨[], rfl, h.symm⟩
  | succ k ih =>
    rw [Nat.succ_mul] at h
    obtain ⟨stakes, hlen, hsum⟩ := ih (n - min n MAX_STAKE) (by omega)
    refine ⟨BitVec.ofNat 64 (min n MAX_STAKE) :: stakes, congrArg (· + 1) hlen, ?_⟩
    have hfit : min n MAX_STAKE < 2^64 := by
      unfold MAX_STAKE
      omega
    rw [List.map_cons, List.sum_cons, hsum, BitVec.toNat_ofNat, Nat.mod_eq_of_lt hfit]
    omega

/-- validators of some stakes, with their indices for ids -/
def validatorsOf : Nat → List Uint64 → List ValidatorSetEntry
  | _, [] => []
  | index, stake :: stakes => ⟨BitVec.ofNat 32 index, ⟨0⟩, stake⟩ :: validatorsOf (index + 1) stakes

theorem map_id_validatorsOf (index : Nat) (stakes : List Uint64) :
    (validatorsOf index stakes).map (·.validatorId)
      = (List.range' index stakes.length).map (BitVec.ofNat 32) := by
  induction stakes generalizing index with
  | nil => rfl
  | cons stake stakes ih =>
    rw [validatorsOf, List.map_cons, ih, List.length_cons, List.range'_succ, List.map_cons]

theorem stakeSum_validatorsOf (index : Nat) (stakes : List Uint64) :
    stakeSum (validatorsOf index stakes) = (stakes.map BitVec.toNat).sum := by
  induction stakes generalizing index with
  | nil => rfl
  | cons stake stakes ih => rw [validatorsOf, stakeSum_cons, ih, List.map_cons, List.sum_cons]

theorem nodup_validatorsOf {stakes : List Uint64} (h : stakes.length ≤ 2^32) :
    ((validatorsOf 0 stakes).map (·.validatorId)).Nodup := by
  rw [map_id_validatorsOf, ← List.range_eq_range']
  exact BitVec.nodup_ofNat h

/-- sums a little over `u64::MAX`: two quorums that share one validator of less than a third -/
theorem fails_shared {n k : Nat} (hk : MAX_STAKE = 3 * k) (h : MAX_STAKE < n) (hlt : n < 4 * k) :
    ∃ vs, stakeSum vs = n ∧ ¬ Intersecting vs := by
  have hword : 3 * k < 2^64 := by
    rw [← hk]
    decide
  have hless : (BitVec.ofNat 64 (4 * k - n)).toNat = 4 * k - n := by
    rw [BitVec.toNat_ofNat, Nat.mod_eq_of_lt (by omega)]
  have hmore : (BitVec.ofNat 64 (n - 2 * k)).toNat = n - 2 * k := by
    rw [BitVec.toNat_ofNat, Nat.mod_eq_of_lt (by omega)]
  let stakes := [BitVec.ofNat 64 (4 * k - n), BitVec.ofNat 64 (n - 2 * k), BitVec.ofNat 64 (n - 2 * k)]
  have hsum : stakeSum (validatorsOf 0 stakes) = n := by
    rw [stakeSum_validatorsOf]
    simp only [stakes, List.map_cons, List.map_nil, List.sum_cons, List.sum_nil, hless, hmore]
    omega
  have hstake : ∀ ids, stakeOfIds (validatorsOf 0 stakes) ids
      = (if (0 : Uint32) ∈ ids then 4 * k - n else 0)
        + ((if (1 : Uint32) ∈ ids then n - 2 * k else 0)
          + (if (2 : Uint32) ∈ ids then n - 2 * k else 0)) := by
    intro ids
    rw [stakeOfIds_eq_sum, ← hless, ← hmore]
    rfl
  refine ⟨_, hsum, @not_intersecting _ (nodup_validatorsOf (by simp [stakes])) (by omega)
    [0, 1] [0, 2] ?_ ?_ ?_ ?_ ?_⟩
  · rw [map_id_validatorsOf]
    show [0, 1] ⊆ (List.range' 0 3).map (BitVec.ofNat 32)
    decide
  · rw [map_id_validatorsOf]
    show [0, 2] ⊆ (List.range' 0 3).map (BitVec.ofNat 32)
    decide
  · rw [hstake]
    simp
    omega
  · rw [hstake]
    simp
    omega
  · rw [hstake, hsum]
    simp
    omega

/-- greater sums: two quorums that share nobody -/
theorem fails_disjoint {n k : Nat} (hk : MAX_STAKE = 3 * k) (h : 4 * k ≤ n)
    (hle : n ≤ 2^32 * MAX_STAKE) : ∃ vs, stakeSum vs = n ∧ ¬ Intersecting vs := by
  have hword : 3 * k < 2^64 := by
    rw [← hk]
    decide
  obtain ⟨a, ha⟩ : ∃ a, a = min (3 * k) (n - 2 * k) := ⟨_, rfl⟩
  obtain ⟨b, hb⟩ : ∃ b, b = min (3 * k) (n - a) := ⟨_, rfl⟩
  obtain ⟨rest, hlen, hrest⟩ := exists_stakes (2^32 - 2) (n - a - b) (by
    rw [hk] at hle ⊢
    omega)
  have hfirst : (BitVec.ofNat 64 a).toNat = a := by
    rw [BitVec.toNat_ofNat, Nat.mod_eq_of_lt (by omega)]
  have hsecond : (BitVec.ofNat 64 b).toNat = b := by
    rw [BitVec.toNat_ofNat, Nat.mod_eq_of_lt (by omega)]
  have hstakes : (BitVec.ofNat 64 a :: BitVec.ofNat 64 b :: rest).length = 2^32 := by
    rw [List.length_cons, List.length_cons, hlen]
    omega
  have hsum : stakeSum (validatorsOf 0 (BitVec.ofNat 64 a :: BitVec.ofNat 64 b :: rest)) = n := by
    rw [stakeSum_validatorsOf, List.map_cons, List.map_cons, List.sum_cons, List.sum_cons, hrest,
      hfirst, hsecond]
    omega
  have hleast : ∀ ids, (if (0 : Uint32) ∈ ids then a else 0) + (if (1 : Uint32) ∈ ids then b else 0)
      ≤ stakeOfIds (validatorsOf 0 (BitVec.ofNat 64 a :: BitVec.ofNat 64 b :: rest)) ids := by
    intro ids
    rw [stakeOfIds_eq_sum, validatorsOf, validatorsOf, List.map_cons, List.map_cons, List.sum_cons,
      List.sum_cons, ← Nat.add_assoc]
    dsimp only
    rw [hfirst, hsecond]
    exact Nat.le_add_right _ _
  have hmem : ∀ i < 2, BitVec.ofNat 32 i ∈ (validatorsOf 0
      (BitVec.ofNat 64 a :: BitVec.ofNat 64 b :: rest)).map (·.validatorId) := by
    intro i hi
    rw [map_id_validatorsOf, hstakes]
    exact List.mem_map_of_mem (List.mem_range'_1.mpr ⟨Nat.zero_le _, by omega⟩)
  have hpos : 0 < n := by
    unfold MAX_STAKE at hk
    omega
  refine ⟨_, hsum, @not_intersecting _ (nodup_validatorsOf hstakes.le) (hsum ▸ hpos) [0] [1]
    ?_ ?_ ?_ ?_ ?_⟩
  · exact List.cons_subset.mpr ⟨hmem 0 (by decide), List.nil_subset _⟩
  · exact List.cons_subset.mpr ⟨hmem 1 (by decide), List.nil_subset _⟩
  · have hle := hleast [0]
    rw [if_pos (by decide), if_neg (by decide)] at hle
    omega
  · have hle := hleast [1]
    rw [if_neg (by decide), if_pos (by decide)] at hle
    omega
  · have hnone : ([0] : List Uint32) ∩ [1] = [] := by decide
    rw [hnone, hsum, stakeOfIds_eq_sum]
    simpa using hpos

theorem stakeSum_le (vs : List ValidatorSetEntry) : stakeSum vs ≤ vs.length * MAX_STAKE := by
  induction vs with
  | nil => exact Nat.zero_le _
  | cons v vs ih =>
    have hv : v.actualStake.toNat ≤ MAX_STAKE := Nat.le_sub_one_of_lt v.actualStake.isLt
    rw [stakeSum_cons, List.length_cons, Nat.succ_mul]
    omega

/-- the sums of the lists that `new` accepts -/
theorem stakeSum_le_of_new {shard : ShardIdent} {height now : Uint64} {timeouts : RoundTimeouts}
    {vs : List ValidatorSetEntry} {e : ConsensusEngine}
    (h : ConsensusEngine.new shard height vs now timeouts = .ok e) :
    stakeSum vs ≤ 2^32 * MAX_STAKE := by
  obtain ⟨_, hperm, _⟩ := new_members h
  have hlen : vs.length ≤ 2^32 := by
    rw [← hperm.length_eq, OrdMap.values, List.length_map, ← OrdMap.size, ← OrdMap.length_keys]
    exact BitVec.length_le_of_nodup e.validators.keys_nodup
  exact (stakeSum_le vs).trans (Nat.mul_le_mul_right _ hlen)

/-- **The sums of stakes under which quorums intersect.**  These are the sums that fit a `u64`, and
those beyond all lists that `new` accepts. -/
theorem intersection_iff (n : Nat) :
    (∀ vs, stakeSum vs = n → Intersecting vs) ↔ n ≤ MAX_STAKE ∨ 2^32 * MAX_STAKE < n := by
  constructor
  · intro h
    by_contra hout
    obtain ⟨hlt, hle⟩ := not_or.mp hout
    obtain ⟨k, hk⟩ : ∃ k, MAX_STAKE = 3 * k := ⟨6148914691236517205, rfl⟩
    by_cases h4 : n < 4 * k
    · obtain ⟨vs, hsum, hfails⟩ := fails_shared hk (Nat.not_le.mp hlt) h4
      exact hfails (h vs hsum)
    · obtain ⟨vs, hsum, hfails⟩ := fails_disjoint hk (Nat.not_lt.mp h4) (Nat.not_lt.mp hle)
      exact hfails (h vs hsum)
  · intro h vs hsum
    rcases h with hfits | hbeyond
    · exact intersecting_of_fits (hsum.trans_le hfits)
    · intro shard height now timeouts e hnew
      exact absurd (stakeSum_le_of_new hnew) (by omega)

/-- three validators of the greatest stake -/
def heavyValidators : List ValidatorSetEntry :=
  [⟨0, ⟨10⟩, BitVec.allOnes 64⟩, ⟨1, ⟨11⟩, BitVec.allOnes 64⟩, ⟨2, ⟨12⟩, BitVec.allOnes 64⟩]

def heavyEngine : ConsensusEngine where
  shard := sampleShard
  height := 1
  validators := ⟨[(0, ⟨0, ⟨10⟩, BitVec.allOnes 64⟩), (1, ⟨1, ⟨11⟩, BitVec.allOnes 64⟩),
    (2, ⟨2, ⟨12⟩, BitVec.allOnes 64⟩)], by decide⟩
  totalStake := BitVec.allOnes 64
  timeouts := RoundTimeouts.default
  roundStartedAt := 0
  round := 0
  step := .proposal
  proposal := none
  votes := OrdMap.empty
  finalized := none
  nonempty := by decide

/-- the engine after the proposal of round 0 and the vote of one validator -/
def heavyRun (id : Uint32) : ConsensusEngine :=
  Runs.run (Call.apply sampleCrypto) heavyEngine
    [.proposal (sampleProposal 0 5 0), .vote (sampleVote 0 .preVote 5 id)]

/-- **Two replicas, each with a supermajority of one vote.** -/
theorem disjoint_quorums :
    ConsensusEngine.new sampleShard 1 heavyValidators 0 RoundTimeouts.default = .ok heavyEngine
    ∧ (heavyRun 0).hasSupermajority .preVote = true ∧ (heavyRun 0).voters .preVote = [0]
    ∧ (heavyRun 1).hasSupermajority .preVote = true ∧ (heavyRun 1).voters .preVote = [1]
    ∧ ¬ Intersecting heavyValidators := by
  have hnew : ConsensusEngine.new sampleShard 1 heavyValidators 0 RoundTimeouts.default
      = .ok heavyEngine := rfl
  have hq0 : (heavyRun 0).hasSupermajority .preVote = true := by decide +kernel
  have hq1 : (heavyRun 1).hasSupermajority .preVote = true := by decide +kernel
  have hv0 : (heavyRun 0).voters .preVote = [0] := by decide +kernel
  have hv1 : (heavyRun 1).voters .preVote = [1] := by decide +kernel
  refine ⟨hnew, hq0, hv0, hq1, hv1, fun h => ?_⟩
  have hthird := h _ _ _ _ _ hnew (heavyRun 0) (heavyRun 1) .preVote .preVote
    (sameConfig_run _ _ _) (sameConfig_run _ _ _) (hv0 ▸ by decide) (hv1 ▸ by decide) hq0 hq1
  rw [hv0, hv1] at hthird
  exact absurd hthird (by decide)

end Onx.Consensus
