import Onx.Consensus.Engine
import Onx.Lib.Quorum
import Mathlib.Algebra.BigOperators.Intervals

/-!
# Stake of validators and of vote buckets

The engine adds stakes with `saturating_add`.  Under a validator list whose stakes sum to at
most `u64::MAX` nothing saturates, and the stake of a bucket is the plain sum over its voters:

* `weight V id`             the stake of `id` in the validator set `V`, zero outside it;
* `collectValidators_spec`  what `new` keeps of a validator list;
* `tallyStake_eq`           the stake the engine counts for a bucket;
* `isQuorum_of_tally`       a bucket that reaches the engine's two-thirds test is a quorum.
-/

namespace Onx.Consensus
open Finset

def stakeSum (vs : List ValidatorSetEntry) : Nat := (vs.map (fun v => v.actualStake.toNat)).sum

/-- the stake of a validator id, zero outside the set -/
def weight (V : OrdMap Uint32 ValidatorSetEntry) (id : Uint32) : Nat :=
  ((V.get? id).map (fun v => v.actualStake.toNat)).getD 0

theorem weight_of_get? {V : OrdMap Uint32 ValidatorSetEntry} {id : Uint32} {v : ValidatorSetEntry}
    (h : V.get? id = some v) : weight V id = v.actualStake.toNat := by
  rw [weight, h]
  rfl

theorem weight_of_none {V : OrdMap Uint32 ValidatorSetEntry} {id : Uint32}
    (h : V.get? id = none) : weight V id = 0 := by
  rw [weight, h]
  rfl

/-- all stake of a validator set -/
def totalWeight (V : OrdMap Uint32 ValidatorSetEntry) : Nat := ∑ id ∈ V.keys.toFinset, weight V id

theorem totalWeight_eq (V : OrdMap Uint32 ValidatorSetEntry) :
    totalWeight V = stakeSum V.values := by
  rw [totalWeight, List.sum_toFinset _ V.keys_nodup, stakeSum]
  exact congrArg List.sum (V.map_keys _ _ (fun id v h => weight_of_get? h))

/-! ## the validator list -/

theorem stakeSum_cons (v : ValidatorSetEntry) (vs : List ValidatorSetEntry) :
    stakeSum (v :: vs) = v.actualStake.toNat + stakeSum vs := by
  rw [stakeSum, List.map_cons, List.sum_cons]
  rfl

/-- the sum that a fold of saturating additions gives -/
theorem toNat_foldl_satAdd (vs : List ValidatorSetEntry) (acc : Uint64) :
    (vs.foldl (fun total v => satAdd total v.actualStake) acc).toNat
      = min (acc.toNat + stakeSum vs) (2^64 - 1) := by
  induction vs generalizing acc with
  | nil =>
    have hacc := acc.isLt
    show acc.toNat = min (acc.toNat + 0) _
    omega
  | cons v vs ih =>
    rw [List.foldl_cons, ih, toNat_satAdd, stakeSum_cons]
    omega

theorem foldl_satAdd (vs : List ValidatorSetEntry) (acc : Uint64)
    (h : acc.toNat + stakeSum vs ≤ 2^64 - 1) :
    (vs.foldl (fun total v => satAdd total v.actualStake) acc).toNat = acc.toNat + stakeSum vs := by
  rw [toNat_foldl_satAdd, Nat.min_eq_left h]

theorem stakeSum_perm {vs ws : List ValidatorSetEntry} (h : vs.Perm ws) :
    stakeSum vs = stakeSum ws := (h.map _).sum_eq

/-- what `new` collects: the listed validators, each under its own id -/
theorem collectValidators_members {vs : List ValidatorSetEntry}
    {V V' : OrdMap Uint32 ValidatorSetEntry} {total total' : Uint64}
    (h : collectValidators vs V total = .ok (V', total'))
    (hid : ∀ id v, V.get? id = some v → v.validatorId = id) :
    (∀ id v, V'.get? id = some v → v.validatorId = id) ∧ V'.values.Perm (vs ++ V.values)
      ∧ total' = vs.foldl (fun total v => satAdd total v.actualStake) total := by
  induction vs generalizing V total with
  | nil =>
    cases h
    exact ⟨hid, List.Perm.refl _, rfl⟩
  | cons v vs ih =>
    unfold collectValidators at h
    split_ifs at h with hc
    have hnone : V.get? v.validatorId = none := by
      cases hg : V.get? v.validatorId with
      | none => rfl
      | some w => exact absurd (OrdMap.contains_iff.mpr ⟨w, hg⟩) hc
    have hperm : (V.insert v.validatorId v).values.Perm (v :: V.values) :=
      (OrdMap.perm_insert v hnone).map Prod.snd
    have hid' : ∀ id w, (V.insert v.validatorId v).get? id = some w → w.validatorId = id := by
      intro id w hw
      rw [OrdMap.get?_insert] at hw
      split_ifs at hw with he
      · cases hw
        exact he.symm
      · exact hid id w hw
    obtain ⟨hids, hmembers, htotal⟩ := ih h hid'
    refine ⟨hids, hmembers.trans ?_, htotal⟩
    exact (hperm.append_left vs).trans List.perm_middle

/-- with their total, where nothing saturates -/
theorem collectValidators_spec {vs : List ValidatorSetEntry}
    {V V' : OrdMap Uint32 ValidatorSetEntry} {total total' : Uint64}
    (h : collectValidators vs V total = .ok (V', total'))
    (hid : ∀ id v, V.get? id = some v → v.validatorId = id)
    (htot : total.toNat = stakeSum V.values)
    (hsum : stakeSum V.values + stakeSum vs ≤ 2^64 - 1) :
    (∀ id v, V'.get? id = some v → v.validatorId = id) ∧ total'.toNat = stakeSum V'.values
      ∧ V'.values.Perm (vs ++ V.values) := by
  obtain ⟨hids, hmembers, htotal⟩ := collectValidators_members h hid
  refine ⟨hids, ?_, hmembers⟩
  have happend : stakeSum (vs ++ V.values) = stakeSum vs + stakeSum V.values := by
    rw [stakeSum, List.map_append, List.sum_append]
    rfl
  rw [htotal, foldl_satAdd vs total (by omega), stakeSum_perm hmembers, happend]
  omega

/-- validators of different ids are all collected -/
theorem collectValidators_ok {vs : List ValidatorSetEntry} {V : OrdMap Uint32 ValidatorSetEntry}
    {total : Uint64} (hnodup : (vs.map (·.validatorId)).Nodup)
    (hnew : ∀ v ∈ vs, V.get? v.validatorId = none) :
    ∃ V' total', collectValidators vs V total = .ok (V', total') := by
  induction vs generalizing V total with
  | nil => exact ⟨V, total, rfl⟩
  | cons v vs ih =>
    rw [List.map_cons, List.nodup_cons] at hnodup
    obtain ⟨hv, hvs⟩ := List.forall_mem_cons.mp hnew
    unfold collectValidators
    rw [if_neg]
    · refine ih hnodup.2 fun w hw => ?_
      rw [OrdMap.get?_insert_of_ne, hvs w hw]
      exact fun heq => hnodup.1 (heq ▸ List.mem_map_of_mem hw)
    · intro hc
      obtain ⟨w, hw⟩ := OrdMap.contains_iff.mp hc
      rw [hv] at hw
      cases hw

/-! ## buckets -/

/-- the stake the engine counts for a bucket of votes -/
def tallyStake (V : OrdMap Uint32 ValidatorSetEntry) (m : OrdMap Uint32 ConsensusVote) : Uint64 :=
  (m.keys.filterMap V.get?).foldl (fun total v => satAdd total v.actualStake) 0

theorem voteStake_eq (e : ConsensusEngine) (phase : VotePhase) :
    e.voteStake phase = tallyStake e.validators (e.bucket phase) := rfl

theorem stakeSum_filterMap (V : OrdMap Uint32 ValidatorSetEntry) (ids : List Uint32) :
    stakeSum (ids.filterMap V.get?) = (ids.map (weight V)).sum := by
  induction ids with
  | nil => rfl
  | cons id ids ih =>
    rw [List.map_cons, List.sum_cons, ← ih]
    cases hg : V.get? id with
    | none => rw [List.filterMap_cons_none hg, weight_of_none hg, Nat.zero_add]
    | some v => rw [List.filterMap_cons_some hg, weight_of_get? hg, stakeSum_cons]

/-- a duplicate-free list of ids holds at most the whole stake -/
theorem sum_weight_le (V : OrdMap Uint32 ValidatorSetEntry) {ids : List Uint32}
    (hnd : ids.Nodup) : (ids.map (weight V)).sum ≤ totalWeight V := by
  rw [← List.sum_toFinset _ hnd]
  apply sum_le_sum_of_ne_zero
  intro id _ hne
  cases hg : V.get? id with
  | none => exact absurd (weight_of_none hg) hne
  | some v => exact List.mem_toFinset.mpr (OrdMap.mem_keys_iff.mpr ⟨v, hg⟩)

theorem toNat_tallyStake (V : OrdMap Uint32 ValidatorSetEntry) (m : OrdMap Uint32 ConsensusVote) :
    (tallyStake V m).toNat = min (∑ id ∈ m.keys.toFinset, weight V id) (2^64 - 1) := by
  rw [tallyStake, toNat_foldl_satAdd, stakeSum_filterMap, List.sum_toFinset _ m.keys_nodup]
  congr 1
  exact Nat.zero_add _

theorem tallyStake_eq {V : OrdMap Uint32 ValidatorSetEntry} (hV : totalWeight V ≤ 2^64 - 1)
    (m : OrdMap Uint32 ConsensusVote) :
    (tallyStake V m).toNat = ∑ id ∈ m.keys.toFinset, weight V id := by
  have hle := sum_weight_le V m.keys_nodup
  rw [← List.sum_toFinset _ m.keys_nodup] at hle
  rw [toNat_tallyStake, Nat.min_eq_left (hle.trans hV)]

/-- a bucket of members that passes the two-thirds test is a quorum -/
theorem isQuorum_of_tally {V : OrdMap Uint32 ValidatorSetEntry} (hV : totalWeight V ≤ 2^64 - 1)
    {m : OrdMap Uint32 ConsensusVote} (hmem : ∀ id ∈ m.keys, id ∈ V.keys)
    (hq : 2 * totalWeight V ≤ 3 * (tallyStake V m).toNat) :
    Quorum.IsQuorum (weight V) V.keys.toFinset m.keys.toFinset := by
  rw [tallyStake_eq hV] at hq
  exact ⟨fun id hid => List.mem_toFinset.mpr (hmem id (List.mem_toFinset.mp hid)), hq⟩

/-- the stake of the listed validators with an id in `ids` -/
def stakeOfIds (vs : List ValidatorSetEntry) (ids : List Uint32) : Nat :=
  stakeSum (vs.filter (fun v => v.validatorId ∈ ids))

theorem stakeOfIds_eq_sum (vs : List ValidatorSetEntry) (ids : List Uint32) :
    stakeOfIds vs ids
      = (vs.map (fun v => if v.validatorId ∈ ids then v.actualStake.toNat else 0)).sum := by
  induction vs with
  | nil => rfl
  | cons v vs ih =>
    rw [List.map_cons, List.sum_cons, ← ih]
    by_cases h : v.validatorId ∈ ids
    · rw [if_pos h, stakeOfIds, List.filter_cons_of_pos (by simpa using h), stakeSum_cons]
      rfl
    · rw [if_neg h, stakeOfIds, List.filter_cons_of_neg (by simpa using h), Nat.zero_add]
      rfl

/-- over the set collected from a list, ids weigh what the list says -/
theorem sum_weight_eq {V : OrdMap Uint32 ValidatorSetEntry} {vs : List ValidatorSetEntry}
    (hid : ∀ id v, V.get? id = some v → v.validatorId = id) (hperm : V.values.Perm vs)
    (ids : List Uint32) : ∑ id ∈ ids.toFinset, weight V id = stakeOfIds vs ids := by
  have hsub : ∑ id ∈ ids.toFinset, weight V id
      = ∑ id ∈ V.keys.toFinset with id ∈ ids, weight V id := by
    refine (sum_subset_zero_on_sdiff ?_ ?_ (fun _ _ => rfl)).symm
    · intro id hmem
      exact List.mem_toFinset.mpr (mem_filter.mp hmem).2
    · intro id hmem
      obtain ⟨h1, h2⟩ := mem_sdiff.mp hmem
      cases hg : V.get? id with
      | none => exact weight_of_none hg
      | some v =>
        have hk : id ∈ V.keys.toFinset :=
          List.mem_toFinset.mpr (OrdMap.mem_keys_iff.mpr ⟨v, hg⟩)
        exact absurd (mem_filter.mpr ⟨hk, List.mem_toFinset.mp h1⟩) h2
  have hlist : (V.keys.map (fun id => if id ∈ ids then weight V id else 0)).sum
      = (V.values.map (fun v => if v.validatorId ∈ ids then v.actualStake.toNat else 0)).sum := by
    refine congrArg List.sum (V.map_keys _ _ (fun id v h => ?_))
    rw [hid id v h, weight_of_get? h]
  rw [hsub, sum_filter, List.sum_toFinset _ V.keys_nodup, hlist, (hperm.map _).sum_eq,
    stakeOfIds_eq_sum]

end Onx.Consensus
