import Onx.Lib.KeySort
import Onx.Lib.OrdMap
import Onx.Lib.Shares
import Onx.Lib.Slices
import Onx.Primitives
import Mathlib.Algebra.Order.BigOperators.Group.List
import Mathlib.Data.List.Forall2

/-!
# The rewards of an epoch

Inflation over the stake of the validators, shared out in proportion to their stakes; what the
shares leave goes to the validators of the least ids, a nanocoin each.

* `distributeEpochRewards`        the checks, the shares and the rest, with every sum that can
                                  overflow;
* `shares_ok`                     the shares leave less than a nanocoin for each validator;
* `rewards_exact`                 **the rewards add up to the inflation**, within a nanocoin of the
                                  exact shares, whatever the order of the validators;
* `more_than_share`               a validator with a nanocoin more than a whole share.
-/

namespace Onx.Economics
open Checked

inductive EconomicsError where
  | zeroDenominator
  | invalidValidatorStake
  | duplicateValidator
deriving DecidableEq

abbrev EconomicsRun := Run EconomicsError

structure ValidatorStake where
  validatorId : Uint32
  stakeNanos : Uint128
deriving DecidableEq

structure ValidatorReward where
  validatorId : Uint32
  rewardNanos : Uint128
deriving DecidableEq

/-- 1.75% -/
def ANNUAL_INFLATION_RATE_BPS : Uint64 := 175

def calculateEpochInflationReward (totalStakeNanos : Uint128) (epochsPerYear : Uint64) :
    EconomicsRun Uint128 :=
  if epochsPerYear = 0 then throw .zeroDenominator
  else do
    let product ← wordMul totalStakeNanos (ANNUAL_INFLATION_RATE_BPS.setWidth 128)
    let annualReward := product / 10000
    pure (annualReward / epochsPerYear.setWidth 128)

/-- `sort_by_key`, which is stable -/
def sortValidators (validators : List ValidatorStake) : List ValidatorStake :=
  validators.insertionSort (fun left right => left.validatorId ≤ right.validatorId)

/-- the loop over the sorted validators, with the ids before them and their stake -/
def checkValidators : List ValidatorStake → List Uint32 → Uint128 → Except EconomicsError Uint128
  | [], _, totalStake => .ok totalStake
  | validator :: rest, ids, totalStake =>
    if validator.stakeNanos = 0 then .error .invalidValidatorStake
    else if ids.contains validator.validatorId then .error .duplicateValidator
    else checkValidators rest (validator.validatorId :: ids) (satAdd totalStake validator.stakeNanos)

/-- the share of a validator, rounded down -/
def shareOf (totalReward totalStake : Uint128) (validator : ValidatorStake) : ValidatorReward :=
  ⟨validator.validatorId, satMul totalReward validator.stakeNanos / totalStake⟩

/-- the loop that adds one to the first `n` rewards -/
def addRemainder : Nat → List ValidatorReward → Option (List ValidatorReward)
  | 0, rewards => some rewards
  | _ + 1, [] => some []
  | n + 1, reward :: rest => do
    let rewardNanos ← wordAdd reward.rewardNanos 1
    let rest ← addRemainder n rest
    some ({ reward with rewardNanos } :: rest)

def distributeEpochRewards (validators : List ValidatorStake) (epochsPerYear : Uint64) :
    EconomicsRun (List ValidatorReward) := do
  let validators := sortValidators validators
  let totalStake ← Run.ofExcept id (checkValidators validators [] 0)
  if totalStake = 0 then throw .invalidValidatorStake
  else
    let totalReward ← calculateEpochInflationReward totalStake epochsPerYear
    let rewards := validators.map (shareOf totalReward totalStake)
    let allocated ← sumWords (rewards.map (·.rewardNanos)) 0
    let remainder ← wordSub totalReward allocated
    addRemainder (remainder.setWidth 64).toNat rewards

/-! ## the checks -/

def stakeSum (validators : List ValidatorStake) : Nat :=
  (validators.map (·.stakeNanos.toNat)).sum

section
variable {validators : List ValidatorStake}

theorem stakeSum_sort : stakeSum (sortValidators validators) = stakeSum validators :=
  ((List.perm_insertionSort _ validators).map _).sum_eq

/-- validators that pass have ids of their own, and their stake is added up -/
theorem checkValidators_ok {ids : List Uint32} {acc total : Uint128}
    (h : checkValidators validators ids acc = .ok total) :
    (validators.map (·.validatorId)).Nodup ∧ (∀ v ∈ validators, v.validatorId ∉ ids)
      ∧ (acc.toNat + stakeSum validators < 2^128 → total.toNat = acc.toNat + stakeSum validators) := by
  induction validators generalizing ids acc with
  | nil =>
    cases h
    exact ⟨List.nodup_nil, nofun, fun _ => rfl⟩
  | cons v rest ih =>
    unfold checkValidators at h
    split_ifs at h with hstake hseen
    obtain ⟨hnodup, hnew, htotal⟩ := ih h
    have hsum : stakeSum (v :: rest) = v.stakeNanos.toNat + stakeSum rest := rfl
    refine ⟨List.nodup_cons.mpr ⟨fun hmem => ?_, hnodup⟩,
      List.forall_mem_cons.mpr ⟨fun hmem => hseen (List.contains_iff_mem.mpr hmem), fun w hw hmem => ?_⟩, fun hlt => ?_⟩
    · obtain ⟨w, hw, heq⟩ := List.mem_map.mp hmem
      exact hnew w hw (heq ▸ List.mem_cons_self)
    · exact hnew w hw (List.mem_cons_of_mem _ hmem)
    · have hadd : (satAdd acc v.stakeNanos).toNat = acc.toNat + v.stakeNanos.toNat :=
        toNat_satAdd_of_le (by omega)
      rw [htotal (by omega), hadd]
      omega

/-- as many validators as ids at most -/
theorem length_le_of_nodup (h : (validators.map (·.validatorId)).Nodup) :
    validators.length ≤ 2^32 := by
  have hle := BitVec.length_le_of_nodup h
  rwa [List.length_map] at hle

/-! ## the reward of an epoch -/

def epochReward (total : Nat) (epochsPerYear : Uint64) : Nat :=
  total * 175 / 10000 / epochsPerYear.toNat

theorem calculateEpochInflationReward_ok {total : Uint128} {epochsPerYear : Uint64}
    (hne : epochsPerYear ≠ 0) (h : total.toNat * 175 < 2^128) :
    ∃ reward, calculateEpochInflationReward total epochsPerYear = pure reward
      ∧ reward.toNat = epochReward total.toNat epochsPerYear := by
  have hrate : (ANNUAL_INFLATION_RATE_BPS.setWidth 128).toNat = 175 := rfl
  have hepochs : (epochsPerYear.setWidth 128).toNat = epochsPerYear.toNat := by
    rw [BitVec.toNat_setWidth]
    exact Nat.mod_eq_of_lt (epochsPerYear.isLt.trans (by decide))
  unfold calculateEpochInflationReward wordMul
  rw [if_neg hne, hrate, if_pos h]
  refine ⟨_, rfl, ?_⟩
  rw [BitVec.toNat_udiv, BitVec.toNat_udiv, BitVec.toNat_mul, hrate, hepochs, Nat.mod_eq_of_lt h]
  rfl

/-! ## the shares -/

/-- a nanocoin more for the first rewards -/
theorem addRemainder_ok (n : Nat) {rewards : List ValidatorReward}
    (h : ∀ r ∈ rewards, r.rewardNanos.toNat + 1 < 2^128) :
    ∃ paid, addRemainder n rewards = some paid
      ∧ List.Forall₂ (fun r p => p.validatorId = r.validatorId
        ∧ (p.rewardNanos.toNat = r.rewardNanos.toNat
          ∨ p.rewardNanos.toNat = r.rewardNanos.toNat + 1)) rewards paid
      ∧ (paid.map (·.rewardNanos.toNat)).sum
        = (rewards.map (·.rewardNanos.toNat)).sum + min n rewards.length := by
  induction rewards generalizing n with
  | nil =>
    refine ⟨[], ?_, .nil, by simp⟩
    cases n <;> rfl
  | cons r rest ih =>
    obtain ⟨hr, hrest⟩ := List.forall_mem_cons.mp h
    cases n with
    | zero =>
      refine ⟨r :: rest, rfl, ?_, by simp⟩
      exact List.forall₂_same.mpr fun _ _ => ⟨rfl, .inl rfl⟩
    | succ n =>
      obtain ⟨paid, hpaid, hall, hsum⟩ := ih n hrest
      have hadd : (r.rewardNanos + 1).toNat = r.rewardNanos.toNat + 1 := by
        rw [BitVec.toNat_add]
        exact Nat.mod_eq_of_lt hr
      refine ⟨⟨r.validatorId, r.rewardNanos + 1⟩ :: paid, ?_, .cons ⟨rfl, .inr hadd⟩ hall, ?_⟩
      · unfold addRemainder wordAdd
        rw [show (1 : Uint128).toNat = 1 from rfl, if_pos hr, hpaid]
        rfl
      · simp only [List.map_cons, List.sum_cons, List.length_cons, hsum, hadd]
        omega

/-! ## what is distributed -/

/-- a validator and its reward: the share of its stake rounded down, or a nanocoin more -/
structure Paid (amount total : Nat) (v : ValidatorStake) (r : ValidatorReward) : Prop where
  validatorId_eq : r.validatorId = v.validatorId
  rounded : r.rewardNanos.toNat = Shares.floor amount total v.stakeNanos.toNat
    ∨ r.rewardNanos.toNat = Shares.floor amount total v.stakeNanos.toNat + 1
  within : |(r.rewardNanos.toNat : ℚ) - Shares.exact amount total v.stakeNanos.toNat| ≤ 1
  within_of_rounded : ¬ total ∣ amount * v.stakeNanos.toNat →
    |(r.rewardNanos.toNat : ℚ) - Shares.exact amount total v.stakeNanos.toNat| < 1

theorem paid_of_rounded {amount total : Nat} {v : ValidatorStake} {r : ValidatorReward}
    (htotal : 0 < total) (hid : r.validatorId = v.validatorId)
    (h : r.rewardNanos.toNat = Shares.floor amount total v.stakeNanos.toNat
      ∨ r.rewardNanos.toNat = Shares.floor amount total v.stakeNanos.toNat + 1) :
    Paid amount total v r := by
  have hle := @Shares.floor_le_exact amount total v.stakeNanos.toNat
  have hlt := Shares.exact_lt_floor amount htotal v.stakeNanos.toNat
  refine ⟨hid, h, ?_, fun hdvd => ?_⟩
  · rw [abs_le]
    rcases h with heq | heq
    · rw [heq]
      exact ⟨by linarith, by linarith⟩
    · rw [heq]
      push_cast
      exact ⟨by linarith, by linarith⟩
  · have hless := Shares.floor_lt_exact amount htotal hdvd
    rw [abs_lt]
    rcases h with heq | heq
    · rw [heq]
      exact ⟨by linarith, by linarith⟩
    · rw [heq]
      push_cast
      exact ⟨by linarith, by linarith⟩

/-- the rewards of all validators -/
structure Distributed (validators : List ValidatorStake) (amount : Nat)
    (rewards : List ValidatorReward) : Prop where
  sum_eq : (rewards.map (·.rewardNanos.toNat)).sum = amount
  paid : ∃ order, order.Perm validators ∧ order.Pairwise (fun v w => v.validatorId < w.validatorId)
    ∧ List.Forall₂ (Paid amount (stakeSum validators)) order rewards

theorem toNat_shareOf {amount total : Uint128} {v : ValidatorStake}
    (h : amount.toNat * v.stakeNanos.toNat < 2^128) :
    (shareOf amount total v).rewardNanos.toNat
      = Shares.floor amount.toNat total.toNat v.stakeNanos.toNat := by
  unfold shareOf
  rw [BitVec.toNat_udiv, toNat_satMul_of_lt h]
  rfl

/-- the shares and what is added to them -/
theorem shares_ok {amount total : Uint128} (htotal : total.toNat = stakeSum validators)
    (hpos : 0 < total.toNat) (hlen : validators.length ≤ 2^32) (hsmall : amount.toNat + 1 < 2^128)
    (hshare : ∀ v ∈ validators, amount.toNat * v.stakeNanos.toNat < 2^128) :
    ∃ allocated remainder paid,
      sumWords ((validators.map (shareOf amount total)).map (·.rewardNanos)) 0 = some allocated
      ∧ wordSub amount allocated = some remainder
      ∧ addRemainder (remainder.setWidth 64).toNat (validators.map (shareOf amount total)) = some paid
      ∧ (paid.map (·.rewardNanos.toNat)).sum = amount.toNat
      ∧ List.Forall₂ (Paid amount.toNat (stakeSum validators)) validators paid := by
  have hfloors : (validators.map (shareOf amount total)).map (·.rewardNanos.toNat)
      = (validators.map (·.stakeNanos.toNat)).map (Shares.floor amount.toNat total.toNat) := by
    rw [List.map_map, List.map_map]
    exact List.map_congr_left fun v hv => toNat_shareOf (hshare v hv)
  have hle : ((validators.map (shareOf amount total)).map (·.rewardNanos.toNat)).sum ≤ amount.toNat := by
    rw [hfloors]
    exact Shares.sum_floor_le amount.toNat hpos htotal.symm
  have hrest : amount.toNat - ((validators.map (shareOf amount total)).map
      (·.rewardNanos.toNat)).sum < validators.length := by
    have hlt := Shares.rest_lt amount.toNat hpos htotal.symm
    rwa [← hfloors, List.length_map] at hlt
  obtain ⟨allocated, hallocated, hsum⟩ :=
    @sumWords_eq _ ((validators.map (shareOf amount total)).map (·.rewardNanos)) 0 (by
      rw [List.map_map]
      show 0 + ((validators.map (shareOf amount total)).map (·.rewardNanos.toNat)).sum < 2^128
      omega)
  have hsum' : allocated.toNat
      = ((validators.map (shareOf amount total)).map (·.rewardNanos.toNat)).sum := by
    rw [hsum, List.map_map]
    exact Nat.zero_add _
  have hsub : (amount - allocated).toNat = amount.toNat - allocated.toNat :=
    BitVec.toNat_sub_of_le (BitVec.le_def.mpr (by omega))
  have hcount : ((amount - allocated).setWidth 64).toNat = amount.toNat - allocated.toNat := by
    rw [BitVec.toNat_setWidth, hsub]
    exact Nat.mod_eq_of_lt (by omega)
  have hbound : ∀ r ∈ validators.map (shareOf amount total), r.rewardNanos.toNat + 1 < 2^128 := by
    intro r hr
    have hmem : r.rewardNanos.toNat ∈ (validators.map (shareOf amount total)).map
        (·.rewardNanos.toNat) := List.mem_map.mpr ⟨r, hr, rfl⟩
    have hone := List.single_le_sum (fun _ _ => Nat.zero_le _) _ hmem
    omega
  obtain ⟨paid, hpaid, hall, htotalPaid⟩ := addRemainder_ok
    ((amount - allocated).setWidth 64).toNat hbound
  refine ⟨allocated, amount - allocated, paid, hallocated, ?_, hpaid, ?_, ?_⟩
  · unfold wordSub
    rw [if_pos (BitVec.le_def.mpr (by omega))]
  · rw [htotalPaid, hcount, List.length_map]
    omega
  · rw [List.forall₂_map_left_iff] at hall
    refine ((List.forall₂_and_left _ _).mpr ⟨fun _ hv => hv, hall⟩).imp ?_
    intro v r ⟨hv, hid, hround⟩
    rw [toNat_shareOf (hshare v hv), htotal] at hround
    exact paid_of_rounded (htotal ▸ hpos) hid hround

variable {epochsPerYear : Uint64}

theorem sorted_of_nodup (h : ((sortValidators validators).map (·.validatorId)).Nodup) :
    (sortValidators validators).Pairwise (fun v w => v.validatorId < w.validatorId) := by
  have hne := List.pairwise_map.mp h
  have hle := @KeySort.pairwise_sort _ _ _ ValidatorStake.validatorId validators
  exact (hne.and hle).imp fun ⟨hne, hle⟩ => lt_of_le_of_ne hle hne

theorem distributeEpochRewards_cases (hrate : stakeSum validators * 175 < 2^128)
    (hshare : ∀ v ∈ validators,
      epochReward (stakeSum validators) epochsPerYear * v.stakeNanos.toNat < 2^128) :
    (∃ e, distributeEpochRewards validators epochsPerYear = throw e) ∨
    ∃ rewards amount, distributeEpochRewards validators epochsPerYear = pure rewards
      ∧ calculateEpochInflationReward (BitVec.ofNat 128 (stakeSum validators)) epochsPerYear
        = pure amount
      ∧ Distributed validators amount.toNat rewards := by
  unfold distributeEpochRewards
  dsimp only
  cases hcheck : checkValidators (sortValidators validators) [] 0 with
  | error e => exact .inl ⟨e, rfl⟩
  | ok total =>
    obtain ⟨hnodup, _, htotal⟩ := checkValidators_ok hcheck
    rw [stakeSum_sort] at htotal
    have hsum : total.toNat = stakeSum validators := by
      rw [htotal]
      · exact Nat.zero_add _
      · show 0 + stakeSum validators < 2^128
        omega
    simp only [Run.ofExcept, pure_bind]
    by_cases hzero : total = 0
    · rw [if_pos hzero]
      exact .inl ⟨_, rfl⟩
    by_cases hepochs : epochsPerYear = 0
    · rw [if_neg hzero, calculateEpochInflationReward, if_pos hepochs]
      exact .inl ⟨_, rfl⟩
    obtain ⟨amount, hamount, hnat⟩ := @calculateEpochInflationReward_ok total _ hepochs
      (hsum ▸ hrate)
    rw [hsum] at hnat
    have htotal' : BitVec.ofNat 128 (stakeSum validators) = total := by
      rw [← hsum, BitVec.ofNat_toNat, BitVec.setWidth_eq]
    have hpos : 0 < stakeSum validators := by
      rw [← hsum]
      exact Nat.pos_of_ne_zero fun h => hzero (BitVec.eq_of_toNat_eq h)
    have hlen : (sortValidators validators).length ≤ 2^32 := length_le_of_nodup hnodup
    have hsmall : amount.toNat + 1 < 2^128 := by
      rw [hnat]
      unfold epochReward
      have hdiv := Nat.div_le_self (stakeSum validators * 175 / 10000) epochsPerYear.toNat
      omega
    obtain ⟨allocated, remainder, paid, hallocated, hremainder, hpaid, hminted, hshares⟩ :=
      @shares_ok (sortValidators validators) amount total (by rw [hsum, stakeSum_sort])
        (by omega) hlen hsmall (fun v hv => hnat ▸ hshare v ((List.mem_insertionSort _).mp hv))
    rw [stakeSum_sort] at hshares
    refine .inr ⟨paid, amount, ?_, ?_, hminted, _, List.perm_insertionSort _ _, ?_, hshares⟩
    · rw [if_neg hzero, hamount]
      simp only [pure_bind, hallocated, hremainder, hpaid, Run.lift_some]
    · rw [htotal', hamount]
    · exact sorted_of_nodup hnodup

end

/-- **The rewards of an epoch.**  Where neither product leaves 128 bits nothing panics, the rewards
add up to the inflation, each is within a nanocoin of the exact share, and the order of the
validators does not matter. -/
theorem rewards_exact (validators : List ValidatorStake) (epochsPerYear : Uint64)
    (hrate : stakeSum validators * 175 < 2^128)
    (hshare : ∀ v ∈ validators,
      epochReward (stakeSum validators) epochsPerYear * v.stakeNanos.toNat < 2^128) :
    (distributeEpochRewards validators epochsPerYear).run ≠ none
    ∧ ∀ rewards, (distributeEpochRewards validators epochsPerYear).run = some (.ok rewards) →
      (∃ amount, (calculateEpochInflationReward (BitVec.ofNat 128 (stakeSum validators))
          epochsPerYear).run = some (.ok amount)
        ∧ Distributed validators amount.toNat rewards)
      ∧ ∀ validators', validators.Perm validators' →
        (distributeEpochRewards validators' epochsPerYear).run = some (.ok rewards) := by
  rcases distributeEpochRewards_cases hrate hshare with
    ⟨e, herror⟩ | ⟨paid, amount, hpaid, hamount, hdistributed⟩
  · rw [herror]
    exact ⟨nofun, nofun⟩
  · rw [hpaid]
    refine ⟨nofun, fun rewards h => ?_⟩
    obtain rfl : paid = rewards := Except.ok.inj (Option.some.inj h)
    refine ⟨⟨amount, congrArg ExceptT.run hamount, hdistributed⟩, fun validators' hperm => ?_⟩
    obtain ⟨order, horder, hsorted, _⟩ := hdistributed.paid
    have hnodup : (validators.map (·.validatorId)).Nodup := (horder.map _).nodup_iff.mp
      (List.pairwise_map.mpr (hsorted.imp fun hlt => ne_of_lt hlt))
    have hsort : sortValidators validators = sortValidators validators' :=
      KeySort.sort_congr (fun _ ha _ hb => List.inj_on_of_nodup_map hnodup ha hb) hperm
    unfold distributeEpochRewards at hpaid ⊢
    rw [← hsort, hpaid]
    rfl

/-- three validators with a stake of 10000 -/
def sampleStakes : List ValidatorStake := [⟨2, 3999⟩, ⟨0, 2000⟩, ⟨1, 4001⟩]

theorem rewards_exact_sample :
    ∃ amount, (calculateEpochInflationReward 10000 1).run = some (.ok amount)
      ∧ Distributed sampleStakes amount.toNat [⟨0, 36⟩, ⟨1, 70⟩, ⟨2, 69⟩] :=
  ((rewards_exact sampleStakes 1 (by decide) (by decide +kernel)).2 _ (by decide +kernel)).1

/-- products beyond 128 bits: the shares saturate, and the rewards are 512 of about 2^114 -/
example : (distributeEpochRewards [⟨0, 1 <<< 119⟩, ⟨1, 1 <<< 119⟩] 1).run
    = some (.ok [⟨0, 256⟩, ⟨1, 256⟩]) := by decide +kernel

/-- **A nanocoin more than a whole share.** -/
theorem more_than_share :
    (distributeEpochRewards sampleStakes 1).run = some (.ok [⟨0, 36⟩, ⟨1, 70⟩, ⟨2, 69⟩])
    ∧ ¬ ∀ validators epochsPerYear rewards, stakeSum validators < 2^128 →
      (distributeEpochRewards validators epochsPerYear).run = some (.ok rewards) →
      ∃ amount, (calculateEpochInflationReward (BitVec.ofNat 128 (stakeSum validators))
          epochsPerYear).run = some (.ok amount)
        ∧ ∃ order : List ValidatorStake, order.Perm validators
          ∧ List.Forall₂ (fun v r => r.validatorId = v.validatorId
            ∧ |(r.rewardNanos.toNat : ℚ)
              - Shares.exact amount.toNat (stakeSum validators) v.stakeNanos.toNat| < 1) order rewards := by
  have hrun : (distributeEpochRewards sampleStakes 1).run
      = some (.ok [⟨0, 36⟩, ⟨1, 70⟩, ⟨2, 69⟩]) := by decide +kernel
  refine ⟨hrun, fun h => ?_⟩
  obtain ⟨amount, hamount, order, hperm, hall⟩ := h sampleStakes 1 _ (by decide) hrun
  have h175 : (calculateEpochInflationReward (BitVec.ofNat 128 (stakeSum sampleStakes)) 1).run
      = some (.ok 175) := by decide +kernel
  obtain rfl : (175 : Uint128) = amount := Except.ok.inj (Option.some.inj (h175.symm.trans hamount))
  obtain ⟨v, rest, ⟨hid, hclose⟩, _, rfl⟩ := List.forall₂_cons_right_iff.mp hall
  have hmem : v ∈ sampleStakes := hperm.mem_iff.mp List.mem_cons_self
  have honly : ∀ w ∈ sampleStakes, (0 : Uint32) = w.validatorId → w = ⟨0, 2000⟩ := by decide
  rw [honly v hmem hid, show stakeSum sampleStakes = 10000 from rfl] at hclose
  have hexact : Shares.exact 175 10000 2000 = 35 := by norm_num [Shares.exact]
  rw [show (175 : Uint128).toNat = 175 from rfl, show (2000 : Uint128).toNat = 2000 from rfl,
    show (36 : Uint128).toNat = 36 from rfl, hexact] at hclose
  norm_num at hclose

end Onx.Economics
