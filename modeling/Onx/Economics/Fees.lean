import Mathlib.Data.List.Chain
import Onx.Economics.Rewards

/-!
# Fees

What an account pays for its bytes as logical time goes on, and how the fee of a transaction is split.

* `toNat_calculateStorageFee`   the fee of a span of time, rounded down and limited;
* `fee_split`                   two spans one after the other;
* `storage_fees`                **touching an account often saves it less than a nanocoin each time**, and
                                costs it nothing unless the limit is reached;
* `splitTransactionFee_iff`     both parts of a fee, and when there are none.
-/

namespace Onx.Economics
open Checked

/-- `saturating_sub` -/
def satSub {w : Nat} (a b : BitVec w) : BitVec w := if b ≤ a then a - b else 0

theorem toNat_satSub {w : Nat} (a b : BitVec w) : (satSub a b).toNat = a.toNat - b.toNat := by
  unfold satSub
  split_ifs with h
  · exact BitVec.toNat_sub_of_le h
  · have hlt : a.toNat < b.toNat := not_le.mp h
    show (BitVec.ofNat w 0).toNat = _
    rw [BitVec.toNat_ofNat, Nat.zero_mod]
    omega

theorem toNat_satMul {w : Nat} (a b : BitVec w) :
    (satMul a b).toNat = min (a.toNat * b.toNat) (2^w - 1) := by
  unfold satMul
  split_ifs with h
  · rw [BitVec.toNat_mul, Nat.mod_eq_of_lt h]
    omega
  · rw [BitVec.toNat_allOnes]
    omega

/-! ## storage -/

/-- nanocoins for a byte and a million of logical time -/
def STORAGE_FEE_RATE_PER_BYTE_PER_MLT : Uint128 := 10

def calculateStorageFee (byteCount lastTransLt newLt : Uint64) : Except EconomicsError Uint128 :=
  if newLt ≤ lastTransLt then .ok 0
  else
    let elapsedLt := newLt - lastTransLt
    .ok (satMul (satMul (byteCount.setWidth 128) (elapsedLt.setWidth 128))
      STORAGE_FEE_RATE_PER_BYTE_PER_MLT / 1000000)

/-- what an account is charged when it is touched at these times -/
def chargeAll (byteCount : Uint64) : Uint64 → List Uint64 → Except EconomicsError Nat
  | _, [] => .ok 0
  | lastTransLt, newLt :: rest => do
    let fee ← calculateStorageFee byteCount lastTransLt newLt
    let more ← chargeAll byteCount newLt rest
    .ok (fee.toNat + more)

section
variable {byteCount start mid stop : Uint64}

/-- bytes and logical time -/
def volume (byteCount start stop : Uint64) : Nat := byteCount.toNat * (stop.toNat - start.toNat)

theorem volume_lt : volume byteCount start stop < 2^64 * 2^64 := by
  refine Nat.mul_lt_mul'' byteCount.isLt ?_
  have := stop.isLt
  omega

theorem volume_add (hmid : start ≤ mid) (hstop : mid ≤ stop) :
    volume byteCount start stop = volume byteCount start mid + volume byteCount mid stop := by
  have hmid : start.toNat ≤ mid.toNat := hmid
  have hstop : mid.toNat ≤ stop.toNat := hstop
  unfold volume
  rw [← Nat.mul_add]
  congr 1
  omega

/-- **The fee of a span of time.**  The product of bytes and time does not overflow, that with the rate
may. -/
theorem toNat_calculateStorageFee (byteCount start stop : Uint64) :
    ∃ fee, calculateStorageFee byteCount start stop = .ok fee
      ∧ fee.toNat = min (volume byteCount start stop * 10) (2^128 - 1) / 1000000 := by
  unfold calculateStorageFee
  split_ifs with hle
  · have hle : stop.toNat ≤ start.toNat := hle
    have hzero : volume byteCount start stop = 0 := by
      rw [volume, Nat.sub_eq_zero_of_le hle, Nat.mul_zero]
    refine ⟨0, rfl, ?_⟩
    rw [hzero]
    rfl
  · have hlt : start.toNat < stop.toNat := not_le.mp hle
    have hproduct : byteCount.toNat * (stop - start).toNat = volume byteCount start stop := by
      rw [BitVec.toNat_sub_of_le (le_of_lt hlt), volume]
    have hbound := @volume_lt byteCount start stop
    have hinner : (satMul (byteCount.setWidth 128) ((stop - start).setWidth 128)).toNat
        = volume byteCount start stop := by
      rw [toNat_satMul, BitVec.toNat_setWidth_of_le (by decide), BitVec.toNat_setWidth_of_le (by decide),
        hproduct, min_eq_left (by omega)]
    have hrate : STORAGE_FEE_RATE_PER_BYTE_PER_MLT.toNat = 10 := rfl
    have hdivisor : (1000000 : Uint128).toNat = 1000000 := rfl
    refine ⟨_, rfl, ?_⟩
    rw [BitVec.toNat_udiv, toNat_satMul, hinner, hrate, hdivisor]

/-- **Two spans one after the other.** -/
theorem fee_split (hmid : start ≤ mid) (hstop : mid ≤ stop) {first second whole : Uint128}
    (hfirst : calculateStorageFee byteCount start mid = .ok first)
    (hsecond : calculateStorageFee byteCount mid stop = .ok second)
    (hwhole : calculateStorageFee byteCount start stop = .ok whole) :
    whole.toNat ≤ first.toNat + second.toNat + 1
      ∧ (volume byteCount start stop * 10 < 2^128 → first.toNat + second.toNat ≤ whole.toNat) := by
  obtain ⟨_, heq, h1⟩ := toNat_calculateStorageFee byteCount start mid
  cases heq.symm.trans hfirst
  obtain ⟨_, heq, h2⟩ := toNat_calculateStorageFee byteCount mid stop
  cases heq.symm.trans hsecond
  obtain ⟨_, heq, h3⟩ := toNat_calculateStorageFee byteCount start stop
  cases heq.symm.trans hwhole
  rw [h1, h2, h3, volume_add hmid hstop]
  constructor
  · omega
  · intro hfits
    omega

end

/-- **Touching an account often saves it less than a nanocoin each time.**  It is charged at most as
much as if it were left alone, unless the whole charge reaches the limit. -/
theorem storage_fees (byteCount start stop : Uint64) (times : List Uint64)
    (hsorted : List.IsChain (· ≤ ·) (start :: (times ++ [stop]))) :
    ∃ once many, calculateStorageFee byteCount start stop = .ok once
      ∧ chargeAll byteCount start (times ++ [stop]) = .ok many
      ∧ once.toNat ≤ many + times.length
      ∧ (volume byteCount start stop * 10 < 2^128 → many ≤ once.toNat) := by
  induction times generalizing start with
  | nil =>
    obtain ⟨once, honce, _⟩ := toNat_calculateStorageFee byteCount start stop
    have hcharge : chargeAll byteCount start [stop] = .ok once.toNat := by
      unfold chargeAll
      rw [honce]
      rfl
    exact ⟨once, once.toNat, honce, hcharge, Nat.le_refl _, fun _ => Nat.le_refl _⟩
  | cons mid times ih =>
    obtain ⟨hmid, hrest⟩ := List.isChain_cons_cons.mp hsorted
    obtain ⟨second, many, hsecond, hmany, hle, hge⟩ := ih mid hrest
    obtain ⟨first, hfirst, _⟩ := toNat_calculateStorageFee byteCount start mid
    obtain ⟨whole, hwhole, _⟩ := toNat_calculateStorageFee byteCount start stop
    have hstop : mid ≤ stop := hrest.rel_cons (List.mem_append_right _ List.mem_cons_self)
    obtain ⟨hupper, hlower⟩ := fee_split hmid hstop hfirst hsecond hwhole
    have hcharge : chargeAll byteCount start (mid :: times ++ [stop]) = .ok (first.toNat + many) := by
      rw [List.cons_append, chargeAll, hfirst]
      show (chargeAll byteCount mid (times ++ [stop]) >>= _) = _
      rw [hmany]
      rfl
    refine ⟨whole, _, hwhole, hcharge, ?_, fun hfits => ?_⟩
    · rw [List.length_cons]
      omega
    · have hpart : volume byteCount mid stop * 10 < 2^128 := by
        rw [volume_add hmid hstop] at hfits
        omega
      have := hge hpart
      have := hlower hfits
      omega

/-- a mebibyte that is touched twice on the way -/
theorem storage_fees_sample : ∃ once many, calculateStorageFee 1048576 0 1000003 = .ok once
    ∧ chargeAll 1048576 0 [7, 500000, 1000003] = .ok many
    ∧ once.toNat ≤ many + 2 ∧ (volume 1048576 0 1000003 * 10 < 2^128 → many ≤ once.toNat) :=
  storage_fees 1048576 0 1000003 [7, 500000] (by decide)

/-! ## transactions -/

def FEE_BURN_RATIO_PERCENT : Uint64 := 50

/-- what is burned, and what the validators get; none where the product overflows -/
def splitTransactionFee (totalFeeNanos : Uint128) : Option (Uint128 × Uint128) := do
  let product ← wordMul totalFeeNanos (FEE_BURN_RATIO_PERCENT.setWidth 128)
  let burnAmount := product / 100
  some (burnAmount, satSub totalFeeNanos burnAmount)

/-- **Both parts of a fee**: half each, and an odd nanocoin for the validators. -/
theorem splitTransactionFee_iff (fee burn reward : Uint128) :
    splitTransactionFee fee = some (burn, reward) ↔ fee.toNat * 50 < 2^128
      ∧ burn.toNat = fee.toNat / 2 ∧ reward.toNat = fee.toNat / 2 + fee.toNat % 2 := by
  have hratio : (FEE_BURN_RATIO_PERCENT.setWidth 128).toNat = 50 := rfl
  have hpercent : (100 : Uint128).toNat = 100 := rfl
  by_cases hfits : fee.toNat * 50 < 2^128
  · have hproduct : wordMul fee (FEE_BURN_RATIO_PERCENT.setWidth 128)
        = some (fee * FEE_BURN_RATIO_PERCENT.setWidth 128) := if_pos (hratio.symm ▸ hfits)
    have hburn : (fee * FEE_BURN_RATIO_PERCENT.setWidth 128 / 100).toNat = fee.toNat / 2 := by
      rw [BitVec.toNat_udiv, BitVec.toNat_mul, hratio, hpercent, Nat.mod_eq_of_lt hfits]
      omega
    have hsplit : splitTransactionFee fee = some (fee * FEE_BURN_RATIO_PERCENT.setWidth 128 / 100,
        satSub fee (fee * FEE_BURN_RATIO_PERCENT.setWidth 128 / 100)) := by
      rw [splitTransactionFee, hproduct]
      rfl
    rw [hsplit, Option.some.injEq, Prod.mk.injEq]
    constructor
    · rintro ⟨rfl, rfl⟩
      refine ⟨hfits, hburn, ?_⟩
      rw [toNat_satSub, hburn]
      omega
    · rintro ⟨_, hb, hr⟩
      refine ⟨BitVec.eq_of_toNat_eq (hburn.trans hb.symm), BitVec.eq_of_toNat_eq ?_⟩
      rw [toNat_satSub, hburn, hr]
      omega
  · have hnone : splitTransactionFee fee = none := by
      have hproduct : wordMul fee (FEE_BURN_RATIO_PERCENT.setWidth 128) = none :=
        if_neg (hratio.symm ▸ hfits)
      rw [splitTransactionFee, hproduct]
      rfl
    rw [hnone]
    exact iff_of_false nofun fun h => hfits h.1

end Onx.Economics
