import Mathlib.Algebra.Order.Ring.Int
import Mathlib.Tactic.Ring

/-!
# Integers in words

A word holds an integer modulo a power of two.

* `InRange w x`          `x` is a signed integer of `w` bits;
* `inRange_bmod`         the signed integer that a word of `w` bits holds is one;
* `bmod_eq_self_iff`     an integer is its own remainder if and only if it is in range;
* `ofInt_eq_iff`         when two integers have the same word;
* `bmod_eq_bmod_iff`     and when their low bits are the same.
-/

namespace TwosComplement

/-- a signed integer of `w` bits -/
def InRange (w : Nat) (x : Int) : Prop := -2^(w - 1) ≤ x ∧ x < 2^(w - 1)

instance (w : Nat) (x : Int) : Decidable (InRange w x) :=
  inferInstanceAs (Decidable (_ ∧ _))

section
variable {v w : Nat} {x y : Int}

theorem two_pow_double (hw : 0 < w) : (2 : Int)^w = 2 * 2^(w - 1) := by
  obtain ⟨n, rfl⟩ := Nat.exists_eq_succ_of_ne_zero hw.ne'
  rw [Nat.succ_sub_one, pow_succ]
  ring

theorem inRange_bmod (hw : 0 < w) (x : Int) : InRange w (x.bmod (2^w)) := by
  have hdouble := two_pow_double hw
  have hpow : ((2^w : Nat) : Int) = 2^w := by push_cast; rfl
  have hpos : 0 < 2^w := Nat.two_pow_pos w
  have hle := Int.le_bmod (x := x) hpos
  have hlt := Int.bmod_lt (x := x) hpos
  rw [hpow] at hle hlt
  unfold InRange
  omega

theorem bmod_eq_self_iff (hw : 0 < w) : x.bmod (2^w) = x ↔ InRange w x := by
  constructor
  · intro h
    rw [← h]
    exact inRange_bmod hw x
  · rintro ⟨hle, hlt⟩
    have hdouble := two_pow_double hw
    have hpow : ((2^w : Nat) : Int) = 2^w := by push_cast; rfl
    refine Int.bmod_eq_of_le ?_ ?_ <;> rw [hpow] <;> omega

theorem bmod_eq_bmod_iff : x.bmod (2^w) = y.bmod (2^w) ↔ x % 2^w = y % 2^w := by
  have hpow : ((2^w : Nat) : Int) = 2^w := by push_cast; rfl
  rw [← hpow]
  constructor
  · intro h
    rw [← Int.bmod_emod (x := x), ← Int.bmod_emod (x := y), h]
  · intro h
    rw [← Int.emod_bmod x, ← Int.emod_bmod y, h]

/-- **Two integers have the same word** if and only if they are congruent. -/
theorem ofInt_eq_iff : BitVec.ofInt w x = BitVec.ofInt w y ↔ x.bmod (2^w) = y.bmod (2^w) := by
  rw [← BitVec.toInt_inj, BitVec.toInt_ofInt, BitVec.toInt_ofInt]

/-- the low bits of the word of an integer are its own word -/
theorem setWidth_ofInt (h : v ≤ w) (x : Int) :
    (BitVec.ofInt w x).setWidth v = BitVec.ofInt v x := by
  have hdvd : ((2^v : Nat) : Int) ∣ ((2^w : Nat) : Int) :=
    Int.natCast_dvd_natCast.mpr (Nat.pow_dvd_pow 2 h)
  have hpow : ((2^v : Nat) : Int) = 2^v := by push_cast; rfl
  refine BitVec.eq_of_toNat_eq ?_
  rw [BitVec.toNat_setWidth, BitVec.toNat_ofInt, BitVec.toNat_ofInt]
  have hnonneg : 0 ≤ x % ((2^w : Nat) : Int) :=
    Int.emod_nonneg _ (by exact_mod_cast (Nat.two_pow_pos w).ne')
  have hlow : (x % ((2^w : Nat) : Int)) % ((2^v : Nat) : Int) = x % ((2^v : Nat) : Int) :=
    Int.emod_emod_of_dvd x hdvd
  rw [← hlow, Int.toNat_emod hnonneg (Int.natCast_nonneg _), Int.toNat_natCast]

/-- the signed integer in the low bits of a word -/
theorem toInt_setWidth_ofInt (h : v ≤ w) (x : Int) :
    ((BitVec.ofInt w x).setWidth v).toInt = x.bmod (2^v) := by
  rw [setWidth_ofInt h, BitVec.toInt_ofInt]

/-- congruences modulo a power of two go down to the smaller powers -/
theorem emod_eq_of_le (h : v ≤ w) (hxy : x % 2^w = y % 2^w) : x % 2^v = y % 2^v := by
  have hdvd : (2 : Int)^v ∣ 2^w := pow_dvd_pow 2 h
  rw [← Int.emod_emod_of_dvd x hdvd, ← Int.emod_emod_of_dvd y hdvd, hxy]

theorem bmod_emod_of_le (h : v ≤ w) (x : Int) : x.bmod (2^w) % 2^v = x % 2^v := by
  refine emod_eq_of_le h (bmod_eq_bmod_iff.mp ?_)
  exact Int.bmod_bmod

/-- **Congruent integers in range are the same.** -/
theorem eq_of_inRange (hw : 0 < w) (hx : InRange w x) (hy : InRange w y)
    (h : x % 2^w = y % 2^w) : x = y := by
  rw [← (bmod_eq_self_iff hw).mpr hx, ← (bmod_eq_self_iff hw).mpr hy]
  exact bmod_eq_bmod_iff.mpr h

theorem InRange.mono (h : v ≤ w) (hx : InRange v x) : InRange w x := by
  have hpow : (2 : Int)^(v - 1) ≤ 2^(w - 1) := pow_le_pow_right₀ (by decide) (by omega)
  obtain ⟨hle, hlt⟩ := hx
  exact ⟨by omega, by omega⟩

end

end TwosComplement
