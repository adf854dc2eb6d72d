import Mathlib.Algebra.Order.Field.Rat
import Mathlib.Data.Nat.Cast.Order.Field
import Mathlib.Tactic.Linarith
import Mathlib.Tactic.Ring

/-!
# Shares of an amount

An amount divided in proportion to weights, each share rounded down.

* `sum_floor_le`     the shares do not exceed the amount;
* `rest_lt`          what is left is less than one for each weight;
* `floor_le_exact`, `exact_lt_floor`   a share is less than one below the exact one.
-/

namespace Shares
variable (amount : Nat) {total : Nat}

/-- the share of a weight -/
def floor (amount total weight : Nat) : Nat := amount * weight / total

/-- the share before it is rounded -/
def exact (amount total weight : Nat) : ℚ := amount * weight / total

theorem total_mul_floor_le (weight : Nat) : total * floor amount total weight ≤ amount * weight :=
  Nat.mul_div_le _ _

theorem lt_total_mul_floor (h : 0 < total) (weight : Nat) :
    amount * weight < total * floor amount total weight + total := by
  unfold floor
  rw [← Nat.mul_succ]
  exact Nat.lt_mul_div_succ _ h

/-! ## all shares together -/

theorem total_mul_sum_le (weights : List Nat) :
    total * (weights.map (floor amount total)).sum ≤ amount * weights.sum := by
  induction weights with
  | nil => exact Nat.le_refl _
  | cons weight weights ih =>
    rw [List.map_cons, List.sum_cons, List.sum_cons, Nat.mul_add, Nat.mul_add]
    exact Nat.add_le_add (total_mul_floor_le amount weight) ih

theorem le_total_mul_sum (h : 0 < total) (weights : List Nat) :
    amount * weights.sum + weights.length
      ≤ total * ((weights.map (floor amount total)).sum + weights.length) := by
  induction weights with
  | nil => simp
  | cons weight weights ih =>
    have hhead := lt_total_mul_floor amount h weight
    simp only [List.map_cons, List.sum_cons, List.length_cons, Nat.mul_add] at ih ⊢
    omega

theorem sum_floor_le {weights : List Nat} (h : 0 < total) (hsum : weights.sum = total) :
    (weights.map (floor amount total)).sum ≤ amount := by
  have hle : total * (weights.map (floor amount total)).sum ≤ amount * weights.sum :=
    total_mul_sum_le amount weights
  rw [hsum, Nat.mul_comm amount] at hle
  exact Nat.le_of_mul_le_mul_left hle h

/-- **There are more weights than units left.** -/
theorem rest_lt {weights : List Nat} (h : 0 < total) (hsum : weights.sum = total) :
    amount - (weights.map (floor amount total)).sum < weights.length := by
  have hlen : 0 < weights.length := by
    by_contra hzero
    rw [List.length_eq_zero_iff.mp (Nat.eq_zero_of_not_pos hzero)] at hsum
    exact absurd hsum (Nat.ne_of_lt h)
  have hle := le_total_mul_sum amount h weights
  rw [hsum, Nat.mul_comm amount] at hle
  have hlt : amount < (weights.map (floor amount total)).sum + weights.length :=
    Nat.lt_of_mul_lt_mul_left (a:=total) (by omega)
  omega

/-! ## one share -/

theorem floor_le_exact (weight : Nat) :
    (floor amount total weight : ℚ) ≤ exact amount total weight := by
  unfold floor exact
  exact_mod_cast Nat.cast_div_le

theorem exact_lt_floor (h : 0 < total) (weight : Nat) :
    exact amount total weight < floor amount total weight + 1 := by
  have hlt := lt_total_mul_floor amount h weight
  unfold exact
  rw [div_lt_iff₀ (Nat.cast_pos.mpr h)]
  have hcast : ((amount * weight : Nat) : ℚ) < ((total * floor amount total weight + total : Nat) : ℚ) :=
    Nat.cast_lt.mpr hlt
  push_cast at hcast
  linarith

/-- a share that is rounded loses something -/
theorem floor_lt_exact (h : 0 < total) {weight : Nat} (hdvd : ¬ total ∣ amount * weight) :
    (floor amount total weight : ℚ) < exact amount total weight := by
  refine lt_of_le_of_ne (floor_le_exact amount weight) fun heq => hdvd ?_
  unfold exact at heq
  rw [eq_div_iff (Nat.cast_pos.mpr h).ne'] at heq
  refine ⟨floor amount total weight, ?_⟩
  rw [Nat.mul_comm total]
  exact_mod_cast heq.symm

end Shares
