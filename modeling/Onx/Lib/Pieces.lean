import Mathlib.Algebra.Order.Floor.Div
import Mathlib.Data.List.Basic

/-!
# Lists cut into pieces

`piece size pad xs i` is the `i`-th of the pieces of one size that `xs` is cut into; the last one is
filled up.  The pieces put together again are the list and what it was filled up with.
-/

namespace Pieces
variable {α : Type}

def piece (size : Nat) (pad : α) (xs : List α) (i : Nat) : List α :=
  (xs.drop (i * size)).take size ++ List.replicate (size - (xs.length - i * size)) pad

/-- the first `n` pieces -/
def join (size : Nat) (pad : α) (xs : List α) (n : Nat) : List α :=
  (List.range n).flatMap (piece size pad xs)

variable (size : Nat) (pad : α) (xs : List α)

@[simp] theorem length_piece (i : Nat) : (piece size pad xs i).length = size := by
  unfold piece
  simp only [List.length_append, List.length_take, List.length_drop, List.length_replicate]
  omega

theorem join_succ (n : Nat) : join size pad xs (n + 1) = join size pad xs n ++ piece size pad xs n := by
  unfold join
  rw [List.range_succ, List.flatMap_append, List.flatMap_singleton]

theorem join_eq (n : Nat) :
    join size pad xs n = xs.take (n * size) ++ List.replicate (n * size - xs.length) pad := by
  induction n with
  | zero => simp [join]
  | succ n ih =>
    have hmul : (n + 1) * size = n * size + size := Nat.succ_mul n size
    rw [join_succ, ih, hmul]
    unfold piece
    by_cases h : xs.length ≤ n * size
    · -- only padding is left
      rw [List.drop_eq_nil_of_le h, List.take_nil, List.nil_append, List.append_assoc,
        List.replicate_append_replicate, List.take_of_length_le h,
        List.take_of_length_le (h.trans (Nat.le_add_right _ _))]
      congr 2
      omega
    · rw [show n * size - xs.length = 0 by omega, List.replicate_zero, List.append_nil,
        ← List.append_assoc, ← List.take_add]
      congr 2
      omega

/-- **Pieces put together again.** -/
theorem take_join {n : Nat} (h : xs.length ≤ n * size) :
    (join size pad xs n).take xs.length = xs := by
  rw [join_eq, List.take_of_length_le h, List.take_left]

/-- there are as many pieces as the list needs -/
theorem length_le_ceilDiv (hsize : 0 < size) : xs.length ≤ (xs.length ⌈/⌉ size) * size := by
  rw [Nat.mul_comm]
  exact (ceilDiv_le_iff_le_mul hsize).mp (le_refl (xs.length ⌈/⌉ size))

end Pieces
