import Mathlib.Algebra.BigOperators.Group.Finset.Basic
import Mathlib.Algebra.Order.BigOperators.Group.Finset

/-!
# Weighted quorums

A quorum of a finite set `U` of weighted members is a subset that carries at least two thirds
of the weight of `U`.  Two quorums share at least one third of the weight
(`Quorum.inter_weight`), so a set of members with less than one third cannot contain their
intersection (`Quorum.exists_common`).
-/

namespace Quorum
open Finset
variable {ι : Type*} [DecidableEq ι] (w : ι → ℕ) {U A B F : Finset ι}

/-- `A` carries at least two thirds of the weight of `U` -/
def IsQuorum (U A : Finset ι) : Prop := A ⊆ U ∧ 2 * ∑ i ∈ U, w i ≤ 3 * ∑ i ∈ A, w i

/-- two quorums share a third of the weight -/
theorem inter_weight (hA : IsQuorum w U A) (hB : IsQuorum w U B) :
    ∑ i ∈ U, w i ≤ 3 * ∑ i ∈ A ∩ B, w i := by
  have hun : ∑ i ∈ A ∪ B, w i ≤ ∑ i ∈ U, w i :=
    sum_le_sum_of_subset (union_subset hA.1 hB.1)
  have hsum : ∑ i ∈ A ∪ B, w i + ∑ i ∈ A ∩ B, w i = ∑ i ∈ A, w i + ∑ i ∈ B, w i :=
    sum_union_inter
  have h1 := hA.2
  have h2 := hB.2
  omega

/-- **Quorum intersection.**  A set with less than a third of the weight leaves out a common
member of any two quorums. -/
theorem exists_common (hA : IsQuorum w U A) (hB : IsQuorum w U B)
    (hF : 3 * ∑ i ∈ F, w i < ∑ i ∈ U, w i) : ∃ i, i ∈ A ∧ i ∈ B ∧ i ∉ F := by
  by_contra hno
  have hsub : A ∩ B ⊆ F := by
    intro i hi
    obtain ⟨hiA, hiB⟩ := mem_inter.mp hi
    by_contra hiF
    exact hno ⟨i, hiA, hiB, hiF⟩
  have hle : ∑ i ∈ A ∩ B, w i ≤ ∑ i ∈ F, w i := sum_le_sum_of_subset hsub
  have hthird := inter_weight w hA hB
  omega

end Quorum
