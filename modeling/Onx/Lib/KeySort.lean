import Mathlib.Data.List.Sort

/-!
# Sorting by a key

A stable sort of a list by a key of its elements.

* `pairwise_sort`   the keys ascend;
* `sort_congr`      lists with the same elements, each with a key of its own, sort to the same list;
* `le_getLast`      the last element of a list whose keys ascend has the greatest key;
* `least`           the elements with the least keys; `le_of_mem_least`: none of the others has a less one.
-/

namespace KeySort
variable {α κ : Type} [LinearOrder κ] {key : α → κ}

theorem pairwise_sort (l : List α) :
    (l.insertionSort (fun a b => key a ≤ key b)).Pairwise (fun a b => key a ≤ key b) := by
  have : Std.Total (fun a b : α => key a ≤ key b) := ⟨fun _ _ => le_total _ _⟩
  have : IsTrans α (fun a b => key a ≤ key b) := ⟨fun _ _ _ => le_trans⟩
  exact List.pairwise_insertionSort _ _

theorem sort_congr {l l' : List α} (hinj : ∀ a ∈ l, ∀ b ∈ l, key a = key b → a = b)
    (h : l.Perm l') :
    l.insertionSort (fun a b => key a ≤ key b) = l'.insertionSort (fun a b => key a ≤ key b) := by
  have hl := List.perm_insertionSort (fun a b => key a ≤ key b) l
  have hl' := List.perm_insertionSort (fun a b => key a ≤ key b) l'
  refine List.Perm.eq_of_pairwise (fun a b ha hb hab hba => ?_) (pairwise_sort l) (pairwise_sort l')
    ((hl.trans h).trans hl'.symm)
  exact hinj a (hl.mem_iff.mp ha) b (h.mem_iff.mpr (hl'.mem_iff.mp hb)) (le_antisymm hab hba)

theorem le_getLast {l : List α} {a last : α} (h : l.Pairwise (fun a b => key a ≤ key b))
    (hlast : l.getLast? = some last) (ha : a ∈ l) : key a ≤ key last := by
  obtain ⟨front, rfl⟩ := List.getLast?_eq_some_iff.mp hlast
  rcases List.mem_append.mp ha with hfront | hself
  · exact (List.pairwise_append.mp h).2.2 a hfront last List.mem_cons_self
  · exact le_of_eq (congrArg key (List.mem_singleton.mp hself))

/-! ## the least elements -/

/-- the first `n` elements of the sorted list -/
def least (key : α → κ) (n : Nat) (l : List α) : List α :=
  (l.insertionSort fun a b => key a ≤ key b).take n

section
variable {n : Nat} {l : List α}

theorem pairwise_least : (least key n l).Pairwise fun a b => key a ≤ key b :=
  (pairwise_sort l).sublist (List.take_sublist _ _)

theorem length_least : (least key n l).length = min n l.length := by
  unfold least
  rw [List.length_take, List.length_insertionSort]

theorem length_least_le : (least key n l).length ≤ n :=
  length_least.trans_le (Nat.min_le_left n l.length)

theorem mem_of_mem_least {a : α} (h : a ∈ least key n l) : a ∈ l :=
  (List.perm_insertionSort _ l).mem_iff.mp (List.mem_of_mem_take h)

theorem nodup_least (h : l.Nodup) : (least key n l).Nodup :=
  ((List.perm_insertionSort _ l).nodup_iff.mpr h).sublist (List.take_sublist _ _)

/-- an element that is left out comes after all that are kept -/
theorem le_of_mem_least {a b : α} (ha : a ∈ least key n l) (hb : b ∈ l) (hout : b ∉ least key n l) :
    key a ≤ key b := by
  have hsorted := @pairwise_sort _ _ _ key l
  rw [← List.take_append_drop n (l.insertionSort fun a b => key a ≤ key b)] at hsorted
  have hb' := (List.perm_insertionSort (fun a b => key a ≤ key b) l).mem_iff.mpr hb
  rw [← List.take_append_drop n (l.insertionSort fun a b => key a ≤ key b)] at hb'
  rcases List.mem_append.mp hb' with hin | hrest
  · exact absurd hin hout
  · exact (List.pairwise_append.mp hsorted).2.2 a ha b hrest

/-- an element is kept if few others come before it -/
theorem mem_least_of_few {a : α} {few : List α} (hnodup : l.Nodup) (ha : a ∈ l)
    (hfew : ∀ b ∈ l, b ≠ a → key b ≤ key a → b ∈ few) (hlen : few.length < n) : a ∈ least key n l := by
  by_contra hout
  have hsub : least key n l ⊆ few := fun b hb =>
    hfew b (mem_of_mem_least hb) (fun hba => hout (hba ▸ hb)) (le_of_mem_least hb ha hout)
  have hle := (List.subperm_of_subset (nodup_least hnodup) hsub).length_le
  -- fewer than `n` are kept, so that all are
  have hall : least key n l = l.insertionSort fun a b => key a ≤ key b := by
    rw [length_least] at hle
    unfold least
    refine List.take_of_length_le ?_
    rw [List.length_insertionSort]
    omega
  rw [hall] at hout
  exact hout ((List.perm_insertionSort _ l).mem_iff.mpr ha)

/-- few elements that are sorted already -/
theorem least_eq_self (hsorted : l.Pairwise fun a b => key a ≤ key b) (hlen : l.length ≤ n) :
    least key n l = l := by
  unfold least
  rw [hsorted.insertionSort_eq, List.take_of_length_le hlen]

end

end KeySort
