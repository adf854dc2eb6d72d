import Onx.Lib.BitPrefix
import Mathlib.InformationTheory.Hamming

/-!
# Walks in a hypercube

A walk is the list of the vertices that come after the first one.  Along a walk a potential that falls
by at most one at each step bounds the length, and where the bound is met no vertex comes twice.

* `Walk.le_length`, `Walk.nodup`   the bound, and what follows where it is met;
* `hammingDist_update`             setting one differing coordinate brings a vertex one nearer;
* `ones_xor_topMask`               the first bits in which two words differ, by bit operations.
-/

namespace Hypercube

section
variable {α : Type*} {r : α → α → Prop} {f : α → Nat} {x y : α} {l : List α}

/-- `y` is reached from `x` through the list, whose last vertex it is -/
def Walk (r : α → α → Prop) : α → List α → α → Prop
  | x, [], y => x = y
  | x, z :: l, y => r x z ∧ Walk r z l y

theorem Walk.le_of_mem (hf : ∀ a b, r a b → f a ≤ f b + 1) (h : Walk r x l y) :
    ∀ z ∈ x :: l, f z ≤ f y + l.length := by
  induction l generalizing x with
  | nil =>
    intro z hz
    rw [List.mem_singleton] at hz
    rw [hz, show x = y from h]
    exact Nat.le_refl _
  | cons a l ih =>
    intro z hz
    have htail := ih h.2
    rw [List.length_cons]
    rcases List.mem_cons.mp hz with rfl | hz
    · have hstep := hf z a h.1
      have ha := htail a List.mem_cons_self
      omega
    · have hle := htail z hz
      omega

/-- the potential falls by at most one at each step -/
theorem Walk.le_length (hf : ∀ a b, r a b → f a ≤ f b + 1) (h : Walk r x l y) :
    f x ≤ f y + l.length := h.le_of_mem hf x List.mem_cons_self

/-- if it has to fall at each step, no vertex comes twice -/
theorem Walk.nodup (hf : ∀ a b, r a b → f a ≤ f b + 1) (h : Walk r x l y)
    (htight : f x = f y + l.length) : (x :: l).Nodup := by
  induction l generalizing x with
  | nil => exact List.nodup_singleton x
  | cons a l ih =>
    rw [List.length_cons] at htight
    have hstep := hf x a h.1
    have hle := h.2.le_length hf
    refine List.nodup_cons.mpr ⟨fun hx => ?_, ih h.2 (by omega)⟩
    have hsmall := h.2.le_of_mem hf x hx
    omega

end

/-! ## coordinates -/

section
variable {ι : Type*} [Fintype ι] [DecidableEq ι] {x y : ι → Bool} {i : ι}

theorem hammingDist_update (h : x i ≠ y i) :
    hammingDist (Function.update x i (y i)) y + 1 = hammingDist x y := by
  unfold hammingDist
  have hmem : i ∈ Finset.univ.filter fun j => x j ≠ y j := by
    simpa using h
  rw [← Finset.card_erase_add_one hmem]
  congr 2
  ext j
  by_cases hj : j = i
  · simp [hj]
  · simp [hj]

theorem hammingDist_update_self (h : x i ≠ y i) :
    hammingDist x (Function.update x i (y i)) = 1 := by
  unfold hammingDist
  rw [Finset.card_eq_one]
  refine ⟨i, ?_⟩
  ext j
  by_cases hj : j = i
  · simp [hj, h]
  · simp [hj]

end

/-! ## words -/

section
variable {w len : Nat} {x y : BitVec w}

/-- the number of bits that are set -/
def ones (x : BitVec w) : Nat := (Finset.univ.filter fun i : Fin w => x.getLsbD i = true).card

/-- the first bits of a word, from the most significant one -/
def firstBits (len : Nat) (x : BitVec w) : Fin len → Bool := fun i => x.getLsbD (w - 1 - i)

/-- the bits that are set under the mask of the first bits -/
theorem ones_and_topMask (hlen : len ≤ w) (x : BitVec w) :
    ones (x &&& BitPrefix.topMask w len)
      = (Finset.univ.filter fun i : Fin len => firstBits len x i = true).card := by
  have hlt : ∀ i : Fin len, w - 1 - (i : Nat) < w := fun i => by
    have := i.isLt
    omega
  have hinj : Function.Injective fun i : Fin len => (⟨w - 1 - i, hlt i⟩ : Fin w) := by
    intro i j hij
    have hval : w - 1 - (i : Nat) = w - 1 - j := congrArg Fin.val hij
    have hi := i.isLt
    have hj := j.isLt
    exact Fin.ext (by omega)
  unfold ones
  rw [← Finset.card_image_of_injective _ hinj]
  congr 1
  ext k
  have hk := k.isLt
  rw [Finset.mem_filter_univ, Finset.mem_image, BitVec.getLsbD_and, BitPrefix.getLsbD_topMask]
  constructor
  · intro h
    obtain ⟨hbit, hmask⟩ := Bool.and_eq_true_iff.mp h
    have hle : w - len ≤ k := of_decide_eq_true (Bool.and_eq_true_iff.mp hmask).2
    have hback : w - 1 - (w - 1 - (k : Nat)) = k := by omega
    refine ⟨⟨w - 1 - k, by omega⟩, ?_, Fin.ext hback⟩
    rw [Finset.mem_filter_univ]
    unfold firstBits
    dsimp only
    rw [hback]
    exact hbit
  · rintro ⟨i, hi, rfl⟩
    have hilt := i.isLt
    have hle : w - len ≤ w - 1 - (i : Nat) := by omega
    rw [Finset.mem_filter_univ] at hi
    rw [decide_eq_true hle, decide_eq_true (hlt i)]
    exact Bool.and_eq_true_iff.mpr ⟨hi, rfl⟩

theorem ones_xor_topMask (hlen : len ≤ w) (x y : BitVec w) :
    ones ((x ^^^ y) &&& BitPrefix.topMask w len) = hammingDist (firstBits len x) (firstBits len y) := by
  rw [ones_and_topMask hlen]
  unfold hammingDist
  congr 1
  ext i
  unfold firstBits
  rw [Finset.mem_filter_univ, Finset.mem_filter_univ, BitVec.getLsbD_xor]
  exact bne_iff_ne

/-- a bit is turned over -/
theorem firstBits_xor (hlen : len ≤ w) (x : BitVec w) (i : Fin len) :
    firstBits len (x ^^^ (1#w) <<< (w - 1 - i)) = Function.update (firstBits len x) i (!firstBits len x i) := by
  funext j
  have hi := i.isLt
  have hj := j.isLt
  unfold firstBits
  rw [BitVec.getLsbD_xor, BitPrefix.getLsbD_one_shiftLeft (by omega)]
  by_cases hij : j = i
  · simp [hij]
  · have hne : (j : Nat) ≠ i := fun h => hij (Fin.ext h)
    have hpos : ¬ (w - 1 - (j : Nat) = w - 1 - i) := by omega
    simp [hij, hpos]

theorem firstBits_and_topMask (hlen : len ≤ w) (x : BitVec w) :
    firstBits len (x &&& BitPrefix.topMask w len) = firstBits len x := by
  funext i
  have hi := i.isLt
  have hle : w - len ≤ w - 1 - (i : Nat) := by omega
  have hlt : w - 1 - (i : Nat) < w := by omega
  unfold firstBits
  rw [BitVec.getLsbD_and, BitPrefix.getLsbD_topMask, decide_eq_true hle, decide_eq_true hlt]
  exact Bool.and_true _

/-- two words compared in one bit -/
theorem shiftRight_and_one_eq_iff (hw : 0 < w) (x y : BitVec w) (k : Nat) :
    x >>> k &&& 1#w = y >>> k &&& 1#w ↔ x.getLsbD k = y.getLsbD k := by
  have hbit : ∀ (z : BitVec w) (j : Nat),
      (z >>> k &&& 1#w).getLsbD j = (z.getLsbD (k + j) && decide (j = 0)) := by
    intro z j
    rw [BitVec.getLsbD_and, BitVec.getLsbD_ushiftRight, BitVec.getLsbD_one, decide_eq_true hw,
      Bool.true_and]
  constructor
  · intro h
    have hzero := congrArg (fun z : BitVec w => z.getLsbD 0) h
    simpa [hbit] using hzero
  · intro h
    refine BitVec.eq_of_getLsbD_eq fun j _ => ?_
    rw [hbit, hbit]
    by_cases hj : j = 0
    · rw [hj, Nat.add_zero, h]
    · simp [hj]

/-- the marker comes after the first bits -/
theorem firstBits_marked_ofWord (hlen : len < w) (x : BitVec w) :
    firstBits len (BitPrefix.marked w (BitPrefix.ofWord len x hlen.le)) = firstBits len x := by
  rw [← BitPrefix.marked_ofWord hlen]
  refine (funext fun i => ?_).trans (firstBits_and_topMask hlen.le x)
  have hi := i.isLt
  have hne : ¬ (w - 1 - (i : Nat) = w - 1 - len) := by omega
  unfold firstBits
  rw [BitVec.getLsbD_or, BitPrefix.getLsbD_one_shiftLeft (by omega), decide_eq_false hne]
  exact Bool.or_false _

theorem ofWord_eq_of_firstBits (hlen : len ≤ w) (h : firstBits len x = firstBits len y) :
    BitPrefix.ofWord len x hlen = BitPrefix.ofWord len y hlen := by
  refine (BitPrefix.and_topMask_eq_iff hlen).mp (BitVec.eq_of_getLsbD_eq fun k hk => ?_)
  rw [BitVec.getLsbD_and, BitVec.getLsbD_and, BitPrefix.getLsbD_topMask]
  by_cases hle : w - len ≤ k
  · have hbit : x.getLsbD (w - 1 - (w - 1 - k)) = y.getLsbD (w - 1 - (w - 1 - k)) :=
      congrFun h ⟨w - 1 - k, by omega⟩
    have hback : w - 1 - (w - 1 - k) = k := by omega
    rw [hback] at hbit
    rw [hbit]
  · simp [hle]

end

end Hypercube
