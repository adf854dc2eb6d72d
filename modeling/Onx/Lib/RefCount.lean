import Onx.Lib.Dfs
import Mathlib.Data.List.Count
import Mathlib.Data.List.Perm.Basic

/-!
# Reference counts over a heap of shared nodes

A heap maps addresses to counted nodes, and a node refers to other addresses.  Roots are held by
clients, each any number of times.  Taking a root counts up every node within reach; giving it
back counts down, and goes below a node only where the count reaches zero.

* `cover m R a`      how many of the roots `R` reach `a`;
* `Held m R`         no node is counted less than it is covered: kept by `Puts`, `Up` and `Down`,
                     so nothing within reach of a root is lost (`Held.present`);
* `Exact m R`        counts and covers agree: kept by `Down` when the pass meets every node within
                     reach, so nothing else is left behind;
* `Move`             a step of a heap and its roots: `Held.moves` and `Exact.moves` are the two
                     invariants over any number of steps.
-/

namespace RefCount
open Dfs
variable {α β : Type}

/-- counted nodes by address -/
abbrev Heap (α β : Type) := α → Option (ℕ × β)

section
variable (refs : β → List α) (m : Heap α β)

def next (a : α) : List α :=
  match m a with
  | some (_, b) => refs b
  | none => []

def count (a : α) : ℕ :=
  match m a with
  | some (n, _) => n
  | none => 0

/-- the edges that a pass downwards follows -/
def sole (a : α) : List α := if count m a = 1 then next refs m a else []

open Classical in
/-- how many of the roots reach an address -/
noncomputable def cover (R : List α) (a : α) : ℕ :=
  R.countP (fun r => decide (Reach (next refs m) r a))

/-- new nodes, all with count zero -/
structure Puts (m m' : Heap α β) : Prop where
  keep : ∀ a x, m a = some x → m' a = some x
  fresh : ∀ a n b, m a = none → m' a = some (n, b) → n = 0

/-- one more on every node within reach -/
structure Up (root : α) (m' : Heap α β) : Prop where
  reach : ∀ a, Reach (next refs m) root a → ∃ n b, m a = some (n, b) ∧ m' a = some (n + 1, b)
  other : ∀ a, ¬ Reach (next refs m) root a → m' a = m a

/-- one less on the root and, where a count reaches zero, on the nodes below -/
structure Down (root : α) (m' : Heap α β) : Prop where
  reach : ∀ a, Reach (sole refs m) root a → ∃ n b, m a = some (n + 1, b)
    ∧ m' a = if n = 0 then none else some (n, b)
  other : ∀ a, ¬ Reach (sole refs m) root a → m' a = m a

/-- every address is counted at least as often as it is covered -/
def Held (R : List α) : Prop := ∀ a, cover refs m R a ≤ count m a

/-- every address is counted as often as it is covered -/
def Exact (R : List α) : Prop := ∀ a, cover refs m R a = count m a

end

section
variable {refs : β → List α} {m m' : Heap α β} {R : List α} {root a : α}

theorem next_some {n : ℕ} {b : β} (h : m a = some (n, b)) : next refs m a = refs b := by
  unfold next
  rw [h]

theorem count_some {n : ℕ} {b : β} (h : m a = some (n, b)) : count m a = n := by
  unfold count
  rw [h]

theorem count_none (h : m a = none) : count m a = 0 := by
  unfold count
  rw [h]

/-- a positive count is on a node -/
theorem some_of_count {n : ℕ} (h : n + 1 ≤ count m a) : ∃ k b, m a = some (k + 1, b) := by
  cases hm : m a with
  | none =>
    rw [count_none hm] at h
    omega
  | some x =>
    obtain ⟨k, b⟩ := x
    rw [count_some hm] at h
    exact ⟨k - 1, b, by rw [Nat.sub_add_cancel (by omega)]⟩

theorem mem_next_of_sole {x y : α} (h : y ∈ sole refs m x) : y ∈ next refs m x := by
  unfold sole at h
  split_ifs at h
  · exact h
  · cases h

theorem reach_of_sole {x y : α} (h : Reach (sole refs m) x y) : Reach (next refs m) x y := by
  induction h with
  | refl => exact Reach.refl _ _
  | tail _ hstep ih => exact ih.step (mem_next_of_sole hstep)

/-! ## covers -/

open Classical in
theorem cover_cons (r : α) : cover refs m (r :: R) a
    = cover refs m R a + if Reach (next refs m) r a then 1 else 0 := by
  unfold cover
  rw [List.countP_cons]
  simp only [decide_eq_true_eq]

theorem cover_perm {R' : List α} (h : R.Perm R') : cover refs m R a = cover refs m R' a :=
  h.countP_eq _

open Classical in
theorem cover_erase [DecidableEq α] (hr : root ∈ R) : cover refs m R a
    = cover refs m (R.erase root) a + if Reach (next refs m) root a then 1 else 0 := by
  rw [cover_perm (List.perm_cons_erase hr), cover_cons]

theorem cover_pos {r : α} (hr : r ∈ R) (h : Reach (next refs m) r a) :
    1 ≤ cover refs m R a := by
  unfold cover
  exact List.countP_pos_iff.mpr ⟨r, hr, by simpa using h⟩

theorem exists_of_cover (h : 1 ≤ cover refs m R a) :
    ∃ r ∈ R, Reach (next refs m) r a := by
  unfold cover at h
  obtain ⟨r, hr, hreach⟩ := List.countP_pos_iff.mp h
  exact ⟨r, hr, by simpa using hreach⟩

/-- roots that reach the same cover the same -/
theorem cover_congr (h : ∀ r ∈ R, ∀ a, Reach (next refs m') r a ↔ Reach (next refs m) r a) (a : α) :
    cover refs m' R a = cover refs m R a := by
  unfold cover
  refine List.countP_congr fun r hr => ?_
  simpa using h r hr a

/-! ## nothing is lost -/

/-- **What a held root reaches is there**, with a positive count. -/
theorem Held.present (h : Held refs m R) {r : α} (hr : r ∈ R) (ha : Reach (next refs m) r a) :
    ∃ n b, m a = some (n + 1, b) :=
  some_of_count (n := 0) (le_trans (cover_pos hr ha) (h a))

theorem Held.perm {R' : List α} (h : Held refs m R) (hp : R.Perm R') : Held refs m R' := by
  intro a
  rw [← cover_perm hp]
  exact h a

/-- a heap that keeps the nodes within reach of the roots keeps their covers -/
theorem reach_kept (h : ∀ r ∈ R, ∀ y, Reach (next refs m) r y → next refs m' y = next refs m y) :
    ∀ r ∈ R, ∀ a, Reach (next refs m') r a ↔ Reach (next refs m) r a :=
  fun r hr a => reach_congr (h r hr) a

theorem Puts.next_eq (h : Puts m m') {x : ℕ × β} (hx : m a = some x) :
    next refs m' a = next refs m a := by
  unfold next
  rw [h.keep a x hx, hx]

theorem Puts.count_eq (h : Puts m m') (a : α) : count m' a = count m a := by
  cases hm : m a with
  | some x => rw [count, count, h.keep a x hm, hm]
  | none =>
    rw [count_none hm]
    cases hm' : m' a with
    | none => exact count_none hm'
    | some x =>
      obtain ⟨n, b⟩ := x
      rw [count_some hm', h.fresh a n b hm hm']

theorem Puts.trans {m'' : Heap α β} (h : Puts m m') (h' : Puts m' m'') : Puts m m'' := by
  refine ⟨fun a x hx => h'.keep a x (h.keep a x hx), fun a n b hm hm'' => ?_⟩
  cases hmid : m' a with
  | none => exact h'.fresh a n b hmid hm''
  | some x =>
    obtain ⟨k, d⟩ := x
    have hk := h.fresh a k d hm hmid
    rw [h'.keep a _ hmid] at hm''
    cases hm''
    exact hk

theorem Puts.refl (m : Heap α β) : Puts m m :=
  ⟨fun _ _ h => h, fun a n b h h' => by rw [h] at h'; cases h'⟩

/-- new nodes cover nothing and are covered by nothing -/
theorem Puts.cover_eq (hput : Puts m m') (h : Held refs m R) (a : α) :
    cover refs m' R a = cover refs m R a := by
  refine cover_congr (reach_kept fun r hr y hy => ?_) a
  obtain ⟨n, b, hm⟩ := h.present hr hy
  exact hput.next_eq hm

theorem Held.puts (h : Held refs m R) (hput : Puts m m') : Held refs m' R := by
  intro a
  rw [hput.cover_eq h, hput.count_eq]
  exact h a

theorem Up.next_eq (h : Up refs m root m') : next refs m' = next refs m := by
  funext a
  by_cases ha : Reach (next refs m) root a
  · obtain ⟨n, b, hm, hm'⟩ := h.reach a ha
    rw [next_some hm, next_some hm']
  · unfold next
    rw [h.other a ha]

open Classical in
theorem Up.count_eq (h : Up refs m root m') (a : α) :
    count m' a = count m a + if Reach (next refs m) root a then 1 else 0 := by
  split_ifs with ha
  · obtain ⟨n, b, hm, hm'⟩ := h.reach a ha
    rw [count_some hm, count_some hm']
  · rw [count, count, h.other a ha]
    rfl

open Classical in
theorem Up.cover_eq (h : Up refs m root m') (a : α) : cover refs m' (root :: R) a
    = cover refs m R a + if Reach (next refs m) root a then 1 else 0 := by
  rw [cover_cons, h.next_eq]
  unfold cover
  rw [h.next_eq]

theorem Held.up (h : Held refs m R) (hup : Up refs m root m') : Held refs m' (root :: R) := by
  classical
  intro a
  rw [hup.cover_eq, hup.count_eq]
  exact Nat.add_le_add_right (h a) _

section
variable [DecidableEq α]

/-- a pass downwards keeps the nodes that other roots reach -/
theorem Held.down_kept (h : Held refs m R) (hroot : root ∈ R) (hdown : Down refs m root m') :
    ∀ r ∈ R.erase root, ∀ y, Reach (next refs m) r y → next refs m' y = next refs m y := by
  classical
  intro r hr y hy
  by_cases hs : Reach (sole refs m) root y
  · obtain ⟨n, b, hm, hm'⟩ := hdown.reach y hs
    -- two roots reach `y`, so its count does not fall to zero
    have htwo := h y
    rw [cover_erase hroot, if_pos (reach_of_sole hs), count_some hm] at htwo
    have hone := cover_pos hr hy
    rw [if_neg (by omega)] at hm'
    rw [next_some hm, next_some hm']
  · unfold next
    rw [hdown.other y hs]

theorem Held.down (h : Held refs m R) (hroot : root ∈ R) (hdown : Down refs m root m') :
    Held refs m' (R.erase root) := by
  classical
  intro a
  rw [cover_congr (reach_kept (h.down_kept hroot hdown))]
  have hle := h a
  rw [cover_erase hroot] at hle
  by_cases hs : Reach (sole refs m) root a
  · obtain ⟨n, b, hm, hm'⟩ := hdown.reach a hs
    rw [if_pos (reach_of_sole hs), count_some hm] at hle
    by_cases hn : n = 0
    · omega
    · rw [if_neg hn] at hm'
      rw [count_some hm']
      omega
  · rw [count, hdown.other a hs]
    exact le_trans (Nat.le_add_right _ _) hle

end

/-! ## nothing is left behind -/

theorem Exact.held (h : Exact refs m R) : Held refs m R := fun a => le_of_eq (h a)

/-- **What has a positive count is within reach of a root.** -/
theorem Exact.reachable (h : Exact refs m R) (ha : 1 ≤ count m a) :
    ∃ r ∈ R, Reach (next refs m) r a :=
  exists_of_cover (by rw [h a]; exact ha)

theorem Exact.perm {R' : List α} (h : Exact refs m R) (hp : R.Perm R') : Exact refs m R' := by
  intro a
  rw [← cover_perm hp]
  exact h a

theorem Exact.puts (h : Exact refs m R) (hput : Puts m m') : Exact refs m' R := by
  intro a
  rw [hput.cover_eq h.held, hput.count_eq]
  exact h a

theorem Exact.up (h : Exact refs m R) (hup : Up refs m root m') : Exact refs m' (root :: R) := by
  classical
  intro a
  rw [hup.cover_eq, hup.count_eq, h a]

/-- a pass downwards meets every node within reach -/
def MeetsAll (refs : β → List α) (m : Heap α β) (root : α) : Prop :=
  ∀ a, Reach (next refs m) root a → Reach (sole refs m) root a

theorem Exact.down [DecidableEq α] (h : Exact refs m R) (hroot : root ∈ R)
    (hdown : Down refs m root m') (hall : MeetsAll refs m root) :
    Exact refs m' (R.erase root) := by
  classical
  intro a
  rw [cover_congr (reach_kept (h.held.down_kept hroot hdown))]
  have heq := h a
  rw [cover_erase hroot] at heq
  by_cases hr : Reach (next refs m) root a
  · obtain ⟨n, b, hm, hm'⟩ := hdown.reach a (hall a hr)
    rw [if_pos hr, count_some hm] at heq
    by_cases hn : n = 0
    · rw [if_pos hn] at hm'
      rw [count_none hm']
      omega
    · rw [if_neg hn] at hm'
      rw [count_some hm']
      omega
  · rw [if_neg hr] at heq
    rw [count, hdown.other a (fun hs => hr (reach_of_sole hs))]
    exact heq

/-! ## runs of a heap -/

section
variable [DecidableEq α] {P : Heap α β → α → Prop}

/-- a step of a heap and the roots that are held, with a condition on the roots given back -/
inductive Move (refs : β → List α) (P : Heap α β → α → Prop) :
    Heap α β × List α → Heap α β × List α → Prop where
  | puts {m m' : Heap α β} {R : List α} : Puts m m' → Move refs P (m, R) (m', R)
  | up {m m' : Heap α β} {R : List α} {root : α} : Up refs m root m' →
      Move refs P (m, R) (m', root :: R)
  | down {m m' : Heap α β} {R : List α} {root : α} : root ∈ R → P m root → Down refs m root m' →
      Move refs P (m, R) (m', R.erase root)
  | perm {m : Heap α β} {R R' : List α} : R.Perm R' → Move refs P (m, R) (m, R')

theorem Held.move {x y : Heap α β × List α} (h : Held refs x.1 x.2) (hmove : Move refs P x y) :
    Held refs y.1 y.2 := by
  cases hmove with
  | puts hput => exact h.puts hput
  | up hup => exact h.up hup
  | down hroot _ hdown => exact h.down hroot hdown
  | perm hperm => exact h.perm hperm

/-- **Nothing is lost** over any number of steps. -/
theorem Held.moves {x y : Heap α β × List α} (h : Held refs x.1 x.2)
    (hmoves : Relation.ReflTransGen (Move refs P) x y) : Held refs y.1 y.2 := by
  induction hmoves with
  | refl => exact h
  | tail _ hmove ih => exact ih.move hmove

theorem Exact.move {x y : Heap α β × List α} (h : Exact refs x.1 x.2)
    (hmove : Move refs (MeetsAll refs) x y) : Exact refs y.1 y.2 := by
  cases hmove with
  | puts hput => exact h.puts hput
  | up hup => exact h.up hup
  | down hroot hall hdown => exact h.down hroot hdown hall
  | perm hperm => exact h.perm hperm

/-- **Nothing is left behind** over any number of steps whose passes downwards meet everything. -/
theorem Exact.moves {x y : Heap α β × List α} (h : Exact refs x.1 x.2)
    (hmoves : Relation.ReflTransGen (Move refs (MeetsAll refs)) x y) : Exact refs y.1 y.2 := by
  induction hmoves with
  | refl => exact h
  | tail _ hmove ih => exact ih.move hmove

end

end

end RefCount
