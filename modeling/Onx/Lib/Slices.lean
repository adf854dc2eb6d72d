import Onx.Lib.BigEndian

/-!
# Indexing that can panic

The accesses to byte slices and the arithmetic on `usize` as the compiled code performs them: none
where they panic.

* `range_eq`, `from_eq`, `copy_eq`    accesses within the slice;
* `add_eq`, `sub_eq`                  arithmetic within the machine word;
* `sumWords_eq`                       sums of words within their width;
* `Run`                               code that returns an error or panics;
* `Run.add_bind`, `Run.range_bind`    what comes after an access that does not panic;
* `Run.Reads`                         code that returns one value under a condition, and else an error.
-/

namespace Checked

/-- a slice, whose length is at most `isize::MAX` -/
structure Slice where
  bytes : Bytes
  length_lt : bytes.length < 2^63

/-- `s[a..b]` -/
def range (s : Bytes) (a b : Nat) : Option Bytes :=
  if a ≤ b ∧ b ≤ s.length then some ((s.take b).drop a) else none

/-- `s[a..]` -/
def rangeFrom (s : Bytes) (a : Nat) : Option Bytes :=
  if a ≤ s.length then some (s.drop a) else none

/-- `split_at` -/
def splitAt (s : Bytes) (n : Nat) : Option (Bytes × Bytes) :=
  if n ≤ s.length then some (s.take n, s.drop n) else none

/-- `copy_from_slice` into an array of `n` bytes -/
def copy (n : Nat) (s : Bytes) : Option Bytes := if s.length = n then some s else none

def add (a b : Nat) : Option Nat := if a + b < 2^64 then some (a + b) else none

def sub (a b : Nat) : Option Nat := if b ≤ a then some (a - b) else none

def mul (a b : Nat) : Option Nat := if a * b < 2^64 then some (a * b) else none

/-- the `n` bytes from `a` on -/
theorem range_eq {s : Bytes} {a n : Nat} (h : a + n ≤ s.length) :
    range s a (a + n) = some ((s.drop a).take n) := by
  unfold range
  rw [if_pos ⟨Nat.le_add_right a n, h⟩, List.drop_take, Nat.add_sub_cancel_left]

theorem range_field {s : Bytes} {a b : Nat} (h : a ≤ b) (hb : b ≤ s.length) :
    range s a b = some (field s a b) := by
  unfold range field
  rw [if_pos ⟨h, hb⟩, List.drop_take]

theorem rangeFrom_eq {s : Bytes} {a : Nat} (h : a ≤ s.length) :
    rangeFrom s a = some (s.drop a) := if_pos h

theorem splitAt_eq {s : Bytes} {n : Nat} (h : n ≤ s.length) :
    splitAt s n = some (s.take n, s.drop n) := if_pos h

theorem copy_eq {n : Nat} {s : Bytes} (h : s.length = n) : copy n s = some s := if_pos h

theorem copy_take {n : Nat} {s : Bytes} (h : n ≤ s.length) : copy n (s.take n) = some (s.take n) :=
  copy_eq (List.length_take_of_le h)

theorem add_eq {a b : Nat} (h : a + b < 2^64) : add a b = some (a + b) := if_pos h

theorem sub_eq {a b : Nat} (h : b ≤ a) : sub a b = some (a - b) := if_pos h

theorem mul_eq {a b : Nat} (h : a * b < 2^64) : mul a b = some (a * b) := if_pos h

/-! ## words -/

section
variable {w : Nat}

def wordAdd (a b : BitVec w) : Option (BitVec w) :=
  if a.toNat + b.toNat < 2^w then some (a + b) else none

def wordSub (a b : BitVec w) : Option (BitVec w) := if b ≤ a then some (a - b) else none

def wordMul (a b : BitVec w) : Option (BitVec w) :=
  if a.toNat * b.toNat < 2^w then some (a * b) else none

theorem toNat_wordSub {a b c : BitVec w} (h : wordSub a b = some c) : b.toNat + c.toNat = a.toNat := by
  unfold wordSub at h
  split_ifs at h with hle
  obtain rfl := Option.some.inj h
  rw [BitVec.toNat_sub_of_le hle]
  exact Nat.add_sub_cancel' (BitVec.le_def.mp hle)

theorem wordSub_none {a b : BitVec w} (h : wordSub a b = none) : a.toNat < b.toNat := by
  unfold wordSub at h
  split_ifs at h with hle
  exact Nat.lt_of_not_le fun hge => hle (BitVec.le_def.mpr hge)

theorem toNat_wordMul {a b c : BitVec w} (h : wordMul a b = some c) :
    c.toNat = a.toNat * b.toNat := by
  unfold wordMul at h
  split_ifs at h with hlt
  obtain rfl := Option.some.inj h
  rw [BitVec.toNat_mul, Nat.mod_eq_of_lt hlt]

theorem wordMul_none {a b : BitVec w} (h : wordMul a b = none) : 2^w ≤ a.toNat * b.toNat := by
  unfold wordMul at h
  split_ifs at h with hlt
  exact Nat.le_of_not_lt hlt

/-- `iter().sum()`, from a sum on -/
def sumWords : List (BitVec w) → BitVec w → Option (BitVec w)
  | [], acc => some acc
  | x :: xs, acc => do
    let acc ← wordAdd acc x
    sumWords xs acc

theorem sumWords_eq {xs : List (BitVec w)} {acc : BitVec w}
    (h : acc.toNat + (xs.map BitVec.toNat).sum < 2^w) :
    ∃ sum, sumWords xs acc = some sum ∧ sum.toNat = acc.toNat + (xs.map BitVec.toNat).sum := by
  induction xs generalizing acc with
  | nil => exact ⟨acc, rfl, rfl⟩
  | cons x xs ih =>
    rw [List.map_cons, List.sum_cons] at h ⊢
    have hadd : (acc + x).toNat = acc.toNat + x.toNat := by
      rw [BitVec.toNat_add, Nat.mod_eq_of_lt (by omega)]
    obtain ⟨sum, hsum, hnat⟩ := @ih (acc + x) (by omega)
    refine ⟨sum, ?_, by omega⟩
    unfold sumWords wordAdd
    rw [if_pos (by omega)]
    exact hsum

end

/-- `Vec::with_capacity(n)` of elements of `size` bytes -/
def withCapacity (size n : Nat) : Option Unit := if n * size < 2^63 then some () else none

theorem withCapacity_eq {size n : Nat} (h : n * size < 2^63) : withCapacity size n = some () :=
  if_pos h

/-! ## errors and panics -/

theorem bind_ok {ε α β : Type} {x : Except ε α} {f : α → Except ε β} {b : β} (h : x >>= f = .ok b) :
    ∃ a, x = .ok a ∧ f a = .ok b := by
  cases x with
  | error e => cases h
  | ok a => exact ⟨a, rfl, h⟩

/-- code that returns a value, returns an error, or panics -/
abbrev Run (ε α : Type) := ExceptT ε Option α

namespace Run
variable {ε ε' α : Type}

/-- the operator `?`, with the conversion of the error -/
def ofExcept (f : ε' → ε) (x : Except ε' α) : Run ε α :=
  match x with
  | .ok a => pure a
  | .error e => throw (f e)

@[simp] theorem ofExcept_ok (f : ε' → ε) (a : α) : (ofExcept f (.ok a) : Run ε α) = pure a := rfl

@[simp] theorem ofExcept_error (f : ε' → ε) (e : ε') :
    (ofExcept f (.error e) : Run ε α) = throw (f e) := rfl

theorem ofExcept_bind {β : Type} (x : Except ε α) (f : α → Except ε β) :
    ofExcept id (x >>= f) = ofExcept id x >>= fun a => ofExcept id (f a) := by
  cases x <;> rfl

theorem run_ofExcept (x : Except ε α) : (ofExcept id x).run = some x := by
  cases x <;> rfl

@[simp] theorem lift_some (a : α) : (liftM (some a) : Run ε α) = pure a := rfl

@[simp] theorem adapt_pure (f : ε' → ε) (a : α) :
    (ExceptT.adapt f (pure a : Run ε' α) : Run ε α) = pure a := rfl

@[simp] theorem adapt_throw (f : ε' → ε) (e : ε') :
    (ExceptT.adapt f (throw e : Run ε' α) : Run ε α) = throw (f e) := rfl

/-! ## accesses within the slice, and what comes after them -/

theorem add_bind {a b : Nat} (h : a + b < 2^64) (k : Nat → Run ε α) :
    ((liftM (add a b) : Run ε Nat) >>= k) = k (a + b) := by
  rw [add_eq h, lift_some, pure_bind]

theorem rangeFrom_bind {s : Bytes} {a : Nat} (h : a ≤ s.length) (k : Bytes → Run ε α) :
    ((liftM (rangeFrom s a) : Run ε Bytes) >>= k) = k (s.drop a) := by
  rw [rangeFrom_eq h, lift_some, pure_bind]

theorem range_bind {s : Bytes} {a b : Nat} (h : a ≤ b) (hb : b ≤ s.length) (k : Bytes → Run ε α) :
    ((liftM (range s a b) : Run ε Bytes) >>= k) = k (field s a b) := by
  rw [range_field h hb, lift_some, pure_bind]

/-- the first `n` bytes, copied into an array -/
theorem copyFront_bind {s : Bytes} {n : Nat} (h : n ≤ s.length) (k : Bytes → Run ε α) :
    ((liftM (range s 0 n) : Run ε Bytes) >>= fun part => (liftM (copy n part) : Run ε Bytes) >>= k)
      = k (s.take n) := by
  rw [range_bind (Nat.zero_le n) h, field_zero, copy_take h, lift_some, pure_bind]

/-- the code returns `a` if `P`, and an error otherwise -/
def Reads (r : Run ε α) (P : Prop) (a : α) : Prop := (P ∧ r = pure a) ∨ (¬ P ∧ ∃ e, r = throw e)

namespace Reads
variable {β : Type} {r : Run ε α} {P Q : Prop} {a : α}

theorem accepted (hp : P) : Reads (pure a : Run ε α) P a := .inl ⟨hp, rfl⟩

theorem refused (hp : ¬ P) (e : ε) : Reads (throw e : Run ε α) P a := .inr ⟨hp, e, rfl⟩

theorem congr (h : r.Reads P a) (hiff : P ↔ Q) : r.Reads Q a := propext hiff ▸ h

/-- what is read next is read if the first was -/
theorem bind {k : α → Run ε β} {b : β} (h : r.Reads P a) (hk : P → (k a).Reads Q b) :
    (r >>= k).Reads (P ∧ Q) b := by
  rcases h with ⟨hp, hread⟩ | ⟨hnot, e, he⟩
  · rw [hread, pure_bind]
    exact (hk hp).congr (and_iff_right hp).symm
  · rw [he]
    exact refused (fun h => hnot h.1) e

theorem adapt (h : r.Reads P a) (f : ε → ε') : Reads (ExceptT.adapt f r : Run ε' α) P a := by
  rcases h with ⟨hp, hread⟩ | ⟨hnot, e, he⟩
  · rw [hread]
    exact accepted hp
  · rw [he]
    exact refused hnot (f e)

theorem eq_pure (h : r.Reads P a) (hp : P) : r = pure a :=
  h.elim And.right fun hnot => absurd hp hnot.1

theorem ok_iff {b : α} (h : r.Reads P a) : r.run = some (.ok b) ↔ P ∧ b = a := by
  rcases h with ⟨hp, hread⟩ | ⟨hnot, e, he⟩
  · rw [hread, and_iff_right hp]
    exact ⟨fun hrun => (Except.ok.inj (Option.some.inj hrun)).symm, fun hb => hb ▸ rfl⟩
  · rw [he]
    refine iff_of_false (fun hrun => ?_) fun hpb => hnot hpb.1
    cases hrun

theorem exists_ok_iff (h : r.Reads P a) : (∃ b, r.run = some (.ok b)) ↔ P :=
  ⟨fun ⟨_, hrun⟩ => (h.ok_iff.mp hrun).1, fun hp => ⟨a, h.ok_iff.mpr ⟨hp, rfl⟩⟩⟩

theorem run_ne_none (h : r.Reads P a) : r.run ≠ none := by
  intro hnone
  rcases h with ⟨_, hread⟩ | ⟨_, e, he⟩
  · rw [hread] at hnone
    cases hnone
  · rw [he] at hnone
    cases hnone

end Reads

end Run

end Checked
