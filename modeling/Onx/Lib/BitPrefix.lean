import Mathlib.Data.Nat.Basic
import Mathlib.Data.Nat.Bitwise
import Mathlib.Data.Nat.Find

/-!
# Binary prefixes

A prefix of `len` bits is kept as the number its bits spell.  It covers the words that start with
these bits, and `marked w p` writes it into a `w`-bit word with a marker bit behind its bits.

* `covers_child_iff`      each child of a prefix covers the words of the prefix with one next bit;
* `covers_inj`            the words that a prefix covers determine it;
* `trailingZeros_marked`  the marker is the lowest bit that is set, `exists_marked` every word but
                          zero is marked;
* `marked_child_false`, `marked_child_true`   the children by bit operations on the marked word;
* `siblings_iff`          two prefixes with one parent, by bit operations;
* `marked_ofWord`         the prefix of a word.
-/

/-- the first `len` bits of a word, as a number -/
structure BitPrefix where
  len : Nat
  bits : Nat
  lt : bits < 2^len
deriving DecidableEq

namespace BitPrefix

def root : BitPrefix := ⟨0, 0, Nat.one_pos⟩

def child (p : BitPrefix) (b : Bool) : BitPrefix where
  len := p.len + 1
  bits := 2 * p.bits + b.toNat
  lt := by
    have h := p.lt
    have hb := Bool.toNat_le b
    rw [Nat.pow_succ]
    omega

@[simp] theorem child_len (p : BitPrefix) (b : Bool) : (p.child b).len = p.len + 1 := rfl
@[simp] theorem child_bits (p : BitPrefix) (b : Bool) : (p.child b).bits = 2 * p.bits + b.toNat := rfl

@[ext] theorem ext {p q : BitPrefix} (hlen : p.len = q.len) (hbits : p.bits = q.bits) : p = q := by
  obtain ⟨l, k, h⟩ := p
  obtain ⟨l', k', h'⟩ := q
  cases hlen
  cases hbits
  rfl

theorem testBit_child_zero (p : BitPrefix) (b : Bool) : (p.child b).bits.testBit 0 = b := by
  cases b <;> simp [Nat.testBit_zero]

theorem testBit_child_succ (p : BitPrefix) (b : Bool) (j : Nat) :
    (p.child b).bits.testBit (j + 1) = p.bits.testBit j := by
  have hhalf : (p.child b).bits / 2 = p.bits := by
    have hb := Bool.toNat_le b
    rw [child_bits]
    omega
  rw [Nat.testBit_succ, hhalf]

/-- prefixes with the same bits are equal -/
theorem ext_testBit {p q : BitPrefix} (hlen : p.len = q.len)
    (h : ∀ j < p.len, p.bits.testBit j = q.bits.testBit j) : p = q := by
  have hhigh : ∀ (r : BitPrefix) (j : Nat), r.len ≤ j → r.bits.testBit j = false := fun r j hj =>
    Nat.testBit_lt_two_pow (lt_of_lt_of_le r.lt (Nat.pow_le_pow_right Nat.two_pos hj))
  refine ext hlen (Nat.eq_of_testBit_eq fun j => ?_)
  by_cases hj : j < p.len
  · exact h j hj
  · rw [hhigh p j (by omega), hhigh q j (by omega)]

theorem child_inj {p q : BitPrefix} {b b' : Bool} (h : p.child b = q.child b') : p = q ∧ b = b' := by
  have hlen := congrArg len h
  have hbits := congrArg bits h
  have hb := Bool.toNat_le b
  have hb' := Bool.toNat_le b'
  rw [child_len, child_len] at hlen
  rw [child_bits, child_bits] at hbits
  refine ⟨ext (by omega) (by omega), ?_⟩
  cases b <;> cases b' <;> simp at hbits ⊢ <;> omega

/-- a prefix that is not empty is a child -/
theorem exists_child {p : BitPrefix} (h : p.len ≠ 0) : ∃ q b, p = child q b := by
  obtain ⟨l, k, hk⟩ := p
  obtain ⟨l, rfl⟩ := Nat.exists_eq_succ_of_ne_zero h
  rw [Nat.succ_eq_add_one, Nat.pow_succ] at hk
  refine ⟨⟨l, k / 2, by omega⟩, decide (k % 2 = 1), ext rfl ?_⟩
  show k = 2 * (k / 2) + (decide (k % 2 = 1)).toNat
  rcases Nat.mod_two_eq_zero_or_one k with h0 | h1
  · simp [h0]
    omega
  · simp [h1]
    omega

/-! ## the words of a prefix -/

/-- the `w`-bit word `x` starts with the prefix -/
def covers (w : Nat) (p : BitPrefix) (x : Nat) : Prop := x / 2^(w - p.len) = p.bits

instance (w : Nat) (p : BitPrefix) (x : Nat) : Decidable (p.covers w x) := by
  unfold covers
  infer_instance

theorem covers_root {w x : Nat} (hx : x < 2^w) : root.covers w x := Nat.div_eq_of_lt hx

theorem covers_child_iff {w : Nat} {p : BitPrefix} {b : Bool} {x : Nat} (hlen : p.len < w) :
    (p.child b).covers w x ↔ p.covers w x ∧ x.testBit (w - 1 - p.len) = b := by
  have hsplit : x / 2^(w - p.len) = x / 2^(w - 1 - p.len) / 2 := by
    rw [Nat.div_div_eq_div_mul, ← Nat.pow_succ]
    congr 2
    omega
  have hw : w - (p.len + 1) = w - 1 - p.len := by omega
  unfold covers
  rw [child_len, child_bits, hsplit, hw, Nat.testBit, Nat.shiftRight_eq_div_pow]
  have hmod := Nat.mod_two_eq_zero_or_one (x / 2^(w - 1 - p.len))
  cases b <;> simp <;> omega

/-- the first and the last word of a prefix -/
theorem covers_ends {w : Nat} (p : BitPrefix) :
    p.covers w (p.bits * 2^(w - p.len)) ∧ p.covers w (p.bits * 2^(w - p.len) + (2^(w - p.len) - 1)) := by
  have hpos : 0 < 2^(w - p.len) := Nat.two_pow_pos _
  unfold covers
  constructor
  · exact Nat.mul_div_cancel _ hpos
  · rw [Nat.add_comm, Nat.add_mul_div_right _ _ hpos, Nat.div_eq_of_lt (by omega), Nat.zero_add]

theorem first_lt {w : Nat} (p : BitPrefix) (h : p.len ≤ w) : p.bits * 2^(w - p.len) < 2^w := by
  have hw : 2^w = 2^p.len * 2^(w - p.len) := by rw [← Nat.pow_add, Nat.add_sub_cancel' h]
  rw [hw]
  exact Nat.mul_lt_mul_of_pos_right p.lt (Nat.two_pow_pos _)

theorem len_le_of_covers {w : Nat} {p q : BitPrefix} (hp : p.len < w)
    (h : ∀ x < 2^w, p.covers w x → q.covers w x) : q.len ≤ p.len := by
  by_contra hlong
  have hlt : p.len < q.len := Nat.lt_of_not_le hlong
  have hpos : 0 < 2^(w - p.len) := Nat.two_pow_pos _
  have hfit : p.bits * 2^(w - p.len) + (2^(w - p.len) - 1) < 2^w := by
    have hw : 2^w = 2^p.len * 2^(w - p.len) := by rw [← Nat.pow_add, Nat.add_sub_cancel' hp.le]
    have hmul := Nat.mul_le_mul_right (2^(w - p.len)) (Nat.succ_le_of_lt p.lt)
    rw [Nat.succ_mul] at hmul
    omega
  obtain ⟨hfirst, hlast⟩ := covers_ends (w := w) p
  have h0 := h _ (by omega) hfirst
  have h1 := h _ hfit hlast
  -- two words of `q` are closer to each other
  have hdouble : 2 * 2^(w - q.len) ≤ 2^(w - p.len) := by
    rw [← Nat.pow_succ']
    exact Nat.pow_le_pow_right Nat.two_pos (by omega)
  have hqpos : 0 < 2^(w - q.len) := Nat.two_pow_pos _
  unfold covers at h0 h1
  have hle0 := Nat.div_mul_le_self (p.bits * 2^(w - p.len)) (2^(w - q.len))
  have hlt1 := Nat.lt_div_mul_add (a := p.bits * 2^(w - p.len) + (2^(w - p.len) - 1)) hqpos
  rw [h0] at hle0
  rw [h1] at hlt1
  omega

/-- **Prefixes that cover the same words are equal.** -/
theorem covers_inj {w : Nat} {p q : BitPrefix} (hp : p.len < w) (hq : q.len < w)
    (h : ∀ x < 2^w, p.covers w x ↔ q.covers w x) : p = q := by
  have hlen : p.len = q.len := Nat.le_antisymm (len_le_of_covers hq fun x hx => (h x hx).mpr)
    (len_le_of_covers hp fun x hx => (h x hx).mp)
  refine ext hlen ?_
  obtain ⟨hfirst, _⟩ := covers_ends (w := w) p
  have hsame := (h _ (p.first_lt hp.le)).mp hfirst
  unfold covers at hfirst hsame
  rw [← hfirst, ← hsame, hlen]
/-! ## marked words -/

/-- the bits of the prefix, a marker bit and zeros -/
def marked (w : Nat) (p : BitPrefix) : BitVec w :=
  BitVec.ofNat w ((2 * p.bits + 1) <<< (w - 1 - p.len))

theorem testBit_odd (k j : Nat) :
    (2 * k + 1).testBit j = (decide (j = 0) || (decide (1 ≤ j) && k.testBit (j - 1))) := by
  cases j with
  | zero => simp
  | succ j =>
    have h : (2 * k + 1) / 2 = k := by omega
    simp [Nat.testBit_succ, h]

theorem getLsbD_marked {w : Nat} {p : BitPrefix} (hlen : p.len < w) (i : Nat) :
    (marked w p).getLsbD i = (decide (i < w) &&
      (decide (i = w - 1 - p.len) || (decide (w - p.len ≤ i) && p.bits.testBit (i - (w - p.len))))) := by
  unfold marked
  rw [BitVec.getLsbD_ofNat, Nat.testBit_shiftLeft, testBit_odd]
  congr 1
  by_cases h1 : i = w - 1 - p.len
  · simp [h1]
  by_cases h2 : w - p.len ≤ i
  · have hsub : i - (w - 1 - p.len) - 1 = i - (w - p.len) := by omega
    have hne : i - (w - 1 - p.len) ≠ 0 := by omega
    have hle : w - 1 - p.len ≤ i := by omega
    have hone : 1 ≤ i - (w - 1 - p.len) := by omega
    simp [h1, h2, hsub, hle, hone]
    omega
  · have hlt : ¬ (i ≥ w - 1 - p.len) := by omega
    simp [h1, h2, hlt]

/-- the number of zeros below the lowest bit that is set; the width of a zero word -/
def trailingZeros {w : Nat} (x : BitVec w) : Nat := (List.range w).findIdx x.getLsbD

theorem trailingZeros_eq {w t : Nat} {x : BitVec w} (ht : t < w) (hone : x.getLsbD t = true)
    (hzero : ∀ j < t, x.getLsbD j = false) : trailingZeros x = t := by
  unfold trailingZeros
  rw [List.findIdx_eq (by simpa using ht)]
  simpa using ⟨hone, hzero⟩

theorem trailingZeros_marked {w : Nat} {p : BitPrefix} (hlen : p.len < w) :
    trailingZeros (marked w p) = w - 1 - p.len := by
  refine trailingZeros_eq (by omega) ?_ (fun j hj => ?_)
  · rw [getLsbD_marked hlen]
    simp
    omega
  · have h1 : ¬ (j = w - 1 - p.len) := by omega
    have h2 : ¬ (w - p.len ≤ j) := by omega
    rw [getLsbD_marked hlen]
    simp [h1, h2]

theorem marked_ne_zero {w : Nat} {p : BitPrefix} (hlen : p.len < w) : marked w p ≠ 0 := by
  intro h
  have hbit := getLsbD_marked hlen (w - 1 - p.len)
  rw [h] at hbit
  simp at hbit
  omega

/-- the first `len` bits of a word -/
def ofWord {w : Nat} (len : Nat) (x : BitVec w) (hlen : len ≤ w) : BitPrefix where
  len := len
  bits := x.toNat / 2^(w - len)
  lt := by
    rw [Nat.div_lt_iff_lt_mul (Nat.two_pow_pos _), ← Nat.pow_add]
    have h : len + (w - len) = w := by omega
    rw [h]
    exact x.isLt

theorem ofWord_marked {w : Nat} {p : BitPrefix} (hlen : p.len < w) :
    ofWord p.len (marked w p) hlen.le = p := by
  refine ext rfl (Nat.eq_of_testBit_eq fun i => ?_)
  show (((marked w p).toNat / 2^(w - p.len)).testBit i) = _
  rw [Nat.testBit_div_two_pow, BitVec.testBit_toNat, getLsbD_marked hlen]
  have h1 : ¬ (i + (w - p.len) = w - 1 - p.len) := by omega
  by_cases hi : i < p.len
  · have h2 : i + (w - p.len) < w := by omega
    simp [h1, h2]
  · have hbit : p.bits.testBit i = false := by
      refine Nat.testBit_lt_two_pow (lt_of_lt_of_le p.lt ?_)
      exact Nat.pow_le_pow_right (by omega) (by omega)
    simp [h1, hbit]

theorem ofWord_marked_child {w : Nat} {p : BitPrefix} {b : Bool} (hlen : p.len + 1 < w) :
    ofWord p.len (marked w (p.child b)) (by omega) = p := by
  have hchild := congrArg bits (ofWord_marked (p:=p.child b) hlen)
  refine ext rfl ?_
  show (marked w (p.child b)).toNat / 2^(w - p.len) = p.bits
  have hbits : (marked w (p.child b)).toNat / 2^(w - (p.len + 1)) = 2 * p.bits + b.toNat := hchild
  have hpow : 2^(w - p.len) = 2^(w - (p.len + 1)) * 2 := by
    rw [← Nat.pow_succ]
    congr 1
    omega
  have hb := Bool.toNat_le b
  rw [hpow, ← Nat.div_div_eq_div_mul, hbits]
  omega

/-- every word but zero is marked, by its lowest bit that is set -/
theorem exists_marked {w : Nat} {x : BitVec w} (hx : x ≠ 0) :
    ∃ p : BitPrefix, p.len < w ∧ x = marked w p := by
  have hex : ∃ i, x.getLsbD i = true := by
    by_contra hnone
    push Not at hnone
    refine hx (BitVec.eq_of_getLsbD_eq fun i _ => ?_)
    simpa using hnone i
  have hone := Nat.find_spec hex
  have hlt : Nat.find hex < w := BitVec.lt_of_getLsbD hone
  have hzero : ∀ j < Nat.find hex, x.getLsbD j = false := fun j hj => by
    simpa using Nat.find_min hex hj
  have hlen : w - 1 - Nat.find hex ≤ w := by omega
  refine ⟨ofWord (w - 1 - Nat.find hex) x hlen, show w - 1 - Nat.find hex < w by omega, ?_⟩
  refine BitVec.eq_of_getLsbD_eq fun i hi => ?_
  rw [getLsbD_marked (show w - 1 - Nat.find hex < w by omega)]
  show _ = (decide (i < w) && (decide (i = w - 1 - (w - 1 - Nat.find hex)) ||
    (decide (w - (w - 1 - Nat.find hex) ≤ i) &&
      (x.toNat / 2^(w - (w - 1 - Nat.find hex))).testBit (i - (w - (w - 1 - Nat.find hex))))))
  have h1 : w - 1 - (w - 1 - Nat.find hex) = Nat.find hex := by omega
  have h2 : w - (w - 1 - Nat.find hex) = Nat.find hex + 1 := by omega
  rw [h1, h2, Nat.testBit_div_two_pow, BitVec.testBit_toNat]
  rcases Nat.lt_trichotomy i (Nat.find hex) with hlow | heq | hhigh
  · rw [hzero i hlow]
    have hn : ¬ (Nat.find hex + 1 ≤ i) := by omega
    simp [hlow.ne, hn]
  · rw [heq, hone]
    simp [hlt]
  · have hsub : i - (Nat.find hex + 1) + (Nat.find hex + 1) = i := by omega
    rw [hsub]
    simp [hi, hhigh.ne', show Nat.find hex + 1 ≤ i from hhigh]

/-! ## bit operations -/

/-- the first `len` bits -/
def topMask (w len : Nat) : BitVec w := BitVec.allOnes w <<< (w - len)

theorem getLsbD_topMask (w len i : Nat) :
    (topMask w len).getLsbD i = (decide (i < w) && decide (w - len ≤ i)) := by
  unfold topMask
  rw [BitVec.getLsbD_shiftLeft, BitVec.getLsbD_allOnes]
  by_cases h : w - len ≤ i
  · have hn : ¬ (i < w - len) := by omega
    simp [h, hn]
    omega
  · have hlt : i < w - len := by omega
    simp [h, hlt]

theorem getLsbD_one_shiftLeft {w n : Nat} (hn : n < w) (i : Nat) :
    ((1#w) <<< n).getLsbD i = decide (i = n) := by
  have h := BitVec.getLsbD_twoPow (w := w) n i
  rw [BitVec.twoPow] at h
  rw [h]
  by_cases hi : i = n
  · simp [hi, hn]
  · simp [hi, Ne.symm hi]

/-- two words have the same first bits -/
theorem and_topMask_eq_iff {w len : Nat} (hlen : len ≤ w) {x y : BitVec w} :
    x &&& topMask w len = y &&& topMask w len ↔ ofWord len x hlen = ofWord len y hlen := by
  constructor
  · intro h
    refine ext rfl (Nat.eq_of_testBit_eq fun i => ?_)
    show (x.toNat / 2^(w - len)).testBit i = (y.toNat / 2^(w - len)).testBit i
    rw [Nat.testBit_div_two_pow, Nat.testBit_div_two_pow, BitVec.testBit_toNat, BitVec.testBit_toNat]
    have hbit := congrArg (fun z : BitVec w => z.getLsbD (i + (w - len))) h
    simp only [BitVec.getLsbD_and, getLsbD_topMask] at hbit
    by_cases hi : i + (w - len) < w
    · simpa only [hi, Nat.le_add_left, decide_true, Bool.and_true] using hbit
    · rw [BitVec.getLsbD_of_ge _ _ (by omega), BitVec.getLsbD_of_ge _ _ (by omega)]
  · intro h
    refine BitVec.eq_of_getLsbD_eq fun i hi => ?_
    rw [BitVec.getLsbD_and, BitVec.getLsbD_and, getLsbD_topMask]
    by_cases hle : w - len ≤ i
    · have hbits : x.toNat / 2^(w - len) = y.toNat / 2^(w - len) := congrArg bits h
      have hbit := congrArg (fun n => n.testBit (i - (w - len))) hbits
      simp only [Nat.testBit_div_two_pow, BitVec.testBit_toNat] at hbit
      rw [Nat.sub_add_cancel hle] at hbit
      rw [hbit]
    · simp [hle]

/-- the child with bit 0: the marker is cleared and set one place lower -/
theorem marked_child_false {w : Nat} {p : BitPrefix} (hlen : p.len + 1 < w) :
    marked w p &&& ~~~((1#w) <<< (w - 1 - p.len)) ||| (1#w) <<< (w - 2 - p.len)
      = marked w (p.child false) := by
  refine BitVec.eq_of_getLsbD_eq fun i hi => ?_
  rw [BitVec.getLsbD_or, BitVec.getLsbD_and, BitVec.getLsbD_not,
    getLsbD_one_shiftLeft (by omega), getLsbD_one_shiftLeft (by omega),
    getLsbD_marked (by omega), getLsbD_marked (by rw [child_len]; omega), child_len]
  have hmul : ∀ j, (p.child false).bits.testBit j = (decide (1 ≤ j) && p.bits.testBit (j - 1)) := by
    intro j
    cases j with
    | zero => exact testBit_child_zero p false
    | succ j => simpa using testBit_child_succ p false j
  rw [hmul]
  have e1 : w - 1 - (p.len + 1) = w - 2 - p.len := by omega
  have e2 : i - (w - (p.len + 1)) - 1 = i - (w - p.len) := by omega
  rw [e1, e2]
  by_cases h1 : i = w - 2 - p.len
  · simp [h1]
    omega
  by_cases h2 : i = w - 1 - p.len
  · have h4 : ¬ (1 ≤ i - (w - (p.len + 1))) := by omega
    rw [decide_eq_true h2, decide_eq_false h1, decide_eq_false h4]
    simp
  by_cases h3 : w - p.len ≤ i
  · have h4 : w - (p.len + 1) ≤ i := by omega
    have h5 : 1 ≤ i - (w - (p.len + 1)) := by omega
    simp [hi, h1, h2, h3, h4, h5]
  · have h4 : ¬ (1 ≤ i - (w - (p.len + 1))) := by omega
    simp [h1, h2, h3, h4]

/-- the child with bit 1: the marker stays as the new bit -/
theorem marked_child_true {w : Nat} {p : BitPrefix} (hlen : p.len + 1 < w) :
    marked w p ||| (1#w) <<< (w - 1 - p.len) ||| (1#w) <<< (w - 2 - p.len)
      = marked w (p.child true) := by
  refine BitVec.eq_of_getLsbD_eq fun i hi => ?_
  rw [BitVec.getLsbD_or, BitVec.getLsbD_or,
    getLsbD_one_shiftLeft (by omega), getLsbD_one_shiftLeft (by omega),
    getLsbD_marked (by omega), getLsbD_marked (by rw [child_len]; omega), child_len, child_bits]
  have hodd : ∀ j, (2 * p.bits + true.toNat).testBit j
      = (decide (j = 0) || (decide (1 ≤ j) && p.bits.testBit (j - 1))) := testBit_odd p.bits
  rw [hodd]
  have e1 : w - 1 - (p.len + 1) = w - 2 - p.len := by omega
  have e2 : i - (w - (p.len + 1)) - 1 = i - (w - p.len) := by omega
  rw [e1, e2]
  by_cases h1 : i = w - 2 - p.len
  · simp [h1]
    omega
  by_cases h2 : i = w - 1 - p.len
  · simp [h2]
    omega
  by_cases h3 : w - p.len ≤ i
  · have h4 : w - (p.len + 1) ≤ i := by omega
    have h5 : 1 ≤ i - (w - (p.len + 1)) := by omega
    have h6 : i - (w - (p.len + 1)) ≠ 0 := by omega
    simp [hi, h1, h2, h3, h4, h5, h6]
  · have h4 : ¬ (w - (p.len + 1) ≤ i) := by omega
    simp [h1, h2, h3, h4]

/-- the first bits of a word, marked -/
theorem marked_ofWord {w len : Nat} (hlen : len < w) (x : BitVec w) :
    x &&& topMask w len ||| (1#w) <<< (w - 1 - len) = marked w (ofWord len x hlen.le) := by
  refine BitVec.eq_of_getLsbD_eq fun i hi => ?_
  rw [BitVec.getLsbD_or, BitVec.getLsbD_and, getLsbD_topMask, getLsbD_one_shiftLeft (by omega),
    getLsbD_marked (show (ofWord len x hlen.le).len < w from hlen)]
  show _ = (decide (i < w) && (decide (i = w - 1 - len) ||
    (decide (w - len ≤ i) && (x.toNat / 2^(w - len)).testBit (i - (w - len)))))
  by_cases hle : w - len ≤ i
  · rw [Nat.testBit_div_two_pow, BitVec.testBit_toNat, Nat.sub_add_cancel hle]
    simp [hi, hle]
    exact Bool.or_comm _ _
  · simp [hi, hle]

/-- two marked words differ, among the bits of their prefixes, in the last one only -/
theorem xor_marked_iff {w : Nat} {p q : BitPrefix} (hlen : q.len = p.len) (hw : p.len < w)
    (hpos : p.len ≠ 0) :
    (marked w p ^^^ marked w q) &&& topMask w p.len = (1#w) <<< (w - p.len) ↔
      ∀ j < p.len, (p.bits.testBit j ^^ q.bits.testBit j) = decide (j = 0) := by
  have hbits : ∀ i < w, ((marked w p ^^^ marked w q) &&& topMask w p.len).getLsbD i
        = ((1#w) <<< (w - p.len)).getLsbD i
      ↔ (w - p.len ≤ i → (p.bits.testBit (i - (w - p.len)) ^^ q.bits.testBit (i - (w - p.len)))
        = decide (i - (w - p.len) = 0)) := by
    intro i hi
    rw [BitVec.getLsbD_and, BitVec.getLsbD_xor, getLsbD_topMask,
      getLsbD_one_shiftLeft (by omega), getLsbD_marked hw, getLsbD_marked (by omega), hlen]
    by_cases hle : w - p.len ≤ i
    · have h1 : ¬ (i = w - 1 - p.len) := by omega
      have h2 : (i = w - p.len) ↔ (i - (w - p.len) = 0) := by omega
      simp [hi, hle, h1, h2]
    · have h2 : ¬ (i = w - p.len) := by omega
      simp [hle, h2]
  constructor
  · intro h j hj
    have hi := (hbits (j + (w - p.len)) (by omega)).mp (by rw [h]) (by omega)
    rw [Nat.add_sub_cancel] at hi
    exact hi
  · intro h
    exact BitVec.eq_of_getLsbD_eq fun i hi => (hbits i hi).mpr fun _ => h _ (by omega)

/-- **Two prefixes of one length are siblings exactly when their marked words differ, among the bits
of the prefix, in the last one.** -/
theorem siblings_iff {w : Nat} {p q : BitPrefix} (hlen : q.len = p.len) (hw : p.len < w)
    (hpos : p.len ≠ 0) :
    (marked w p ^^^ marked w q) &&& topMask w p.len = (1#w) <<< (w - p.len) ↔
      ∃ r b, p = child r b ∧ q = child r (!b) := by
  rw [xor_marked_iff hlen hw hpos]
  obtain ⟨r, b, rfl⟩ := exists_child hpos
  obtain ⟨s, b', rfl⟩ := exists_child (p:=q) (by omega)
  have hsr : r.len = s.len := by
    rw [child_len, child_len] at hlen
    omega
  constructor
  · intro h
    have h0 := h 0 (by rw [child_len]; omega)
    rw [testBit_child_zero, testBit_child_zero] at h0
    have hrs : r = s := ext_testBit hsr fun j hj => by
      have hs := h (j + 1) (by rw [child_len]; omega)
      rw [testBit_child_succ, testBit_child_succ] at hs
      simpa using hs
    refine ⟨r, b, rfl, ?_⟩
    rw [← hrs]
    cases b <;> cases b' <;> simp at h0 ⊢
  · rintro ⟨t, d, h1, h2⟩ j _
    obtain ⟨rfl, rfl⟩ := child_inj h1
    obtain ⟨rfl, rfl⟩ := child_inj h2
    cases j with
    | zero =>
      rw [testBit_child_zero, testBit_child_zero]
      cases b <;> rfl
    | succ j =>
      rw [testBit_child_succ, testBit_child_succ]
      simp

end BitPrefix
