import Mathlib.Data.Nat.Basic
import Mathlib.Data.List.Basic
import Mathlib.Tactic.Ring

/-!
# Big-endian numerals

`beBytes n v` are the `n` big-endian bytes of `v` (the high part is cut off), `beNat` reads a
byte string as a number.  `beNat_beBytes` and `beBytes_beNat` are the round trips;
`append_inj_be` takes the head of a concatenation of fixed-width fields apart; `field_skip` and
`field_head` read one of them.
-/

abbrev Byte := BitVec 8
abbrev Bytes := List Byte

def beBytes : Nat → Nat → Bytes
  | 0, _ => []
  | n+1, v => BitVec.ofNat 8 (v / 256^n) :: beBytes n v

/-- the number with the big-endian digits `bs` after the digits of `acc` -/
def beNatFrom (acc : Nat) : Bytes → Nat
  | [] => acc
  | b :: bs => beNatFrom (256 * acc + b.toNat) bs

def beNat (bs : Bytes) : Nat := beNatFrom 0 bs

@[simp] theorem length_beBytes (n v : Nat) : (beBytes n v).length = n := by
  induction n with
  | zero => rfl
  | succ n ih => exact congrArg Nat.succ ih

theorem beNatFrom_eq (acc : Nat) (bs : Bytes) :
    beNatFrom acc bs = 256^bs.length * acc + beNat bs := by
  induction bs generalizing acc with
  | nil => show acc = 256^0 * acc + 0; omega
  | cons b bs ih =>
    show beNatFrom (256 * acc + b.toNat) bs = 256^(bs.length + 1) * acc + beNatFrom (256 * 0 + b.toNat) bs
    rw [ih, ih, Nat.pow_succ]
    ring

theorem beNat_cons (b : Byte) (bs : Bytes) :
    beNat (b :: bs) = 256^bs.length * b.toNat + beNat bs := by
  show beNatFrom (256 * 0 + b.toNat) bs = _
  rw [beNatFrom_eq, Nat.mul_zero, Nat.zero_add]

theorem beNat_lt (bs : Bytes) : beNat bs < 256^bs.length := by
  induction bs with
  | nil => exact Nat.one_pos
  | cons b bs ih =>
    rw [beNat_cons, List.length_cons, Nat.pow_succ]
    have hb : b.toNat < 256 := b.isLt
    have h1 : 256^bs.length * (b.toNat + 1) ≤ 256^bs.length * 256 := Nat.mul_le_mul_left _ hb
    rw [Nat.mul_succ] at h1
    omega

theorem beNat_beBytes (n v : Nat) : beNat (beBytes n v) = v % 256^n := by
  induction n with
  | zero => rw [Nat.pow_zero, Nat.mod_one]; rfl
  | succ n ih =>
    show beNat (BitVec.ofNat 8 (v / 256^n) :: beBytes n v) = _
    have hdig : v % (256^n * 256) = v % 256^n + 256^n * (v / 256^n % 256) := Nat.mod_mul
    have hbyte : (BitVec.ofNat 8 (v / 256^n)).toNat = v / 256^n % 256 := BitVec.toNat_ofNat _ _
    rw [beNat_cons, ih, length_beBytes, hbyte, Nat.pow_succ, hdig]
    exact Nat.add_comm _ _

/-- a byte string is the encoding of the number it reads as -/
theorem beBytes_beNat (bs : Bytes) : beBytes bs.length (beNat bs) = bs := by
  have key : ∀ (bs : Bytes) (k : Nat), beBytes bs.length (256^bs.length * k + beNat bs) = bs := by
    intro bs
    induction bs with
    | nil => intro k; rfl
    | cons b bs ih =>
      intro k
      have hlt := beNat_lt bs
      have hpos : 0 < 256^bs.length := Nat.pow_pos (by omega)
      have hval : 256^(bs.length + 1) * k + beNat (b :: bs)
          = 256^bs.length * (256 * k + b.toNat) + beNat bs := by
        rw [beNat_cons, Nat.pow_succ]
        ring
      show BitVec.ofNat 8 ((256^(bs.length + 1) * k + beNat (b :: bs)) / 256^bs.length)
        :: beBytes bs.length (256^(bs.length + 1) * k + beNat (b :: bs)) = b :: bs
      rw [hval, ih, Nat.mul_add_div hpos, Nat.div_eq_of_lt hlt]
      congr 1
      apply BitVec.eq_of_toNat_eq
      have hb : b.toNat < 256 := b.isLt
      rw [BitVec.toNat_ofNat]
      omega
  simpa using key bs 0

theorem beBytes_inj {n u v : Nat} (hu : u < 256^n) (hv : v < 256^n)
    (h : beBytes n u = beBytes n v) : u = v := by
  have h1 := congrArg beNat h
  rwa [beNat_beBytes, beNat_beBytes, Nat.mod_eq_of_lt hu, Nat.mod_eq_of_lt hv] at h1

/-- numerals of one length are ordered as the numbers -/
theorem lt_of_beNat_lt {a b : Bytes} (hlen : a.length = b.length) (h : beNat a < beNat b) : a < b := by
  induction a generalizing b with
  | nil =>
    rw [List.eq_nil_of_length_eq_zero hlen.symm] at h
    exact absurd h (Nat.lt_irrefl _)
  | cons x xs ih =>
    cases b with
    | nil => cases hlen
    | cons y ys =>
      have hrest : xs.length = ys.length := Nat.succ.inj hlen
      have hys := beNat_lt ys
      rw [beNat_cons, beNat_cons, hrest] at h
      rw [List.cons_lt_cons_iff]
      rcases Nat.lt_trichotomy x.toNat y.toNat with hlt | heq | hgt
      · exact .inl (BitVec.lt_def.mpr hlt)
      · rw [heq] at h
        exact .inr ⟨BitVec.eq_of_toNat_eq heq, ih hrest (by omega)⟩
      · have hmul : 256^ys.length * (y.toNat + 1) ≤ 256^ys.length * x.toNat :=
          Nat.mul_le_mul_left _ hgt
        rw [Nat.mul_succ] at hmul
        omega

theorem append_lt_be {a b c d : Bytes} (hlen : a.length = b.length) (h : a < b) : a ++ c < b ++ d := by
  induction a generalizing b with
  | nil =>
    rw [List.eq_nil_of_length_eq_zero hlen.symm] at h
    exact absurd h (List.lt_irrefl _)
  | cons x xs ih =>
    cases b with
    | nil => cases hlen
    | cons y ys =>
      rw [List.cons_lt_cons_iff] at h
      rw [List.cons_append, List.cons_append, List.cons_lt_cons_iff]
      exact h.imp_right fun ⟨heq, hlt⟩ => ⟨heq, ih (Nat.succ.inj hlen) hlt⟩

/-- the first bytes of a numeral are those of its high part -/
theorem take_beBytes {n k : Nat} (v : Nat) (h : k ≤ n) :
    (beBytes n v).take k = beBytes k (v / 256^(n - k)) := by
  induction n generalizing k with
  | zero =>
    have hk : k = 0 := by omega
    rw [hk]
    rfl
  | succ n ih =>
    cases k with
    | zero => rfl
    | succ k =>
      have hpow : 256^(n - k) * 256^k = 256^n := by
        rw [← Nat.pow_add]
        congr 1
        omega
      show BitVec.ofNat 8 (v / 256^n) :: (beBytes n v).take k
        = BitVec.ofNat 8 (v / 256^(n + 1 - (k + 1)) / 256^k) :: beBytes k (v / 256^(n + 1 - (k + 1)))
      rw [ih (by omega), Nat.add_sub_add_right, Nat.div_div_eq_div_mul, hpow]

/-- two concatenations of a fixed-width field and a rest -/
theorem append_inj_be {a b c d : Bytes} (hlen : a.length = c.length) (h : a ++ b = c ++ d) :
    a = c ∧ b = d := List.append_inj h hlen

/-- records of one size, one after the other -/
theorem length_flatMap_be {α : Type} {f : α → Bytes} {n : Nat} (hlen : ∀ a, (f a).length = n)
    (xs : List α) : (xs.flatMap f).length = xs.length * n := by
  induction xs with
  | nil => rw [List.flatMap_nil, List.length_nil, List.length_nil, Nat.zero_mul]
  | cons x xs ih =>
    rw [List.flatMap_cons, List.length_append, ih, hlen, List.length_cons, Nat.succ_mul, Nat.add_comm]

theorem flatMap_inj_be {α : Type} {f : α → Bytes} {n : Nat} (hn : 0 < n)
    (hlen : ∀ a, (f a).length = n) (hinj : ∀ a b, f a = f b → a = b) {xs ys : List α}
    (h : xs.flatMap f = ys.flatMap f) : xs = ys := by
  induction xs generalizing ys with
  | nil =>
    cases ys with
    | nil => rfl
    | cons y ys =>
      have hempty := congrArg List.length h
      rw [List.flatMap_nil, List.flatMap_cons, List.length_append, hlen, List.length_nil] at hempty
      omega
  | cons x xs ih =>
    cases ys with
    | nil =>
      have hempty := congrArg List.length h
      rw [List.flatMap_nil, List.flatMap_cons, List.length_append, hlen, List.length_nil] at hempty
      omega
    | cons y ys =>
      rw [List.flatMap_cons, List.flatMap_cons] at h
      obtain ⟨hhead, htail⟩ := append_inj_be ((hlen x).trans (hlen y).symm) h
      rw [hinj x y hhead, ih htail]

/-! ## words -/

/-- the `n` big-endian bytes of a word (`to_be_bytes`, `encode`) -/
def encodeWord (n : Nat) {w : Nat} (x : BitVec w) : Bytes := beBytes n x.toNat

/-- the word with the given big-endian bytes (`from_be_bytes`) -/
def decodeWord (w : Nat) (bs : Bytes) : BitVec w := BitVec.ofNat w (beNat bs)

@[simp] theorem length_encodeWord (n : Nat) {w : Nat} (x : BitVec w) :
    (encodeWord n x).length = n := length_beBytes _ _

theorem pow256 (n : Nat) : 256^n = 2^(8 * n) := by
  rw [Nat.pow_mul]

theorem encodeWord_inj {n w : Nat} (hw : w = 8 * n) {x y : BitVec w}
    (h : encodeWord n x = encodeWord n y) : x = y := by
  have hx : x.toNat < 256^n := by rw [pow256, ← hw]; exact x.isLt
  have hy : y.toNat < 256^n := by rw [pow256, ← hw]; exact y.isLt
  exact BitVec.eq_of_toNat_eq (beBytes_inj hx hy h)

theorem encodeWord_lt {n w : Nat} (hw : w = 8 * n) {x y : BitVec w} (h : x < y) :
    encodeWord n x < encodeWord n y := by
  have hmod : ∀ z : BitVec w, z.toNat % 256^n = z.toNat := fun z => by
    rw [pow256, ← hw]
    exact Nat.mod_eq_of_lt z.isLt
  refine lt_of_beNat_lt (by simp) ?_
  unfold encodeWord
  rw [beNat_beBytes, beNat_beBytes, hmod, hmod]
  exact BitVec.lt_def.mp h

theorem decodeWord_encodeWord {n w : Nat} (hw : w = 8 * n) (x : BitVec w) :
    decodeWord w (encodeWord n x) = x := by
  apply BitVec.eq_of_toNat_eq
  have hx := x.isLt
  rw [decodeWord, BitVec.toNat_ofNat, encodeWord, beNat_beBytes, pow256, ← hw,
    Nat.mod_eq_of_lt hx, Nat.mod_eq_of_lt hx]

theorem encodeWord_decodeWord {n w : Nat} (hw : w = 8 * n) {bs : Bytes} (hlen : bs.length = n) :
    encodeWord n (decodeWord w bs) = bs := by
  have hlt := beNat_lt bs
  rw [hlen, pow256, ← hw] at hlt
  rw [encodeWord, decodeWord, BitVec.toNat_ofNat, Nat.mod_eq_of_lt hlt, ← hlen, beBytes_beNat]

/-! ## fields -/

/-- the bytes from `start` to `stop` -/
def field (bytes : Bytes) (start stop : Nat) : Bytes := (bytes.drop start).take (stop - start)

theorem field_head {a b : Bytes} {stop : Nat} (h : a.length = stop) :
    field (a ++ b) 0 stop = a := by
  unfold field
  rw [List.drop_zero, Nat.sub_zero, List.take_left' h]

theorem drop_skip {a b : Bytes} {start : Nat} (h : a.length ≤ start) :
    (a ++ b).drop start = b.drop (start - a.length) := by
  rw [List.drop_append, List.drop_eq_nil_of_le h, List.nil_append]

theorem field_skip {a b : Bytes} {start stop : Nat} (h : a.length ≤ start) :
    field (a ++ b) start stop = field b (start - a.length) (stop - a.length) := by
  unfold field
  rw [drop_skip h]
  congr 1
  omega

theorem length_field {bytes : Bytes} {start stop : Nat} (h : stop ≤ bytes.length) :
    (field bytes start stop).length = stop - start := by
  unfold field
  rw [List.length_take, List.length_drop]
  omega

theorem take_append_field (bytes : Bytes) {start stop : Nat} (h : start ≤ stop) :
    bytes.take start ++ field bytes start stop = bytes.take stop := by
  have hstop : stop = start + (stop - start) := by omega
  rw [hstop, List.take_add]
  unfold field
  rw [Nat.add_sub_cancel_left]

theorem field_append (bytes : Bytes) {start mid stop : Nat} (h : start ≤ mid) (h' : mid ≤ stop) :
    field bytes start mid ++ field bytes mid stop = field bytes start stop := by
  have hmid : mid = start + (mid - start) := by omega
  have hstop : stop - start = (mid - start) + (stop - mid) := by omega
  unfold field
  rw [hstop, List.take_add, List.drop_drop, ← hmid]

theorem field_append_drop (bytes : Bytes) {start stop : Nat} (h : start ≤ stop) :
    field bytes start stop ++ bytes.drop stop = bytes.drop start := by
  have hstop : stop = start + (stop - start) := by omega
  have hdrop : bytes.drop stop = (bytes.drop start).drop (stop - start) := by
    rw [List.drop_drop, ← hstop]
  rw [hdrop]
  exact List.take_append_drop _ _

/-- a field within a field -/
theorem field_field (bytes : Bytes) {start stop a b : Nat} (h : start + b ≤ stop) :
    field (field bytes start stop) a b = field bytes (start + a) (start + b) := by
  unfold field
  rw [List.drop_take, List.drop_drop, List.take_take]
  congr 1
  omega

theorem field_zero (bytes : Bytes) (stop : Nat) : field bytes 0 stop = bytes.take stop := by
  unfold field
  rw [List.drop_zero, Nat.sub_zero]

/-- a field of the width of a word is the word it reads as -/
theorem encodeWord_field {n w : Nat} (hw : w = 8 * n) {bytes : Bytes} {start stop : Nat}
    (hstop : stop ≤ bytes.length) (hn : stop - start = n) :
    encodeWord n (decodeWord w (field bytes start stop)) = field bytes start stop :=
  encodeWord_decodeWord hw ((length_field hstop).trans hn)
