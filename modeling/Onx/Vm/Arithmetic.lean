import Onx.Vm.Supplied

/-!
# When baseline arithmetic is exact

The opcodes from 0x10 to 0x15 read a width and a flavor, and compute with the low halves of their
operands whatever these say.

* `Baseline`             the six instructions, with their mathematical results;
* `demanded`             what is asked for: results that fit, reduced results, or an overflow;
* `computed`             what the code computes from machine integers; `step_baseline`;
* `Faithful`             the operands, widths and flavors at which the two are the same;
* `baseline_exact_iff`   **when an instruction is exact**;
* `add_ignores_width`    a sum that does not fit.
-/

namespace Onx.Vm
open Machine TwosComplement

/-! ## answers -/

inductive Answer where
  /-- results, the last of which comes to the top of the stack -/
  | results (rs : List Int)
  | overflow
  | panic

/-- a result in the range of the machine -/
def Answer.checked (x : Int) : Answer := if InRange 128 x then .results [x] else .overflow

/-- the words of results on top of a stack -/
def pushWords (words : List Uint256) (rest : List StackValue) : List StackValue :=
  words.reverse.map .integer ++ rest

/-- a step of an instruction of `bytes` bytes does as the answer says -/
def Answer.Done (c : Crypto) (s : Interpreter) (gas bytes : Nat) (rest : List StackValue) :
    Answer → Prop
  | .results rs => step c s = .ok true (behind s gas bytes (pushWords (rs.map word) rest))
  | .overflow => ∃ t, step c s = .err .integerOverflow t
  | .panic => step c s = .panic

/-- answers with the same words -/
def Answer.Same : Answer → Answer → Prop
  | .results rs, .results ts => rs.map word = ts.map word
  | .overflow, .overflow => True
  | .panic, .panic => True
  | _, _ => False

theorem pushWords_inj {xs ys : List Uint256} {rest : List StackValue}
    (h : pushWords xs rest = pushWords ys rest) : xs = ys := by
  have hinteger : Function.Injective StackValue.integer := fun x y hxy => by
    cases hxy
    rfl
  exact List.reverse_injective (List.map_injective_iff.mpr hinteger (List.append_cancel_right h))

section
variable {c : Crypto} {s : Interpreter} {gas bytes : Nat} {rest : List StackValue} {ans : Answer}

/-- **A step does as one answer says**, up to the words of its results. -/
theorem done_iff (h : ans.Done c s gas bytes rest) (asked : Answer) :
    asked.Done c s gas bytes rest ↔ asked.Same ans := by
  cases ans with
  | results ts =>
    have hstep : step c s = _ := h
    cases asked with
    | results rs =>
      show step c s = .ok true (behind s gas bytes (pushWords (rs.map word) rest))
        ↔ rs.map word = ts.map word
      rw [hstep]
      constructor
      · intro heq
        injection heq with _ hstate
        exact (pushWords_inj (congrArg Interpreter.stack hstate)).symm
      · intro hwords
        rw [hwords]
    | overflow => simp [Answer.Done, Answer.Same, hstep]
    | panic => simp [Answer.Done, Answer.Same, hstep]
  | overflow =>
    obtain ⟨t, hstep⟩ := h
    cases asked <;> simp [Answer.Done, Answer.Same, hstep]
  | panic =>
    have hstep : step c s = _ := h
    cases asked <;> simp [Answer.Done, Answer.Same, hstep]

end

/-! ## the six instructions -/

inductive Baseline where
  | add | sub | neg | mul | divMod | cmp
deriving DecidableEq

/-- three-way order -/
def order (a b : Int) : Int := if a < b then -1 else if a > b then 1 else 0

/-- a result fits the width, unsigned (flavor 0) or signed -/
def FitsIn (width : Nat) (flavor : Byte) (x : Int) : Prop :=
  if flavor = 0 then 0 ≤ x ∧ x < 2^width else InRange width x

instance (width : Nat) (flavor : Byte) (x : Int) : Decidable (FitsIn width flavor x) := by
  unfold FitsIn
  infer_instance

/-- mathematical results at a width and flavor: where they fit, or reduced -/
def asked (width : Nat) (flavor : Byte) (rs : List Int) : Answer :=
  if flavor = 2 then .results (rs.map (· % 2^width))
  else if ∀ r ∈ rs, FitsIn width flavor r then .results rs else .overflow

namespace Baseline

def opcode : Baseline → Opcode
  | .add => .add
  | .sub => .sub
  | .neg => .neg
  | .mul => .mul
  | .divMod => .divMod
  | .cmp => .cmp

def gas : Baseline → Nat
  | .mul | .divMod => 8
  | _ => 4

/-- the operands on the stack, the second on top; the negation has only the first -/
def operands (op : Baseline) (x y : Uint256) : List StackValue :=
  match op with
  | .neg => [.integer x]
  | _ => [.integer y, .integer x]

/-- the mathematical results; none for a division by zero -/
def exact : Baseline → Int → Int → Option (List Int)
  | .add, a, b => some [a + b]
  | .sub, a, b => some [a - b]
  | .neg, a, _ => some [-a]
  | .mul, a, b => some [a * b]
  | .divMod, a, b => if b = 0 then none else some [a.fdiv b, a.fmod b]
  | .cmp, a, b => some [order a b]

/-- what is asked of an instruction -/
def demanded (op : Baseline) (width : Nat) (flavor : Byte) (a b : Int) : Answer :=
  match op.exact a b with
  | none => .overflow
  | some rs => asked width flavor rs

/-- what the code computes from machine integers -/
def computed : Baseline → Int → Int → Answer
  | .add, a, b => .checked (a + b)
  | .sub, a, b => .checked (a - b)
  | .neg, a, _ => .checked (-a)
  | .mul, a, b => .checked (a * b)
  | .divMod, a, b =>
    if b = 0 then .overflow
    else if a = I128_MIN ∧ b = -1 then .panic
    else .results [a.tdiv b, a.tmod b]
  | .cmp, a, b => .results [order a b]

end Baseline

/-- an instruction with its gas, immediates and operands -/
structure BaselineAt (s : Interpreter) (op : Baseline) (width : Uint16) (flavor : Byte)
    (x y : Uint256) (rest : List StackValue) : Prop where
  opcode_eq : opcodeAt s = some op.opcode
  hasGas : HasGas s op.gas
  immediates_eq : immediates s.currentCode (s.pcBits + 8) = some (width, flavor)
  width_pos : 1 ≤ width.toNat
  width_le : width.toNat ≤ 256
  flavor_le : flavor.toNat ≤ 2
  stack_eq : s.stack = op.operands x y ++ rest
  stack_le : s.stack.length ≤ MAX_STACK_DEPTH

/-! ## what the code does -/

section
variable {s : Interpreter} {width : Uint16} {flavor : Byte} {x y : Uint256}
  {rest : List StackValue}

theorem arithmetic_eq {gas : Nat} {m : Instr Unit} (hgas : HasGas s gas)
    (himm : immediates s.currentCode s.pcBits = some (width, flavor)) (hpos : 1 ≤ width.toNat)
    (hle : width.toNat ≤ 256) :
    arithmetic gas m s = m { pay s gas with pcBits := s.pcBits + 8 + 8 + 8 } := by
  have hwidth : ¬ (width = 0 ∨ width > 256) := by
    rintro (rfl | hgt)
    · exact Nat.not_succ_le_zero _ hpos
    · exact absurd hgt (Nat.not_lt.mpr hle)
  unfold arithmetic
  rw [gas_bind hgas, immediates_bind (s := pay s gas) himm, bind_ok (failIf_neg hwidth _ _)]
  rfl

/-- a checked result, pushed -/
theorem checked_apply {r : Int} (hroom : s.stack.length < MAX_STACK_DEPTH) :
    (Prog.ofOption .integerOverflow (checkedI128 r) >>= pushI128) s
      = if InRange 128 r then .ok () { s with stack := .integer (word r) :: s.stack }
        else .err .integerOverflow s := by
  unfold checkedI128
  by_cases h : InRange 128 r
  · rw [if_pos h, if_pos (show -2^127 ≤ r ∧ r < 2^127 from h), ofOption_some_bind]
    exact push_ok hroom
  · rw [if_neg h, if_neg (show ¬ (-2^127 ≤ r ∧ r < 2^127) from h)]
    rfl

/-- towards zero, the quotient is a machine integer, but for one pair -/
theorem inRange_tdiv {a b : Int} (ha : InRange 128 a) (hb : b ≠ 0)
    (h : ¬ (a = I128_MIN ∧ b = -1)) : InRange 128 (a.tdiv b) := by
  by_contra hout
  refine h ((checkedI128_tdiv ha hb).mp ?_)
  unfold checkedI128
  exact if_neg hout

/-- quotient and remainder, pushed -/
theorem quotRem_apply {a b : Int} (ha : InRange 128 a) (hb : b ≠ 0)
    (hroom : s.stack.length + 2 ≤ MAX_STACK_DEPTH) :
    (Prog.expect (divI128 a b) >>= fun q => Prog.expect (remI128 a b) >>= fun r =>
      pushI128 q >>= fun _ => pushI128 r) s
      = if a = I128_MIN ∧ b = -1 then .panic
        else .ok () { s with stack := pushWords ([a.tdiv b, a.tmod b].map word) s.stack } := by
  unfold divI128 remI128
  by_cases hmin : a = I128_MIN ∧ b = -1
  · rw [if_neg hb, (checkedI128_tdiv ha hb).mpr hmin, if_pos hmin]
    rfl
  · have hq : checkedI128 (a.tdiv b) = some (a.tdiv b) := if_pos (inRange_tdiv ha hb hmin)
    rw [if_neg hb, hq, if_neg hmin, if_neg (not_or.mpr ⟨hb, hmin⟩), expect_some_bind,
      expect_some_bind]
    unfold pushI128
    rw [push_bind (by omega), push_ok (by rw [List.length_cons]; omega)]
    rfl

/-- a step is the body of its instruction on the operands -/
theorem step_arithmetic {c : Crypto} {op : Baseline} {m : Instr Unit}
    (hat : BaselineAt s op width flavor x y rest)
    (hexec : exec c op.opcode = goesOn (arithmetic op.gas m)) :
    step c s = goneOn (m (behind s op.gas 4 s.stack)) := by
  have hbody : arithmetic op.gas m (behindOpcode s) = m (behind s op.gas 4 s.stack) :=
    arithmetic_eq (s := behindOpcode s) hat.hasGas hat.immediates_eq hat.width_pos hat.width_le
  rw [step_goesOn hat.opcode_eq hexec, hbody]

/-- there is room where the operands were -/
theorem BaselineAt.room {op : Baseline} (hat : BaselineAt s op width flavor x y rest) :
    (op.operands x y).length + rest.length ≤ MAX_STACK_DEPTH := by
  have hle := hat.stack_le
  rw [hat.stack_eq, List.length_append] at hle
  exact hle

/-- two operands, and a result in the range of the machine -/
theorem done_binary {c : Crypto} {op : Baseline} {f : Int → Int → Int}
    (hat : BaselineAt s op width flavor x y rest)
    (hexec : exec c op.opcode = goesOn (arithmetic op.gas (popI128 >>= fun b => popI128 >>= fun a =>
      Prog.ofOption .integerOverflow (checkedI128 (f a b)) >>= pushI128)))
    (hoperands : op.operands x y = [.integer y, .integer x]) :
    (Answer.checked (f (toI128 x) (toI128 y))).Done c s op.gas 4 rest := by
  have hstack : s.stack = .integer y :: .integer x :: rest := by rw [hat.stack_eq, hoperands]; rfl
  have hroom : 2 + rest.length ≤ MAX_STACK_DEPTH := by
    have hle := hat.room
    rw [hoperands] at hle
    exact hle
  have hstep := step_arithmetic hat hexec
  rw [integer_bind (s := behind s op.gas 4 s.stack) hstack, integer_bind (x := x) (l := rest) rfl,
    checked_apply (by show rest.length < _; omega)] at hstep
  unfold Answer.checked
  split_ifs at hstep ⊢
  · exact hstep
  · exact ⟨_, hstep⟩

/-- **What the code does**: it computes with the low halves of the operands. -/
theorem step_baseline (c : Crypto) {op : Baseline} (hat : BaselineAt s op width flavor x y rest) :
    (op.computed (toI128 x) (toI128 y)).Done c s op.gas 4 rest := by
  cases op with
  | add => exact done_binary (f := (· + ·)) hat rfl rfl
  | sub => exact done_binary (f := (· - ·)) hat rfl rfl
  | mul => exact done_binary (f := (· * ·)) hat rfl rfl
  | neg =>
    have hroom : 1 + rest.length ≤ MAX_STACK_DEPTH := hat.room
    have hstep := step_arithmetic (c := c) hat rfl
    rw [integer_bind (s := behind s _ 4 s.stack) (x := x) (l := rest) hat.stack_eq,
      checked_apply (by show rest.length < _; omega)] at hstep
    show (Answer.checked (-toI128 x)).Done c s _ 4 rest
    unfold Answer.checked
    split_ifs at hstep ⊢
    · exact hstep
    · exact ⟨_, hstep⟩
  | divMod =>
    have hroom : 2 + rest.length ≤ MAX_STACK_DEPTH := hat.room
    have hstep := step_arithmetic (c := c) hat rfl
    rw [integer_bind (s := behind s _ 4 s.stack) (x := y) (l := .integer x :: rest) hat.stack_eq,
      integer_bind (x := x) (l := rest) rfl] at hstep
    show Answer.Done c s _ 4 rest (if toI128 y = 0 then _ else _)
    by_cases hzero : toI128 y = 0
    · rw [bind_err (failIf_pos hzero _ _)] at hstep
      rw [if_pos hzero]
      exact ⟨_, hstep⟩
    · rw [bind_ok (failIf_neg hzero _ _), quotRem_apply (toI128_range x) hzero
        (by show rest.length + 2 ≤ _; omega)] at hstep
      rw [if_neg hzero]
      split_ifs at hstep ⊢
      · exact hstep
      · exact hstep
  | cmp =>
    have hroom : 2 + rest.length ≤ MAX_STACK_DEPTH := hat.room
    have hstep := step_arithmetic (c := c) hat rfl
    rw [integer_bind (s := behind s _ 4 s.stack) (x := y) (l := .integer x :: rest) hat.stack_eq,
      integer_bind (x := x) (l := rest) rfl] at hstep
    unfold pushI128 at hstep
    rw [push_ok (by show rest.length < _; omega)] at hstep
    exact hstep

end

/-! ## when that is what is asked for -/

/-- the machine integer in the word of an integer -/
def low (x : Int) : Int := x.bmod (2^128)

/-- a result `r`, where `t` is the same computation on the low halves of the operands -/
def CarriesOver (width : Nat) (flavor : Byte) (r t : Int) : Prop :=
  if flavor = 2 then
    InRange 128 t
      ∧ if width < 128 then 0 ≤ t ∧ t < 2^width else InRange 128 ((r % 2^width).bmod (2^256))
  else (FitsIn width flavor r ↔ InRange 128 t)
    ∧ (FitsIn width flavor r → InRange 128 (r.bmod (2^256)))

/-- the low halves compare as the operands do, and the flavor has room for the outcome -/
def CmpFaithful (width : Nat) (flavor : Byte) (a b : Int) : Prop :=
  if flavor = 2 then
    b ≤ a ∧ order (low a) (low b) = order a b
      ∨ a < b ∧ (width = 256 ∧ low a < low b ∨ width = 1 ∧ low b < low a)
  else FitsIn width flavor (order a b) ∧ order (low a) (low b) = order a b

/-- `a` divided by `b` towards zero has quotient `q` and remainder `r` -/
def DividesTo (a b q r : Int) : Prop :=
  a = q * b + r ∧ r.natAbs < b.natAbs ∧ (0 ≤ a → 0 ≤ r) ∧ (a ≤ 0 → r ≤ 0)

/-- floored quotient and remainder fit, and are what the low halves give towards zero -/
def DivModFaithful (width : Nat) (flavor : Byte) (a b : Int) : Prop :=
  let q := a.fdiv b
  let r := a.fmod b
  let fits := FitsIn width flavor q ∧ FitsIn width flavor r
  b = 0 ∨ b ≠ 0 ∧
    if low b = 0 then flavor ≠ 2 ∧ ¬ fits
    else ¬ (low a = I128_MIN ∧ low b = -1) ∧
      if flavor = 2 then
        DividesTo (low a) (low b) ((q % 2^width).bmod (2^256)) ((r % 2^width).bmod (2^256))
      else fits ∧ DividesTo (low a) (low b) (q.bmod (2^256)) (r.bmod (2^256))

/-- the operands, widths and flavors at which an instruction is exact -/
def Baseline.Faithful (op : Baseline) (width : Nat) (flavor : Byte) (a b : Int) : Prop :=
  match op with
  | .add => CarriesOver width flavor (a + b) (low a + low b)
  | .sub => CarriesOver width flavor (a - b) (low a - low b)
  | .neg => CarriesOver width flavor (-a) (-low a)
  | .mul => CarriesOver width flavor (a * b) (low a * low b)
  | .divMod => DivModFaithful width flavor a b
  | .cmp => CmpFaithful width flavor a b

section
variable {width : Nat} {flavor : Byte} {a b q r t v : Int}

theorem inRange_low (x : Int) : InRange 128 (low x) := inRange_bmod (by decide) x

theorem low_emod (x : Int) : low x % 2^128 = x % 2^128 := bmod_emod_of_le (le_refl _) x

/-- a machine integer is told from others by its word -/
theorem word_eq_iff (ht : InRange 128 t) : word v = word t ↔ v.bmod (2^256) = t := by
  have hself : t.bmod (2^256) = t := (bmod_eq_self_iff (by decide)).mpr (ht.mono (by decide))
  unfold word
  rw [ofInt_eq_iff, hself]

theorem bmod_eq_iff_inRange (ht : InRange 128 t) (hvt : v % 2^128 = t % 2^128) :
    v.bmod (2^256) = t ↔ InRange 128 (v.bmod (2^256)) := by
  constructor
  · intro h
    rw [h]
    exact ht
  · intro h
    refine eq_of_inRange (by decide) h ht ?_
    rw [bmod_emod_of_le (by decide), hvt]

theorem same_checked {rs : List Int} :
    (Answer.results rs).Same (.checked t) ↔ InRange 128 t ∧ rs.map word = [word t] := by
  unfold Answer.checked
  split_ifs with h
  · exact ⟨fun hs => ⟨h, hs⟩, fun hs => hs.2⟩
  · exact iff_of_false id fun hs => h hs.1

theorem overflow_same_checked : Answer.overflow.Same (.checked t) ↔ ¬ InRange 128 t := by
  unfold Answer.checked
  split_ifs with h
  · exact iff_of_false id fun hn => hn h
  · exact iff_of_true trivial h

theorem single_word : [v].map word = [word t] ↔ word v = word t := by simp

/-- **Results that are computed modulo `2^128`.** -/
theorem carriesOver_iff (hrt : r % 2^128 = t % 2^128) :
    (asked width flavor [r]).Same (.checked t) ↔ CarriesOver width flavor r t := by
  unfold asked CarriesOver
  split_ifs with hflavor hwidth hfits
  · -- reduced, below 128 bits: the reduced result is the computation itself
    rw [same_checked]
    refine and_congr_right fun ht => ?_
    have hpow : (0 : Int) < 2^width := Int.pow_pos (by decide)
    have hpow' : (2 : Int)^width ≤ 2^127 := pow_le_pow_right₀ (by decide) (by omega)
    have hnonneg := Int.emod_nonneg r hpow.ne'
    have hlt := Int.emod_lt_of_pos r hpow
    have hself : (r % 2^width).bmod (2^256) = r % 2^width :=
      (bmod_eq_self_iff (by decide)).mpr ⟨by omega, by omega⟩
    have hmod : r % 2^width = t % 2^width := emod_eq_of_le (by omega : width ≤ 128) hrt
    show [r % 2^width].map word = [word t] ↔ _
    rw [single_word, word_eq_iff ht, hself]
    constructor
    · intro h
      exact ⟨by omega, by omega⟩
    · rintro ⟨h0, h1⟩
      rw [hmod, Int.emod_eq_of_lt h0 h1]
  · rw [same_checked]
    refine and_congr_right fun ht => ?_
    have hdvd : (2 : Int)^128 ∣ 2^width := pow_dvd_pow 2 (by omega)
    show [r % 2^width].map word = [word t] ↔ _
    rw [single_word, word_eq_iff ht, bmod_eq_iff_inRange ht]
    rw [Int.emod_emod_of_dvd r hdvd, hrt]
  · have hr : FitsIn width flavor r := hfits r List.mem_cons_self
    rw [same_checked, single_word]
    constructor
    · rintro ⟨ht, hword⟩
      rw [word_eq_iff ht] at hword
      exact ⟨iff_of_true hr ht, fun _ => by rw [hword]; exact ht⟩
    · rintro ⟨hiff, hrange⟩
      have ht := hiff.mp hr
      exact ⟨ht, (word_eq_iff ht).mpr ((bmod_eq_iff_inRange ht hrt).mpr (hrange hr))⟩
  · have hr : ¬ FitsIn width flavor r := fun h => hfits fun x hx => by
      rw [List.mem_singleton.mp hx]
      exact h
    rw [overflow_same_checked]
    exact ⟨fun ht => ⟨iff_of_false hr ht, fun h => absurd h hr⟩, fun h ht => hr (h.1.mpr ht)⟩

theorem order_cases (a b : Int) : (a < b ∧ order a b = -1) ∨ (a = b ∧ order a b = 0)
    ∨ (b < a ∧ order a b = 1) := by
  unfold order
  split_ifs with hlt hgt
  · exact Or.inl ⟨hlt, rfl⟩
  · exact Or.inr (Or.inr ⟨hgt, rfl⟩)
  · exact Or.inr (Or.inl ⟨by omega, rfl⟩)

theorem inRange_order (a b : Int) : InRange 128 (order a b) := by
  rcases order_cases a b with ⟨_, h⟩ | ⟨_, h⟩ | ⟨_, h⟩ <;> rw [h] <;> decide

/-- an order that is not negative is its own remainder -/
theorem order_emod (hpos : 1 ≤ width) (h : b ≤ a) : order a b % 2^width = order a b := by
  have hpow : (2 : Int)^1 ≤ 2^width := pow_le_pow_right₀ (by decide) hpos
  refine Int.emod_eq_of_lt ?_ ?_ <;> rcases order_cases a b with h' | h' | h' <;> omega

/-- the word of a reduced -1 is that of an order only at the two ends of the widths -/
theorem word_reduced_neg_one (hpos : 1 ≤ width) (hle : width ≤ 256) (c d : Int) :
    word (-1 % 2^width) = word (order c d) ↔ width = 256 ∧ c < d ∨ width = 1 ∧ d < c := by
  have hpow : (2 : Int)^1 ≤ 2^width := pow_le_pow_right₀ (by decide) hpos
  have hred : -1 % (2 : Int)^width = 2^width - 1 := by
    rw [Int.emod_eq_iff (by omega)]
    exact ⟨by omega, by omega, ⟨1, by ring⟩⟩
  rw [word_eq_iff (inRange_order c d), hred]
  have horder := order_cases c d
  by_cases htop : width = 256
  · have hneg : ((2 : Int)^width - 1).bmod (2^256) = -1 := by
      rw [htop]
      decide
    rw [hneg]
    omega
  · have hpow' : (2 : Int)^width ≤ 2^255 := pow_le_pow_right₀ (by decide) (by omega)
    have hself : ((2 : Int)^width - 1).bmod (2^256) = 2^width - 1 :=
      (bmod_eq_self_iff (by decide)).mpr ⟨by omega, by omega⟩
    rw [hself]
    by_cases hone : width = 1
    · subst hone
      omega
    · have hpow2 : (2 : Int)^2 ≤ 2^width := pow_le_pow_right₀ (by decide) (by omega)
      omega

theorem cmpFaithful_iff (hpos : 1 ≤ width) (hle : width ≤ 256) :
    (asked width flavor [order a b]).Same (.results [order (low a) (low b)])
      ↔ CmpFaithful width flavor a b := by
  have hself : ∀ c d, (order c d).bmod (2^256) = order c d := fun c d =>
    (bmod_eq_self_iff (by decide)).mpr ((inRange_order c d).mono (by decide))
  have hword : word (order a b) = word (order (low a) (low b))
      ↔ order (low a) (low b) = order a b := by
    rw [word_eq_iff (inRange_order _ _), hself]
    exact eq_comm
  unfold asked CmpFaithful
  split_ifs with hflavor hfits
  · show [order a b % 2^width].map word = [word (order (low a) (low b))] ↔ _
    rw [single_word]
    by_cases hba : b ≤ a
    · rw [order_emod hpos hba, hword]
      omega
    · have hneg : order a b = -1 := by
        have horder := order_cases a b
        omega
      rw [hneg, word_reduced_neg_one hpos hle]
      omega
  · show [order a b].map word = [word (order (low a) (low b))] ↔ _
    rw [single_word, hword]
    exact ⟨fun h => ⟨hfits _ List.mem_cons_self, h⟩, fun h => h.2⟩
  · refine iff_of_false id fun h => hfits fun x hx => ?_
    rw [List.mem_singleton.mp hx]
    exact h.1

/-! ### division -/

theorem tmod_nonpos (b : Int) (h : a ≤ 0) : a.tmod b ≤ 0 := by
  have hneg := Int.tmod_nonneg b (show 0 ≤ -a by omega)
  rw [Int.neg_tmod] at hneg
  omega

theorem dividesTo_iff (hb : b ≠ 0) : DividesTo a b q r ↔ a.tdiv b = q ∧ a.tmod b = r := by
  constructor
  · rintro ⟨ha, hlt, hpos, hneg⟩
    rcases le_total 0 a with h | h
    · exact (Int.tdiv_tmod_unique h hb).mpr ⟨by rw [ha]; ring, hpos h, by omega⟩
    · refine (Int.tdiv_tmod_unique' h hb).mpr ⟨by rw [ha]; ring, by omega, hneg h⟩
  · rintro ⟨rfl, rfl⟩
    have hadd := Int.mul_tdiv_add_tmod a b
    refine ⟨by rw [mul_comm, hadd], ?_, Int.tmod_nonneg b, tmod_nonpos b⟩
    rw [Int.natAbs_tmod]
    exact Nat.mod_lt _ (by omega)

/-- towards zero, the remainder is a machine integer -/
theorem inRange_tmod (ha : InRange 128 a) : InRange 128 (a.tmod b) := by
  have hnat : (a.tmod b).natAbs ≤ a.natAbs := by
    rw [Int.natAbs_tmod]
    exact Nat.mod_le _ _
  have hpos := Int.tmod_nonneg (a := a) b
  have hneg := tmod_nonpos (a := a) b
  obtain ⟨hle, hlt⟩ := ha
  unfold InRange
  omega

theorem divModFaithful_iff :
    (Baseline.divMod.demanded width flavor a b).Same
      (Baseline.divMod.computed (low a) (low b)) ↔ DivModFaithful width flavor a b := by
  unfold Baseline.demanded Baseline.exact Baseline.computed DivModFaithful
  dsimp only
  by_cases hb : b = 0
  · subst hb
    have hlow : low 0 = 0 := Int.zero_bmod
    rw [if_pos rfl, hlow, if_pos rfl]
    exact iff_of_true trivial (Or.inl rfl)
  rw [if_neg hb, or_iff_right hb, and_iff_right hb]
  dsimp only
  unfold asked
  have hall : (∀ x ∈ [a.fdiv b, a.fmod b], FitsIn width flavor x)
      ↔ FitsIn width flavor (a.fdiv b) ∧ FitsIn width flavor (a.fmod b) := by simp
  by_cases hlow : low b = 0
  · rw [if_pos hlow, if_pos hlow]
    split_ifs with hflavor hfits
    · exact iff_of_false id fun h => h.1 hflavor
    · exact iff_of_false id fun h => h.2 (hall.mp hfits)
    · exact iff_of_true trivial ⟨hflavor, fun h => hfits (hall.mpr h)⟩
  rw [if_neg hlow, if_neg hlow]
  by_cases hmin : low a = I128_MIN ∧ low b = -1
  · rw [if_pos hmin]
    refine iff_of_false ?_ fun h => h.1 hmin
    split_ifs <;> exact id
  rw [if_neg hmin, and_iff_right hmin]
  have hq := inRange_tdiv (inRange_low a) hlow hmin
  have hr := inRange_tmod (b := low b) (inRange_low a)
  have hwords : ∀ q r : Int, (Answer.results [q, r]).Same
      (.results [(low a).tdiv (low b), (low a).tmod (low b)])
      ↔ DividesTo (low a) (low b) (q.bmod (2^256)) (r.bmod (2^256)) := by
    intro q r
    show [word q, word r] = [word _, word _] ↔ _
    rw [List.cons_eq_cons, List.cons_eq_cons, and_iff_left rfl, word_eq_iff hq, word_eq_iff hr,
      dividesTo_iff hlow]
    exact and_congr eq_comm eq_comm
  split_ifs with hflavor hfits
  · exact hwords _ _
  · rw [hwords, and_iff_right (hall.mp hfits)]
  · exact iff_of_false id fun h => hfits (hall.mpr h.1)

end

/-! ## the equivalence -/

/-- **When baseline arithmetic is exact.** -/
theorem baseline_exact_iff (c : Crypto) (signed : Bool) {s : Interpreter} {op : Baseline}
    {width : Uint16} {flavor : Byte} {x y : Uint256} {rest : List StackValue}
    (hat : BaselineAt s op width flavor x y rest) :
    (op.demanded width.toNat flavor (value signed x) (value signed y)).Done c s op.gas 4 rest
      ↔ op.Faithful width.toNat flavor (value signed x) (value signed y) := by
  have hdone := step_baseline c hat
  rw [toI128_value signed x, toI128_value signed y] at hdone
  rw [done_iff hdone]
  generalize value signed x = a
  generalize value signed y = b
  cases op with
  | add =>
    refine carriesOver_iff (t := low a + low b) ?_
    rw [Int.add_emod (low a), low_emod, low_emod, ← Int.add_emod]
  | sub =>
    refine carriesOver_iff (t := low a - low b) ?_
    rw [Int.sub_emod (low a), low_emod, low_emod, ← Int.sub_emod]
  | neg =>
    refine carriesOver_iff (t := -low a) ?_
    rw [← zero_sub (low a), ← zero_sub a, Int.sub_emod 0 (low a), low_emod, ← Int.sub_emod]
  | mul =>
    refine carriesOver_iff (t := low a * low b) ?_
    rw [Int.mul_emod (low a), low_emod, low_emod, ← Int.mul_emod]
  | divMod => exact divModFaithful_iff
  | cmp => exact cmpFaithful_iff hat.width_pos hat.width_le

/-- an addition at width 8, unsigned -/
def additionCode : Cell := ⟨[0x10, 0, 8, 0], [], false, Nat.le_of_ble_eq_true rfl, Nat.zero_le _⟩

def additionState (x y : Uint256) : Interpreter :=
  { Interpreter.new additionCode emptyCell sampleMessage sampleContext with
    stack := [.integer y, .integer x] }

theorem addition_at (x y : Uint256) : BaselineAt (additionState x y) .add 8 0 x y [] where
  opcode_eq := show (byteAt additionCode 0).bind Opcode.ofByte = some .add by decide
  hasGas := Nat.le_of_ble_eq_true rfl
  immediates_eq := show immediates additionCode 8 = some (8, 0) by decide
  width_pos := by decide
  width_le := by decide
  flavor_le := by decide
  stack_eq := rfl
  stack_le := Nat.le_of_ble_eq_true rfl

theorem baseline_exact_sample : step sampleCrypto (additionState 200 55)
    = .ok true (behind (additionState 200 55) 4 4 [.integer 255]) := by
  refine (baseline_exact_iff sampleCrypto true (addition_at 200 55)).mpr ?_
  show CarriesOver 8 0 _ _
  unfold CarriesOver
  decide

/-- 200 + 100 does not fit 8 bits, and is pushed -/
theorem add_ignores_width :
    step sampleCrypto (additionState 200 100)
      = .ok true (behind (additionState 200 100) 4 4 [.integer 300])
    ∧ ¬ ∀ c signed s op width flavor x y rest, BaselineAt s op width flavor x y rest →
      (op.demanded width.toNat flavor (value signed x) (value signed y)).Done c s op.gas 4 rest := by
  refine ⟨rfl, fun h => ?_⟩
  obtain ⟨t, ht⟩ := h sampleCrypto true _ _ _ _ _ _ _ (addition_at 200 100)
  cases ht

end Onx.Vm
