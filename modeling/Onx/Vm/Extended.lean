import Onx.Vm.Arithmetic
import Onx.Vm.Faults

/-!
# When extended arithmetic is exact

`DIV`, `LSHIFT` and `RSHIFT` check the range of a result that is in 128 bits already, against a
bound that at the widths 127 and 128 is out of range itself.

* `Extended`             the three instructions, with their mathematical results;
* `ranged_done`          what the range check does at each width; `step_extended`;
* `Agrees`               a result against another that was computed instead;
* `DivFaithful`, `ShiftFaithful`   the operands, widths and flavors at which the two agree;
* `extended_exact_iff`   **when an instruction is exact**;
* `lShift_drops_bits`    a shift that loses the only bit of its operand.
-/

namespace Onx.Vm
open Machine TwosComplement

inductive Extended where
  | div | lShift | rShift
deriving DecidableEq

/-- the quotient, rounded down or towards zero -/
def quotient (floored : Bool) (a b : Int) : Int := if floored then a.fdiv b else a.tdiv b

namespace Extended

def opcode : Extended → Opcode
  | .div => .div
  | .lShift => .lShift
  | .rShift => .rShift

def gas : Extended → Nat
  | .div => 8
  | _ => 4

/-- the mathematical result -/
def exact (floored : Bool) : Extended → Int → Int → Int
  | .div, a, b => quotient floored a b
  | .lShift, a, b => a * 2^b.toNat
  | .rShift, a, b => a.fdiv (2^b.toNat)

/-- a divisor, or a shift within the width -/
def Admits (op : Extended) (width : Nat) (b : Int) : Prop :=
  match op with
  | .div => b ≠ 0
  | _ => 0 ≤ b ∧ b < width

/-- what the code computes from machine integers; nothing for an overflow -/
def computed : Extended → Int → Int → Option Int
  | .div, a, b => if b = 0 ∨ a = I128_MIN ∧ b = -1 then none else some (a.tdiv b)
  | .lShift, a, b => some (low (a * 2^b.toNat))
  | .rShift, a, b => some (a.fdiv (2^b.toNat))

/-- the body of an instruction -/
def body : Extended → Nat → Int → Int → Instr Int
  | .div => divOp
  | .lShift => lShiftOp
  | .rShift => rShiftOp

end Extended

/-- a computed result behind the range check -/
def Answer.ranged (width : Nat) (flavor : Byte) (t : Int) : Answer :=
  if flavor = 0 then
    if width < 127 ∧ FitsIn width 0 t then .results [t] else .overflow
  else if flavor = 1 then
    if width = 128 then .panic else if FitsIn width 1 t then .results [t] else .overflow
  else if width < 127 then .results [t % 2^width] else .overflow

/-- what the code answers -/
def Extended.answer (op : Extended) (width : Nat) (flavor : Byte) (a b : Int) : Answer :=
  match op.computed a b with
  | none => .overflow
  | some t => .ranged width flavor t

/-- an instruction with its gas, immediates and operands, the first of them a machine integer -/
structure ExtendedAt (signed : Bool) (s : Interpreter) (op : Extended) (width : Uint16)
    (flavor : Byte) (x y : Uint256) (rest : List StackValue) : Prop where
  opcode_eq : opcodeAt s = some op.opcode
  hasGas : HasGas s op.gas
  immediates_eq : immediates s.currentCode (s.pcBits + 8) = some (width, flavor)
  width_pos : 1 ≤ width.toNat
  width_le : width.toNat ≤ 128
  flavor_le : flavor.toNat ≤ 2
  stack_eq : s.stack = .integer y :: .integer x :: rest
  stack_le : s.stack.length ≤ MAX_STACK_DEPTH
  inRange : InRange 128 (value signed x)
  admits : op.Admits width.toNat (value signed y)

/-! ## what the code does -/

section
variable {s : Interpreter} {width : Uint16} {flavor : Byte} {x y : Uint256}
  {rest : List StackValue} {a b t : Int}

theorem flavor_cases (h : flavor.toNat ≤ 2) : flavor = 0 ∨ flavor = 1 ∨ flavor = 2 := by
  rcases (by omega : flavor.toNat = 0 ∨ flavor.toNat = 1 ∨ flavor.toNat = 2) with h | h | h
  · exact Or.inl (BitVec.eq_of_toNat_eq h)
  · exact Or.inr (Or.inl (BitVec.eq_of_toNat_eq h))
  · exact Or.inr (Or.inr (BitVec.eq_of_toNat_eq h))

theorem extendedArithmetic_eq {gas : Nat} {op : Nat → Int → Int → Instr Int} (hgas : HasGas s gas)
    (himm : immediates s.currentCode s.pcBits = some (width, flavor)) (hpos : 1 ≤ width.toNat)
    (hle : width.toNat ≤ 128) (hflavor : flavor.toNat ≤ 2)
    (hstack : s.stack = .integer y :: .integer x :: rest) :
    extendedArithmetic gas op s = (op width.toNat (toI128 x) (toI128 y) >>= fun result =>
      inRange width.toNat flavor result >>= pushI128)
        { pay s gas with pcBits := s.pcBits + 8 + 8 + 8, stack := rest } := by
  have hwidth : ¬ (width = 0 ∨ width > 128 ∨ flavor > 2) := by
    rintro (rfl | hgt | hgt)
    · exact Nat.not_succ_le_zero _ hpos
    · exact absurd hgt (Nat.not_lt.mpr hle)
    · exact absurd hgt (Nat.not_lt.mpr hflavor)
  unfold extendedArithmetic
  rw [gas_bind hgas, immediates_bind (s := pay s gas) himm, bind_ok (failIf_neg hwidth _ _)]
  refine (integer_bind (s := { pay s gas with pcBits := s.pcBits + 8 + 8 + 8 }) (x := y) hstack).trans
    ?_
  exact integer_bind rfl

/-- a computation without effects, on the state it is left with -/
theorem op_apply {op : Extended} {width : Nat} (hle : width ≤ 128) (ha : InRange 128 a)
    (hb : op ≠ .div → 0 ≤ b ∧ b < width) (u : Interpreter) :
    op.body width a b u = match op.computed a b with
      | none => .err .integerOverflow u
      | some t => .ok t u := by
  cases op with
  | div =>
    show divOp width a b u = _
    unfold divOp Extended.computed
    dsimp only
    by_cases hzero : b = 0
    · rw [bind_err (failIf_pos hzero _ _), if_pos (Or.inl hzero)]
    · rw [bind_ok (failIf_neg hzero _ _)]
      have hnone := checkedI128_tdiv ha hzero
      by_cases hmin : a = I128_MIN ∧ b = -1
      · rw [hnone.mpr hmin, if_pos (Or.inr hmin)]
        rfl
      · rw [if_neg (not_or.mpr ⟨hzero, hmin⟩)]
        have hin := inRange_tdiv ha hzero hmin
        unfold checkedI128
        rw [if_pos (show _ ∧ _ from hin)]
        rfl
  | lShift =>
    obtain ⟨hnonneg, hlt⟩ := hb nofun
    show lShiftOp width a b u = .ok (low (a * 2^b.toNat)) u
    unfold lShiftOp
    rw [bind_ok (failIf_neg (by omega) _ _)]
    unfold checkedShl
    rw [if_pos (by omega)]
    rfl
  | rShift =>
    obtain ⟨hnonneg, hlt⟩ := hb nofun
    show rShiftOp width a b u = .ok (a.fdiv (2^b.toNat)) u
    unfold rShiftOp
    rw [bind_ok (failIf_neg (by omega) _ _)]
    unfold shrI128
    rw [if_pos (by omega), Int.shiftRight_eq_div_pow,
      Int.fdiv_eq_ediv_of_nonneg _ (Int.pow_nonneg (by decide))]
    push_cast
    rfl

/-- **The range check** at each width and flavor. -/
theorem ranged_apply {width : Nat} (hpos : 1 ≤ width) (hle : width ≤ 128)
    (hflavor : flavor.toNat ≤ 2) {u : Interpreter} (hroom : u.stack.length < MAX_STACK_DEPTH) :
    (inRange width flavor t >>= pushI128) u = match Answer.ranged width flavor t with
      | .results rs => .ok () { u with stack := pushWords (rs.map word) u.stack }
      | .overflow => .err .integerOverflow u
      | .panic => .panic := by
  have hpush : ∀ r, pushI128 r u
      = .ok () { u with stack := pushWords ([r].map word) u.stack } := fun r => push_ok hroom
  have hite : ∀ (p : Prop) [Decidable p] (r : Int),
      ((if p then pure r else Prog.raise .integerOverflow : Instr Int) >>= pushI128) u
        = match if p then Answer.results [r] else .overflow with
          | .results rs => .ok () { u with stack := pushWords (rs.map word) u.stack }
          | .overflow => .err .integerOverflow u
          | .panic => .panic := by
    intro p _ r
    split_ifs
    · exact hpush r
    · rfl
  rcases flavor_cases hflavor with rfl | rfl | rfl
  · rw [inRange_unsigned hpos hle]
    exact hite _ t
  · by_cases htop : width = 128
    · subst htop
      rw [bind_apply, inRange_signed128]
      rfl
    · have hranged : Answer.ranged width 1 t
          = if InRange width t then .results [t] else .overflow := by
        unfold Answer.ranged
        rw [if_neg (show ¬ (1 : Byte) = 0 by decide), if_pos rfl, if_neg htop]
        rfl
      rw [inRange_signed hpos (by omega), hranged]
      exact hite _ t
  · rw [inRange_wrapped hpos hle]
    exact hite _ _

/-- **What the code does.** -/
theorem step_extended (c : Crypto) {signed : Bool} {op : Extended}
    (hat : ExtendedAt signed s op width flavor x y rest) :
    (op.answer width.toNat flavor (toI128 x) (toI128 y)).Done c s op.gas 4 rest := by
  have hroom : rest.length < MAX_STACK_DEPTH := by
    have hlen := hat.stack_le
    rw [hat.stack_eq, List.length_cons, List.length_cons] at hlen
    omega
  have hshift : op ≠ .div → 0 ≤ toI128 y ∧ toI128 y < width.toNat := by
    intro hop
    have hy : 0 ≤ value signed y ∧ value signed y < width.toNat := by
      have hadmits := hat.admits
      cases op with
      | div => exact absurd rfl hop
      | lShift => exact hadmits
      | rShift => exact hadmits
    have hle := hat.width_le
    rw [toI128_value signed y, (bmod_eq_self_iff (by decide)).mpr ⟨by omega, by omega⟩]
    exact hy
  have hexec : exec c op.opcode = goesOn (extendedArithmetic op.gas op.body) := by
    cases op <;> rfl
  have hstep : step c s = goneOn ((op.body width.toNat (toI128 x) (toI128 y) >>= fun result =>
      inRange width.toNat flavor result >>= pushI128) (behind s op.gas 4 rest)) := by
    rw [step_goesOn hat.opcode_eq hexec]
    exact congrArg goneOn (extendedArithmetic_eq (s := behindOpcode s) hat.hasGas
      hat.immediates_eq hat.width_pos hat.width_le hat.flavor_le hat.stack_eq)
  rw [bind_apply, op_apply hat.width_le (toI128_range x) hshift] at hstep
  unfold Extended.answer
  cases hcomputed : op.computed (toI128 x) (toI128 y) with
  | none =>
    rw [hcomputed] at hstep
    exact ⟨_, hstep⟩
  | some t =>
    rw [hcomputed] at hstep
    dsimp only at hstep ⊢
    rw [ranged_apply hat.width_pos hat.width_le hat.flavor_le hroom] at hstep
    cases hans : Answer.ranged width.toNat flavor t with
    | results rs =>
      rw [hans] at hstep
      exact hstep
    | overflow =>
      rw [hans] at hstep
      exact ⟨_, hstep⟩
    | panic =>
      rw [hans] at hstep
      exact hstep

end

/-! ## when that is what is asked for -/

/-- `r` is asked for, and `t` is what the range check finds -/
def Agrees (width : Nat) (flavor : Byte) (r t : Int) : Prop :=
  if flavor = 0 then
    if width < 127 then FitsIn width 0 t ∨ FitsIn width 0 r → t = r else ¬ FitsIn width 0 r
  else if flavor = 1 then width ≠ 128 ∧ (FitsIn width 1 t ∨ FitsIn width 1 r → t = r)
  else width < 127 ∧ t % 2^width = r % 2^width

/-- the quotient of `a` by `d` towards zero does not fit -/
def TooLarge (width : Nat) (flavor : Byte) (a d : Int) : Prop :=
  if flavor = 0 then
    if 0 ≤ a * d then 2^width * d.natAbs ≤ a.natAbs else d.natAbs ≤ a.natAbs
  else if 0 ≤ a * d then 2^(width - 1) * d.natAbs ≤ a.natAbs
  else (2^(width - 1) + 1) * d.natAbs ≤ a.natAbs

/-- `a` divided by `d` towards zero has the quotient `q`, up to what the flavor allows -/
def DivFaithful (width : Nat) (flavor : Byte) (a d q : Int) : Prop :=
  let truncates (t : Int) := DividesTo a d t (a - t * d)
  let same := truncates q ∨ TooLarge width flavor a d ∧ ¬ FitsIn width flavor q
  if flavor = 0 then if width < 127 then same else ¬ FitsIn width 0 q
  else if flavor = 1 then width ≠ 128 ∧ same
  else width < 127 ∧ ∃ k, truncates (q + k * 2^width)

/-- where what is left of a shifted operand in 128 bits fits, no bit of it is lost -/
def ShiftFaithful (width : Nat) (flavor : Byte) (r : Int) : Prop :=
  let left := r % 2^128
  if flavor = 0 then
    if width < 127 then left < 2^width → FitsIn width 0 r else ¬ FitsIn width 0 r
  else if flavor = 1 then
    width ≠ 128 ∧ (left < 2^(width - 1) ∨ 2^128 - 2^(width - 1) ≤ left → FitsIn width 1 r)
  else width < 127

/-- the operands, widths and flavors at which an instruction is exact -/
def Extended.Faithful (floored : Bool) (op : Extended) (width : Nat) (flavor : Byte)
    (a b : Int) : Prop :=
  match op with
  | .div =>
    let q := quotient floored a b
    if low b = 0 ∨ a = I128_MIN ∧ low b = -1 then flavor ≠ 2 ∧ ¬ FitsIn width flavor q
    else DivFaithful width flavor a (low b) q
  | .lShift => ShiftFaithful width flavor (a * 2^b.toNat)
  | .rShift => ShiftFaithful width flavor (a.fdiv (2^b.toNat))

section
variable {width : Nat} {flavor : Byte} {a b d q r t : Int}

theorem inRange_of_fitsIn (hle : width ≤ 128) (h : FitsIn width 1 r) : InRange 128 r :=
  InRange.mono hle h

theorem inRange_of_fitsIn_zero (hlt : width < 127) (h : FitsIn width 0 r) : InRange 128 r := by
  have hpow : (2 : Int)^width < 2^127 := Int.pow_lt_pow_of_lt (by decide) hlt
  obtain ⟨hnonneg, hr⟩ := (show 0 ≤ r ∧ r < 2^width from h)
  exact ⟨by omega, by omega⟩

/-- of two integers the same fit, and these are equal -/
theorem same_fitting {f : Byte} (ht : FitsIn width f t → InRange 128 t)
    (hr : FitsIn width f r → InRange 128 r) :
    (if FitsIn width f r then Answer.results [r] else .overflow).Same
      (if FitsIn width f t then .results [t] else .overflow)
      ↔ (FitsIn width f t ∨ FitsIn width f r → t = r) := by
  have hself : InRange 128 r → r.bmod (2^256) = r := fun h =>
    (bmod_eq_self_iff (by decide)).mpr (h.mono (by decide))
  split_ifs with hfr hft hft
  · show [r].map word = [t].map word ↔ _
    rw [show [t].map word = [word t] from rfl, single_word, word_eq_iff (ht hft), hself (hr hfr)]
    exact ⟨fun h _ => h.symm, fun h => (h (Or.inl hft)).symm⟩
  · refine iff_of_false id fun h => hft ?_
    rw [h (Or.inr hfr)]
    exact hfr
  · refine iff_of_false id fun h => hfr ?_
    rw [← h (Or.inl hft)]
    exact hft
  · exact iff_of_true trivial fun h => (h.elim hft hfr).elim

theorem asked_single (h : flavor ≠ 2) : asked width flavor [r]
    = if FitsIn width flavor r then .results [r] else .overflow := by
  unfold asked
  rw [if_neg h]
  simp

/-- **The range check** finds what is asked for. -/
theorem agrees_iff (hle : width ≤ 128) (hflavor : flavor.toNat ≤ 2) :
    (asked width flavor [r]).Same (.ranged width flavor t) ↔ Agrees width flavor r t := by
  rcases flavor_cases hflavor with rfl | rfl | rfl
  · rw [asked_single (by decide)]
    by_cases hlt : width < 127
    · have hranged : Answer.ranged width 0 t
          = if FitsIn width 0 t then .results [t] else .overflow := by
        simp [Answer.ranged, hlt]
      rw [hranged, same_fitting (inRange_of_fitsIn_zero hlt) (inRange_of_fitsIn_zero hlt)]
      simp [Agrees, hlt]
    · have hranged : Answer.ranged width 0 t = .overflow := by
        simp [Answer.ranged, hlt]
      have hagrees : Agrees width 0 r t ↔ ¬ FitsIn width 0 r := by
        simp [Agrees, hlt]
      rw [hranged, hagrees]
      split_ifs with hr
      · exact iff_of_false id fun h => h hr
      · exact iff_of_true trivial hr
  · rw [asked_single (by decide)]
    by_cases htop : width = 128
    · have hranged : Answer.ranged width 1 t = .panic := by
        simp [Answer.ranged, htop]
      rw [hranged]
      refine iff_of_false (by split_ifs <;> exact id) fun h => ?_
      exact (show width ≠ 128 ∧ _ from h).1 htop
    · have hranged : Answer.ranged width 1 t
          = if FitsIn width 1 t then .results [t] else .overflow := by
        simp [Answer.ranged, htop]
      rw [hranged, same_fitting (inRange_of_fitsIn hle) (inRange_of_fitsIn hle)]
      simp [Agrees, htop]
  · by_cases hlt : width < 127
    · have hranged : Answer.ranged width 2 t = .results [t % 2^width] := by
        simp [Answer.ranged, hlt]
      have hagrees : Agrees width 2 r t ↔ t % 2^width = r % 2^width := by
        simp [Agrees, hlt]
      have hpow : (2 : Int)^width < 2^127 := Int.pow_lt_pow_of_lt (by decide) hlt
      have hpos : (0 : Int) < 2^width := Int.pow_pos (by decide)
      have hreduced : ∀ z : Int, InRange 128 (z % 2^width) := fun z => by
        have hnonneg := Int.emod_nonneg z hpos.ne'
        have hz := Int.emod_lt_of_pos z hpos
        exact ⟨by omega, by omega⟩
      have hself : (r % 2^width).bmod (2^256) = r % 2^width :=
        (bmod_eq_self_iff (by decide)).mpr ((hreduced r).mono (by decide))
      rw [hranged, hagrees]
      show [r % 2^width].map word = [word (t % 2^width)] ↔ _
      rw [single_word, word_eq_iff (hreduced t), hself]
      exact eq_comm
    · have hranged : Answer.ranged width 2 t = .overflow := by
        simp [Answer.ranged, hlt]
      rw [hranged]
      exact iff_of_false id fun h => hlt (show width < 127 ∧ _ from h).1

/-- the low half of a shifted operand, behind the range check -/
theorem agrees_low_iff (hle : width ≤ 128) (hpos : 1 ≤ width) (hflavor : flavor.toNat ≤ 2) :
    Agrees width flavor r (low r) ↔ ShiftFaithful width flavor r := by
  have hself : InRange 128 r → low r = r := (bmod_eq_self_iff (by decide)).mpr
  have heq : ∀ {f : Byte}, (FitsIn width f r → InRange 128 r) →
      ((FitsIn width f (low r) ∨ FitsIn width f r → low r = r)
        ↔ (FitsIn width f (low r) → FitsIn width f r)) := by
    intro f hin
    refine ⟨fun h hlow => ?_, fun h => ?_⟩
    · rw [← h (Or.inl hlow)]
      exact hlow
    · rintro (hlow | hr)
      · exact hself (hin (h hlow))
      · exact hself (hin hr)
  have hmod := low_emod r
  have hrange := inRange_low r
  unfold InRange at hrange
  rcases flavor_cases hflavor with rfl | rfl | rfl
  · by_cases hlt : width < 127
    · have hpow : (2 : Int)^width < 2^127 := Int.pow_lt_pow_of_lt (by decide) hlt
      have hfits : FitsIn width 0 (low r) ↔ r % 2^128 < 2^width := by
        show 0 ≤ low r ∧ low r < 2^width ↔ _
        omega
      show (if width < 127 then _ else _) ↔ (if width < 127 then _ else _)
      rw [if_pos hlt, if_pos hlt, heq (inRange_of_fitsIn_zero hlt), hfits]
    · show (if width < 127 then _ else _) ↔ (if width < 127 then _ else _)
      rw [if_neg hlt, if_neg hlt]
  · have hpow : (2 : Int)^(width - 1) ≤ 2^127 := pow_le_pow_right₀ (by decide) (by omega)
    have hfits : FitsIn width 1 (low r)
        ↔ r % 2^128 < 2^(width - 1) ∨ 2^128 - 2^(width - 1) ≤ r % 2^128 := by
      show -2^(width - 1) ≤ low r ∧ low r < 2^(width - 1) ↔ _
      omega
    show (width ≠ 128 ∧ _) ↔ (width ≠ 128 ∧ _)
    rw [heq (inRange_of_fitsIn hle), hfits]
  · show (width < 127 ∧ _) ↔ width < 127
    exact and_iff_left (emod_eq_of_le hle (low_emod r))

/-- division towards zero -/
theorem truncates_iff (hd : d ≠ 0) : DividesTo a d t (a - t * d) ↔ a.tdiv d = t := by
  rw [dividesTo_iff hd]
  refine ⟨fun h => h.1, fun h => ⟨h, ?_⟩⟩
  have hsum := Int.tmod_add_mul_tdiv a d
  rw [h, Int.mul_comm d t] at hsum
  omega

theorem le_natAbs_tdiv_iff (hd : d ≠ 0) (n : Nat) :
    n * d.natAbs ≤ a.natAbs ↔ n ≤ (a.tdiv d).natAbs := by
  rw [Int.natAbs_tdiv]
  exact (Nat.le_div_iff_mul_le (Int.natAbs_pos.mpr hd)).symm

/-- a quotient has the sign of the product -/
theorem tdiv_sign (a d : Int) :
    (0 ≤ a * d → 0 ≤ a.tdiv d) ∧ (a * d < 0 → a.tdiv d ≤ 0) := by
  rcases Int.le_total 0 a with ha | ha <;> rcases Int.le_total 0 d with hd | hd
  · exact ⟨fun _ => Int.tdiv_nonneg ha hd, fun h => absurd h (Int.not_lt.mpr (Int.mul_nonneg ha hd))⟩
  · refine ⟨fun h => ?_, fun _ => Int.tdiv_nonpos_of_nonneg_of_nonpos ha hd⟩
    -- one of the two is zero
    have hzero : a * d = 0 := Int.le_antisymm (Int.mul_nonpos_of_nonneg_of_nonpos ha hd) h
    rcases Int.mul_eq_zero.mp hzero with rfl | rfl
    · rw [Int.zero_tdiv]
    · rw [Int.tdiv_zero]
  · have hneg : a.tdiv d ≤ 0 := by
      rw [← Int.neg_neg a, Int.neg_tdiv]
      have hpos := Int.tdiv_nonneg (show 0 ≤ -a by omega) hd
      omega
    refine ⟨fun h => ?_, fun _ => hneg⟩
    have hzero : a * d = 0 := Int.le_antisymm (Int.mul_nonpos_of_nonpos_of_nonneg ha hd) h
    rcases Int.mul_eq_zero.mp hzero with rfl | rfl
    · rw [Int.zero_tdiv]
    · rw [Int.tdiv_zero]
  · exact ⟨fun _ => Int.tdiv_nonneg_of_nonpos_of_nonpos ha hd,
      fun h => absurd h (Int.not_lt.mpr (Int.mul_nonneg_of_nonpos_of_nonpos ha hd))⟩

theorem tooLarge_iff (hd : d ≠ 0) : TooLarge width flavor a d ↔ ¬ FitsIn width flavor (a.tdiv d) := by
  obtain ⟨hnonneg, hnonpos⟩ := tdiv_sign a d
  have hlimit : ∀ n : Nat, ((2^n : Nat) : Int) = 2^n := fun n => by push_cast; rfl
  have hwidth := hlimit width
  have hhalf := hlimit (width - 1)
  have hone := le_natAbs_tdiv_iff (a := a) hd 1
  rw [Nat.one_mul] at hone
  have hpos := Nat.two_pow_pos width
  have hposhalf := Nat.two_pow_pos (width - 1)
  unfold TooLarge FitsIn InRange
  rw [← hwidth, ← hhalf]
  by_cases h0 : flavor = 0 <;> by_cases hsign : 0 ≤ a * d
  · rw [if_pos h0, if_pos h0, if_pos hsign, le_natAbs_tdiv_iff hd]
    have hq := hnonneg hsign
    omega
  · rw [if_pos h0, if_pos h0, if_neg hsign, hone]
    have hq := hnonpos (Int.not_le.mp hsign)
    omega
  · rw [if_neg h0, if_neg h0, if_pos hsign, le_natAbs_tdiv_iff hd]
    have hq := hnonneg hsign
    omega
  · rw [if_neg h0, if_neg h0, if_neg hsign, le_natAbs_tdiv_iff hd]
    have hq := hnonpos (Int.not_le.mp hsign)
    omega

/-- a quotient towards zero, behind the range check -/
theorem agrees_tdiv_iff (hd : d ≠ 0) (hflavor : flavor.toNat ≤ 2) :
    Agrees width flavor q (a.tdiv d) ↔ DivFaithful width flavor a d q := by
  have hsame : ∀ f : Byte, (FitsIn width f (a.tdiv d) ∨ FitsIn width f q → a.tdiv d = q)
      ↔ DividesTo a d q (a - q * d) ∨ TooLarge width f a d ∧ ¬ FitsIn width f q := by
    intro f
    rw [truncates_iff hd, tooLarge_iff hd]
    tauto
  rcases flavor_cases hflavor with rfl | rfl | rfl
  · show (if width < 127 then _ else _) ↔ (if width < 127 then _ else _)
    rw [hsame]
  · show (width ≠ 128 ∧ _) ↔ (width ≠ 128 ∧ _)
    rw [hsame]
  · show (width < 127 ∧ _) ↔ (width < 127 ∧ ∃ k, DividesTo a d _ _)
    refine and_congr_right fun _ => ?_
    constructor
    · intro h
      obtain ⟨k, hk⟩ := Int.dvd_of_emod_eq_zero (Int.emod_eq_emod_iff_emod_sub_eq_zero.mp h)
      refine ⟨k, (truncates_iff hd).mpr ?_⟩
      rw [Int.mul_comm k, ← hk]
      omega
    · rintro ⟨k, hk⟩
      rw [(truncates_iff hd).mp hk, Int.add_mul_emod_self_right]

/-- a quotient, and what is pushed for it -/
theorem same_div_iff (hle : width ≤ 128) (hflavor : flavor.toNat ≤ 2) :
    (asked width flavor [q]).Same (Extended.answer .div width flavor a d)
      ↔ if d = 0 ∨ a = I128_MIN ∧ d = -1 then flavor ≠ 2 ∧ ¬ FitsIn width flavor q
        else DivFaithful width flavor a d q := by
  unfold Extended.answer Extended.computed
  dsimp only
  by_cases hnone : d = 0 ∨ a = I128_MIN ∧ d = -1
  · rw [if_pos hnone, if_pos hnone]
    by_cases h2 : flavor = 2
    · subst h2
      exact iff_of_false id fun h => h.1 rfl
    · rw [asked_single h2]
      split_ifs with hfits
      · exact iff_of_false id fun h => h.2 hfits
      · exact iff_of_true trivial ⟨h2, hfits⟩
  · rw [if_neg hnone, if_neg hnone]
    exact (agrees_iff hle hflavor).trans (agrees_tdiv_iff (fun h => hnone (Or.inl h)) hflavor)

/-- nothing is lost to the right -/
theorem inRange_fdiv {n : Nat} (ha : InRange 128 a) : InRange 128 (a.fdiv (2^n)) := by
  have hpos : (0 : Int) < 2^n := Int.pow_pos (by decide)
  rw [Int.fdiv_eq_ediv_of_nonneg _ hpos.le]
  have hle : -2^127 ≤ a / 2^n := by
    refine Int.le_ediv_of_mul_le hpos ?_
    have h := ha.1
    omega
  have hlt : a / 2^n < 2^127 := by
    refine Int.ediv_lt_of_lt_mul hpos ?_
    have h := ha.2
    omega
  exact ⟨hle, hlt⟩

end

/-- **When extended arithmetic is exact**, with quotients rounded down or towards zero. -/
theorem extended_exact_iff (c : Crypto) (signed floored : Bool) {s : Interpreter} {op : Extended}
    {width : Uint16} {flavor : Byte} {x y : Uint256} {rest : List StackValue}
    (hat : ExtendedAt signed s op width flavor x y rest) :
    (asked width.toNat flavor [op.exact floored (value signed x) (value signed y)]).Done
        c s op.gas 4 rest
      ↔ op.Faithful floored width.toNat flavor (value signed x) (value signed y) := by
  have hdone := step_extended c hat
  have hle := hat.width_le
  have hflavor := hat.flavor_le
  have ha := hat.inRange
  have hadmits := hat.admits
  have hx : toI128 x = value signed x := by
    rw [toI128_value signed x]
    exact (bmod_eq_self_iff (by decide)).mpr ha
  have hlow : ∀ z, InRange 128 z → low z = z := fun z => (bmod_eq_self_iff (by decide)).mpr
  rw [hx, toI128_value signed y] at hdone
  rw [done_iff hdone]
  generalize value signed x = a at ha
  generalize value signed y = b at hadmits
  have hshift : 0 ≤ b ∧ b < width.toNat → low b = b := fun h => by
    obtain ⟨hnonneg, hlt⟩ := h
    exact hlow b ⟨by omega, by omega⟩
  cases op with
  | div => exact same_div_iff hle hflavor
  | lShift =>
    show (asked _ _ [a * 2^b.toNat]).Same (.ranged _ _ (low (a * 2^(low b).toNat))) ↔ _
    rw [hshift hadmits, agrees_iff hle hflavor, agrees_low_iff hle hat.width_pos hflavor]
    rfl
  | rShift =>
    have hin := hlow _ (inRange_fdiv (n := b.toNat) ha)
    show (asked _ _ [a.fdiv (2^b.toNat)]).Same (.ranged _ _ (a.fdiv (2^(low b).toNat)))
      ↔ ShiftFaithful _ _ (a.fdiv (2^b.toNat))
    rw [hshift hadmits, agrees_iff hle hflavor, ← agrees_low_iff hle hat.width_pos hflavor, hin]

/-- a shift to the left at width 100, unsigned -/
def shiftCode : Cell := ⟨[0x18, 0, 100, 0], [], false, Nat.le_of_ble_eq_true rfl, Nat.zero_le _⟩

def shiftState (x y : Uint256) : Interpreter :=
  { Interpreter.new shiftCode emptyCell sampleMessage sampleContext with
    stack := [.integer y, .integer x] }

theorem shift_at {x y : Uint256} (hx : InRange 128 x.toNat) (hy : y.toNat < 100) :
    ExtendedAt false (shiftState x y) .lShift 100 0 x y [] where
  opcode_eq := show (byteAt shiftCode 0).bind Opcode.ofByte = some .lShift by decide
  hasGas := Nat.le_of_ble_eq_true rfl
  immediates_eq := show immediates shiftCode 8 = some (100, 0) by decide
  width_pos := by decide
  width_le := by decide
  flavor_le := by decide
  stack_eq := rfl
  stack_le := Nat.le_of_ble_eq_true rfl
  inRange := hx
  admits := ⟨Int.natCast_nonneg _, Int.ofNat_lt.mpr hy⟩

theorem extended_exact_sample : step sampleCrypto (shiftState 5 3)
    = .ok true (behind (shiftState 5 3) 4 4 [.integer 40]) := by
  refine (extended_exact_iff sampleCrypto false true (shift_at (x := 5) (y := 3) (by decide)
    (by decide))).mpr ?_
  show ShiftFaithful 100 0 (5 * 2^3)
  unfold ShiftFaithful
  decide

/-- `2^64 * 2^64` does not fit 100 bits, and 0 is pushed -/
theorem lShift_drops_bits :
    step sampleCrypto (shiftState 0x10000000000000000 64)
      = .ok true (behind (shiftState 0x10000000000000000 64) 4 4 [.integer 0])
    ∧ ¬ ∀ c signed floored s op width flavor x y rest,
      ExtendedAt signed s op width flavor x y rest →
      (asked width.toNat flavor [op.exact floored (value signed x) (value signed y)]).Done
        c s op.gas 4 rest := by
  refine ⟨rfl, fun h => ?_⟩
  obtain ⟨t, ht⟩ := h sampleCrypto false true _ _ _ _ _ _ _
    (shift_at (x := 0x10000000000000000) (y := 64) (by decide) (by decide))
  cases ht

end Onx.Vm
