import Onx.Vm.Safety

/-!
# Where the interpreter panics

Three kinds of instructions rely on arithmetic that the code does not check.

* `Dangerous`             the states in which such an instruction is next, and goes wrong;
* `turn_panic_iff`        a turn of a run panics exactly there;
* `execute_returns_iff`   runs return exactly if they do not come to such a state, and end;
* `divMod_panics`         a contract of a few instructions that panics.
-/

namespace Onx.Vm
open Machine

/-! ## the dangerous states -/

/-- width and flavor -/
def immediates (code : Cell) (pcBits : Nat) : Option (Uint16 × Byte) := do
  let high ← byteAt code pcBits
  let low ← byteAt code (pcBits + 8)
  let flavor ← byteAt code (pcBits + 8 + 8)
  pure (high ++ low, flavor)

def HasGas (s : Interpreter) (amount : Nat) : Prop := gasAfter s amount ≤ s.gasLimit.toNat

def opcodeAt (s : Interpreter) : Option Opcode :=
  (byteAt s.currentCode s.pcBits).bind Opcode.ofByte

/-- the operands on the stack, the second on top -/
def Operands (stack : List StackValue) (a b : Int) : Prop :=
  ∃ x y rest, stack = .integer y :: .integer x :: rest ∧ toI128 x = a ∧ toI128 y = b

/-- an arithmetic instruction with its gas, width, flavor and operands -/
structure ArithmeticAt (s : Interpreter) (gas : Nat) (width : Uint16) (flavor : Byte)
    (a b : Int) : Prop where
  hasGas : HasGas s gas
  immediates_eq : immediates s.currentCode (s.pcBits + 8) = some (width, flavor)
  operands : Operands s.stack a b

inductive Dangerous (s : Interpreter) : Prop where
  /-- the quotient of the least integer by -1 -/
  | divMod {width : Uint16} {flavor : Byte} (hop : opcodeAt s = some .divMod)
      (hat : ArithmeticAt s 8 width flavor I128_MIN (-1)) (hwidth : ¬ (width = 0 ∨ width > 256))
  /-- the negated bound of width 128, where there is a quotient to compare with it -/
  | div {a b : Int} (hop : opcodeAt s = some .div) (hat : ArithmeticAt s 8 128 1 a b)
      (hb : b ≠ 0) (hquot : ¬ (a = I128_MIN ∧ b = -1))
  /-- the negated bound of width 128, where the shift is in range -/
  | shift {a b : Int} (hop : opcodeAt s = some .lShift ∨ opcodeAt s = some .rShift)
      (hat : ArithmeticAt s 4 128 1 a b) (hb : 0 ≤ b ∧ b < 128)
  /-- offset and length, whose sum is out of range; negative ones are large as `usize` -/
  | subBytes {offset len : Int} {bytes : Bytes} {rest : List StackValue}
      (hop : opcodeAt s = some .subBytes) (hgas : HasGas s 4)
      (hstack : ∃ x y, s.stack = .integer y :: .integer x :: .bytes bytes :: rest
        ∧ toI128 x = offset ∧ toI128 y = len)
      (hsum : 2^64 ≤ asUsize offset + asUsize len)

/-! ## what comes before a panic -/

section
variable {α : Type} {s : Interpreter}

theorem consumeGas_panic {amount : Nat} {f : Unit → Instr α} :
    (consumeGas amount >>= f) s = .panic ↔ HasGas s amount
      ∧ f () { s with gasUsed := BitVec.ofNat 64 (gasAfter s amount) } = .panic := by
  unfold HasGas
  rw [bind_apply, consumeGas_apply]
  split_ifs with h
  · exact ⟨fun h' => (nomatch h'), fun h' => absurd h'.1 (Nat.not_le.mpr h)⟩
  · exact ⟨fun h' => ⟨Nat.not_lt.mp h, h'⟩, fun h' => h'.2⟩

theorem readUint8_panic {f : Byte → Instr α} :
    (readUint8 >>= f) s = .panic ↔ ∃ b, byteAt s.currentCode s.pcBits = some b
      ∧ f b { s with pcBits := s.pcBits + 8 } = .panic := by
  rw [bind_apply, readUint8_apply]
  cases byteAt s.currentCode s.pcBits with
  | none =>
    constructor
    · exact fun h => nomatch h
    · rintro ⟨b, hb, _⟩
      cases hb
  | some b =>
    constructor
    · exact fun h => ⟨b, rfl, h⟩
    · rintro ⟨b', hb, h⟩
      cases hb
      exact h

/-- reading width and flavor -/
theorem immediates_panic {f : Uint16 → Byte → Instr α} :
    (readUint16 >>= fun width => readUint8 >>= fun flavor => f width flavor) s = .panic
      ↔ ∃ width flavor, immediates s.currentCode s.pcBits = some (width, flavor)
        ∧ f width flavor { s with pcBits := s.pcBits + 8 + 8 + 8 } = .panic := by
  unfold readUint16 immediates
  rw [bind_bind]
  simp only [bind_bind, pure_bind_eq, readUint8_panic]
  constructor
  · rintro ⟨high, hhigh, low, hlow, flavor, hflavor, h⟩
    refine ⟨high ++ low, flavor, ?_, h⟩
    rw [hhigh]
    show (byteAt _ _).bind _ = _
    rw [hlow]
    show (byteAt _ _).bind _ = _
    rw [hflavor]
    rfl
  · rintro ⟨width, flavor, himm, h⟩
    obtain ⟨high, hhigh, himm⟩ := Option.bind_eq_some_iff.mp himm
    obtain ⟨low, hlow, himm⟩ := Option.bind_eq_some_iff.mp himm
    obtain ⟨_, hflavor, himm⟩ := Option.bind_eq_some_iff.mp himm
    cases himm
    exact ⟨high, hhigh, low, hlow, flavor, hflavor, h⟩

theorem pop_panic {f : StackValue → Instr α} :
    (pop >>= f) s = .panic ↔ ∃ v rest, s.stack = v :: rest
      ∧ f v { s with stack := rest } = .panic := by
  rw [bind_apply, pop_apply]
  cases s.stack with
  | nil =>
    constructor
    · exact fun h => nomatch h
    · rintro ⟨v, rest, hv, _⟩
      cases hv
  | cons v rest =>
    constructor
    · exact fun h => ⟨v, rest, rfl, h⟩
    · rintro ⟨v', rest', hv, h⟩
      cases hv
      exact h

theorem popI128_panic {f : Int → Instr α} :
    (popI128 >>= f) s = .panic ↔ ∃ x rest, s.stack = .integer x :: rest
      ∧ f (toI128 x) { s with stack := rest } = .panic := by
  unfold popI128 popInteger
  rw [bind_bind, bind_bind, pop_panic]
  constructor
  · rintro ⟨v, rest, hv, h⟩
    cases v with
    | integer x => exact ⟨x, rest, hv, h⟩
    | _ => cases h
  · rintro ⟨x, rest, hx, h⟩
    exact ⟨_, rest, hx, h⟩

theorem popBytes_panic {f : Bytes → Instr α} :
    (popBytes >>= f) s = .panic ↔ ∃ x rest, s.stack = .bytes x :: rest
      ∧ f x { s with stack := rest } = .panic := by
  unfold popBytes
  rw [bind_bind, pop_panic]
  constructor
  · rintro ⟨v, rest, hv, h⟩
    cases v with
    | bytes x => exact ⟨x, rest, hv, h⟩
    | _ => cases h
  · rintro ⟨x, rest, hx, h⟩
    exact ⟨_, rest, hx, h⟩

/-- the operands, popped one after the other -/
theorem operands_panic {f : Int → Int → Instr α} :
    (popI128 >>= fun b => popI128 >>= fun a => f a b) s = .panic ↔ ∃ x y rest,
      s.stack = .integer y :: .integer x :: rest
        ∧ f (toI128 x) (toI128 y) { s with stack := rest } = .panic := by
  rw [popI128_panic]
  constructor
  · rintro ⟨y, rest, hy, h⟩
    obtain ⟨x, rest', hx, h⟩ := popI128_panic.mp h
    cases hx
    exact ⟨x, y, rest', hy, h⟩
  · rintro ⟨x, y, rest, hstack, h⟩
    exact ⟨y, _, hstack, popI128_panic.mpr ⟨x, rest, rfl, h⟩⟩

theorem push_panic {v : StackValue} {m : Instr α} :
    (push v >>= fun _ => m) s = .panic ↔ s.stack.length < MAX_STACK_DEPTH
      ∧ m { s with stack := v :: s.stack } = .panic := by
  rw [bind_apply, push_apply]
  split_ifs with h
  · exact ⟨fun h' => (nomatch h'), fun h' => absurd h (Nat.not_le.mpr h'.1)⟩
  · exact ⟨fun h' => ⟨Nat.not_le.mp h, h'⟩, fun h' => h'.2⟩

theorem push_ne_panic (v : StackValue) (s : Interpreter) : push v s ≠ .panic := by
  rw [push_apply]
  split_ifs <;> exact fun h => (nomatch h)

end

/-! ## arithmetic out of range -/

theorem toI128_range (x : Uint256) : -2^127 ≤ toI128 x ∧ toI128 x < 2^127 :=
  ⟨BitVec.le_toInt _, BitVec.toInt_lt⟩

/-- the only quotient of integers in range that is out of it -/
theorem checkedI128_tdiv {a b : Int} (ha : -2^127 ≤ a ∧ a < 2^127) (hb : b ≠ 0) :
    checkedI128 (a.tdiv b) = none ↔ a = I128_MIN ∧ b = -1 := by
  have habs : (a.tdiv b).natAbs = a.natAbs / b.natAbs := Int.natAbs_tdiv a b
  have hle : a.natAbs / b.natAbs ≤ a.natAbs := Nat.div_le_self _ _
  constructor
  · intro h
    unfold checkedI128 at h
    split_ifs at h with hin
    -- the quotient is 2^127, so nothing was divided away
    have hquot : a.tdiv b = 2^127 := by omega
    have hone : b.natAbs = 1 := by
      by_contra hne
      have hlt : a.natAbs / b.natAbs < a.natAbs := Nat.div_lt_self (by omega) (by omega)
      omega
    rcases Int.natAbs_eq_iff.mp hone with rfl | rfl
    · have hself : a.tdiv (1 : ℕ) = a := Int.tdiv_one a
      omega
    · refine ⟨?_, rfl⟩
      unfold I128_MIN
      rw [hone, Nat.div_one] at habs
      omega
  · rintro ⟨rfl, rfl⟩
    decide

/-- an operation that leaves the state, and has a result exactly where `D` holds -/
def Computes (op : Nat → Int → Int → Instr Int) (D : Nat → Int → Int → Prop) : Prop :=
  ∀ (width : Nat) (a b : Int) (s : Interpreter), width ≤ 128 → (-2^127 ≤ a ∧ a < 2^127) →
    (D width a b ∧ ∃ r, op width a b s = .ok r s)
      ∨ (¬ D width a b ∧ op width a b s = .err .integerOverflow s)

theorem computes_div : Computes divOp (fun _ a b => b ≠ 0 ∧ ¬ (a = I128_MIN ∧ b = -1)) := by
  intro width a b s _ ha
  unfold divOp
  by_cases hb : b = 0
  · rw [bind_err (failIf_pos hb _ _)]
    exact Or.inr ⟨fun h => h.1 hb, rfl⟩
  · rw [bind_ok (failIf_neg hb _ _)]
    cases h : checkedI128 (a.tdiv b) with
    | none => exact Or.inr ⟨fun hD => hD.2 ((checkedI128_tdiv ha hb).mp h), rfl⟩
    | some r =>
      refine Or.inl ⟨⟨hb, fun hmin => ?_⟩, r, rfl⟩
      rw [(checkedI128_tdiv ha hb).mpr hmin] at h
      cases h

theorem computes_lShift : Computes lShiftOp (fun width _ b => 0 ≤ b ∧ b < width) := by
  intro width a b s hwidth _
  unfold lShiftOp
  by_cases hb : b < 0 ∨ b ≥ width
  · rw [bind_err (failIf_pos hb _ _)]
    exact Or.inr ⟨by omega, rfl⟩
  · rw [bind_ok (failIf_neg hb _ _)]
    unfold checkedShl
    rw [if_pos (by omega)]
    exact Or.inl ⟨by omega, _, rfl⟩

theorem computes_rShift : Computes rShiftOp (fun width _ b => 0 ≤ b ∧ b < width) := by
  intro width a b s hwidth _
  unfold rShiftOp
  by_cases hb : b < 0 ∨ b ≥ width
  · rw [bind_err (failIf_pos hb _ _)]
    exact Or.inr ⟨by omega, rfl⟩
  · rw [bind_ok (failIf_neg hb _ _)]
    unfold shrI128
    rw [if_pos (by omega)]
    exact Or.inl ⟨by omega, _, rfl⟩

/-! ## the three kinds of instructions -/

/-- both results are there, or neither -/
theorem quotRem_panic {a b : Int} {s : Interpreter} (ha : -2^127 ≤ a ∧ a < 2^127) (hb : b ≠ 0) :
    (Prog.expect (divI128 a b) >>= fun q => Prog.expect (remI128 a b) >>= fun r =>
      pushI128 q >>= fun _ => pushI128 r) s = .panic ↔ a = I128_MIN ∧ b = -1 := by
  have hdiv : divI128 a b = none ↔ a = I128_MIN ∧ b = -1 := by
    unfold divI128
    rw [if_neg hb]
    exact checkedI128_tdiv ha hb
  rw [expect_bind_panic]
  constructor
  · rintro (hnone | ⟨q, hq, h⟩)
    · exact hdiv.mp hnone
    rcases expect_bind_panic.mp h with hnone | ⟨r, hr, h⟩
    · unfold remI128 at hnone
      split_ifs at hnone with hmin
      exact hmin.resolve_left hb
    · exact absurd (push_panic.mp h).2 (push_ne_panic _ _)
  · exact fun hmin => Or.inl (hdiv.mpr hmin)

theorem divMod_panic {s : Interpreter} : divMod s = .panic ↔ HasGas s 8 ∧ ∃ width flavor,
    immediates s.currentCode s.pcBits = some (width, flavor) ∧ ¬ (width = 0 ∨ width > 256)
      ∧ Operands s.stack I128_MIN (-1) := by
  unfold divMod arithmetic
  rw [consumeGas_panic, immediates_panic]
  simp only [failIf_bind_panic, operands_panic]
  constructor
  · rintro ⟨hgas, width, flavor, himm, hwidth, x, y, rest, hstack, hb, h⟩
    obtain ⟨hx, hy⟩ := (quotRem_panic (toI128_range x) hb).mp h
    exact ⟨hgas, width, flavor, himm, hwidth, x, y, rest, hstack, hx, hy⟩
  · rintro ⟨hgas, width, flavor, himm, hwidth, x, y, rest, hstack, hx, hy⟩
    have hb : toI128 y ≠ 0 := by
      rw [hy]
      decide
    exact ⟨hgas, width, flavor, himm, hwidth, x, y, rest, hstack, hb,
      (quotRem_panic (toI128_range x) hb).mpr ⟨hx, hy⟩⟩

/-- the bound of width 128 has no negation -/
theorem inRange_signed128 (result : Int) (s : Interpreter) : inRange 128 1 result s = .panic := rfl

theorem inRange_panic {width : Nat} {flavor : Byte} {result : Int} {s : Interpreter}
    (hs : Sound s) (hpos : 0 < width) (hle : width ≤ 128) :
    inRange width flavor result s = .panic ↔ width = 128 ∧ flavor = 1 := by
  constructor
  · exact (safe_inRange result hpos hle fun hf hw => ⟨hw, hf⟩).panic hs
  · rintro ⟨rfl, rfl⟩
    exact inRange_signed128 result s

/-- what follows the operands -/
theorem extendedTail_panic {op : Nat → Int → Int → Instr Int} {D : Nat → Int → Int → Prop}
    (hop : Computes op D) {width : Nat} {flavor : Byte} {a b : Int} {s : Interpreter}
    (hs : Sound s) (hpos : 0 < width) (hle : width ≤ 128) (ha : -2^127 ≤ a ∧ a < 2^127) :
    (op width a b >>= fun result => inRange width flavor result >>= pushI128) s = .panic
      ↔ D width a b ∧ width = 128 ∧ flavor = 1 := by
  rcases hop width a b s hle ha with ⟨hD, r, hr⟩ | ⟨hD, herr⟩
  · rw [bind_ok hr]
    constructor
    · intro h
      rcases bind_panic.mp h with h | ⟨q, t, _, h⟩
      · exact ⟨hD, (inRange_panic hs hpos hle).mp h⟩
      · exact absurd h (push_ne_panic _ t)
    · exact fun h => bind_panic.mpr (Or.inl ((inRange_panic hs hpos hle).mpr h.2))
  · rw [bind_err herr]
    exact ⟨fun h => (nomatch h), fun h => absurd h.1 hD⟩

/-- soundness of the state behind gas, immediates and operands -/
theorem sound_behind {s : Interpreter} (hs : Sound s) {gas pcBits : Nat} (hgas : HasGas s gas)
    {rest : List StackValue} (hrest : ∀ v ∈ rest, v ∈ s.stack) :
    Sound { s with
      gasUsed := BitVec.ofNat 64 (gasAfter s gas), pcBits := pcBits, stack := rest } where
  values v hv := hs.values v (hrest v hv)
  gasUsed_le := by
    show (BitVec.ofNat 64 (gasAfter s gas)).toNat ≤ s.gasLimit.toNat
    rw [toNat_gasAfter hgas]
    exact hgas

theorem extendedArithmetic_panic {gas : Nat} {op : Nat → Int → Int → Instr Int}
    {D : Nat → Int → Int → Prop} (hop : Computes op D) {s : Interpreter} (hs : Sound s) :
    extendedArithmetic gas op s = .panic ↔ HasGas s gas ∧ ∃ a b,
      immediates s.currentCode s.pcBits = some (128, 1) ∧ Operands s.stack a b ∧ D 128 a b := by
  unfold extendedArithmetic
  rw [consumeGas_panic, immediates_panic]
  simp only [failIf_bind_panic, operands_panic]
  constructor
  · rintro ⟨hgas, width, flavor, himm, hwidth, x, y, rest, hstack, h⟩
    obtain ⟨hpos, hle⟩ := Logic.width_of_checked hwidth
    have hrest : ∀ v ∈ rest, v ∈ s.stack := fun v hv =>
      hstack ▸ List.mem_cons_of_mem _ (List.mem_cons_of_mem _ hv)
    obtain ⟨hD, h128, hflavor⟩ :=
      (extendedTail_panic hop (sound_behind hs hgas hrest) hpos hle (toI128_range x)).mp h
    have hw : width = 128 := BitVec.eq_of_toNat_eq h128
    rw [hw, hflavor] at himm
    rw [h128] at hD
    exact ⟨hgas, _, _, himm, ⟨x, y, rest, hstack, rfl, rfl⟩, hD⟩
  · rintro ⟨hgas, _, _, himm, ⟨x, y, rest, hstack, rfl, rfl⟩, hD⟩
    have hrest : ∀ v ∈ rest, v ∈ s.stack := fun v hv =>
      hstack ▸ List.mem_cons_of_mem _ (List.mem_cons_of_mem _ hv)
    refine ⟨hgas, 128, 1, himm, by decide, x, y, rest, hstack, ?_⟩
    exact (extendedTail_panic hop (sound_behind hs hgas hrest) (by decide) (by decide)
      (toI128_range x)).mpr ⟨hD, rfl, rfl⟩

/-- the range that was checked is there -/
theorem sliceRange_some {bytes : Bytes} {start stop : Nat} (hstart : start ≤ stop)
    (hstop : ¬ stop > bytes.length) : sliceRange bytes start stop ≠ none := by
  unfold sliceRange
  rw [if_pos ⟨hstart, Nat.not_lt.mp hstop⟩]
  exact fun h => (nomatch h)

theorem subBytes_panic {s : Interpreter} : subBytes s = .panic ↔ HasGas s 4 ∧
    ∃ x y bytes rest, s.stack = .integer y :: .integer x :: .bytes bytes :: rest
      ∧ 2^64 ≤ asUsize (toI128 x) + asUsize (toI128 y) := by
  unfold subBytes
  rw [consumeGas_panic]
  simp only [failIf_bind_panic, operands_panic, popBytes_panic, expect_bind_panic]
  constructor
  · rintro ⟨hgas, x, y, rest, hstack, bytes, rest', hbytes, hnone | ⟨stop, hstop, hin, h⟩⟩
    · refine ⟨hgas, x, y, bytes, rest', ?_, ?_⟩
      · rw [← hbytes]
        exact hstack
      · unfold checkedUsize at hnone
        split_ifs at hnone with hlt
        exact Nat.not_lt.mp hlt
    · unfold checkedUsize at hstop
      split_ifs at hstop
      cases hstop
      rcases h with hnone | ⟨_, _, h⟩
      · exact absurd hnone (sliceRange_some (Nat.le_add_right _ _) hin)
      · exact absurd h (push_ne_panic _ _)
  · rintro ⟨hgas, x, y, bytes, rest, hstack, hsum⟩
    refine ⟨hgas, x, y, _, hstack, bytes, rest, rfl, Or.inl ?_⟩
    unfold checkedUsize
    rw [if_neg (Nat.not_lt.mpr hsum)]

/-! ## turns and runs -/

theorem goesOn_panic {m : Instr Unit} {s : Interpreter} : goesOn m s = .panic ↔ m s = .panic := by
  unfold goesOn
  constructor
  · intro h
    rcases bind_panic.mp h with h | ⟨_, _, _, h⟩
    · exact h
    · cases h
  · exact fun h => bind_panic.mpr (Or.inl h)

/-- the state behind the opcode -/
def behindOpcode (s : Interpreter) : Interpreter := { s with pcBits := s.pcBits + 8 }

theorem Sound.behindOpcode {s : Interpreter} (hs : Sound s) : Sound (behindOpcode s) :=
  ⟨hs.values, hs.gasUsed_le⟩

theorem dangerous_of_exec {c : Crypto} {s : Interpreter} {op : Opcode} (hs : Sound s)
    (hop : opcodeAt s = some op) (h : exec c op (behindOpcode s) = .panic) : Dangerous s := by
  have hunchecked : op.Unchecked := (costs_exec c op).keeps.panic hs.behindOpcode h
  cases op with
  | divMod =>
    obtain ⟨hgas, width, flavor, himm, hwidth, hstack⟩ := divMod_panic.mp (goesOn_panic.mp h)
    exact .divMod hop ⟨hgas, himm, hstack⟩ hwidth
  | div =>
    obtain ⟨hgas, a, b, himm, hstack, hb, hquot⟩ :=
      (extendedArithmetic_panic computes_div hs.behindOpcode).mp (goesOn_panic.mp h)
    exact .div hop ⟨hgas, himm, hstack⟩ hb hquot
  | lShift =>
    obtain ⟨hgas, a, b, himm, hstack, hb⟩ :=
      (extendedArithmetic_panic computes_lShift hs.behindOpcode).mp (goesOn_panic.mp h)
    exact .shift (Or.inl hop) ⟨hgas, himm, hstack⟩ hb
  | rShift =>
    obtain ⟨hgas, a, b, himm, hstack, hb⟩ :=
      (extendedArithmetic_panic computes_rShift hs.behindOpcode).mp (goesOn_panic.mp h)
    exact .shift (Or.inr hop) ⟨hgas, himm, hstack⟩ hb
  | subBytes =>
    obtain ⟨hgas, x, y, bytes, rest, hstack, hsum⟩ := subBytes_panic.mp (goesOn_panic.mp h)
    exact .subBytes hop hgas ⟨x, y, hstack, rfl, rfl⟩ hsum
  | _ => exact hunchecked.elim

theorem exec_of_dangerous {c : Crypto} {s : Interpreter} (hs : Sound s) (h : Dangerous s) :
    ∃ op, opcodeAt s = some op ∧ exec c op (behindOpcode s) = .panic := by
  cases h with
  | divMod hop hat hwidth =>
    refine ⟨_, hop, goesOn_panic.mpr (divMod_panic.mpr ?_)⟩
    exact ⟨hat.hasGas, _, _, hat.immediates_eq, hwidth, hat.operands⟩
  | div hop hat hb hquot =>
    refine ⟨_, hop, goesOn_panic.mpr
      ((extendedArithmetic_panic computes_div hs.behindOpcode).mpr ?_)⟩
    exact ⟨hat.hasGas, _, _, hat.immediates_eq, hat.operands, hb, hquot⟩
  | shift hop hat hb =>
    rcases hop with hop | hop
    · refine ⟨_, hop, goesOn_panic.mpr
        ((extendedArithmetic_panic computes_lShift hs.behindOpcode).mpr ?_)⟩
      exact ⟨hat.hasGas, _, _, hat.immediates_eq, hat.operands, hb⟩
    · refine ⟨_, hop, goesOn_panic.mpr
        ((extendedArithmetic_panic computes_rShift hs.behindOpcode).mpr ?_)⟩
      exact ⟨hat.hasGas, _, _, hat.immediates_eq, hat.operands, hb⟩
  | subBytes hop hgas hstack hsum =>
    obtain ⟨x, y, hstack, rfl, rfl⟩ := hstack
    exact ⟨_, hop, goesOn_panic.mpr (subBytes_panic.mpr ⟨hgas, x, y, _, _, hstack, hsum⟩)⟩

theorem fetchAndExec_panic {c : Crypto} {s : Interpreter} : fetchAndExec c s = .panic ↔
    ∃ op, opcodeAt s = some op ∧ exec c op (behindOpcode s) = .panic := by
  unfold fetchAndExec opcodeAt
  rw [readUint8_panic]
  constructor
  · rintro ⟨b, hb, h⟩
    cases hop : Opcode.ofByte b with
    | none =>
      rw [hop] at h
      cases h
    | some op =>
      rw [hop] at h
      rw [hb]
      exact ⟨op, hop, h⟩
  · rintro ⟨op, hop, h⟩
    obtain ⟨b, hb, hop⟩ := Option.bind_eq_some_iff.mp hop
    refine ⟨b, hb, ?_⟩
    rw [hop]
    exact h

/-- there is code to read where there is an opcode -/
theorem not_end_of_opcode {s : Interpreter} {op : Opcode} (h : opcodeAt s = some op) :
    ¬ s.pcBits ≥ s.totalBits := by
  obtain ⟨b, hb, _⟩ := Option.bind_eq_some_iff.mp h
  have hin : s.pcBits + 8 ≤ s.currentCode.dataBytes.length * 8 := by
    by_contra hout
    unfold byteAt at hb
    rw [if_pos (Nat.not_le.mp hout)] at hb
    cases hb
  unfold Interpreter.totalBits
  omega

/-- **A turn panics** exactly in the dangerous states. -/
theorem turn_panic_iff {c : Crypto} {limit : Uint64} {s : Interpreter} (hs : Running limit s) :
    turn c s = .panic ↔ Dangerous s := by
  have hstep : step c s = .panic ↔ Dangerous s := by
    constructor
    · intro h
      by_cases hend : s.pcBits ≥ s.totalBits
      · rw [step_of_end hend] at h
        exact absurd h fun h => (safe_leave (p := False)).panic hs.sound h
      · rw [step_of_code hend] at h
        obtain ⟨op, hop, h⟩ := fetchAndExec_panic.mp h
        exact dangerous_of_exec hs.sound hop h
    · intro h
      obtain ⟨op, hop, h⟩ := exec_of_dangerous (c := c) hs.sound h
      rw [step_of_code (not_end_of_opcode hop)]
      exact fetchAndExec_panic.mpr ⟨op, hop, h⟩
  rw [← hstep]
  unfold turn
  cases h : step c s with
  | ok b t => cases b <;> exact ⟨fun h' => (nomatch h'), fun h' => (nomatch h')⟩
  | err kind t =>
    have hc2 := ((safe_step c).err hs.sound h).2.c2_eq.trans hs.c2_none
    dsimp only [raised]
    rw [hc2]
    exact ⟨fun h' => (nomatch h'), fun h' => (nomatch h')⟩
  | panic => exact ⟨fun _ => rfl, fun _ => rfl⟩

section
variable (c : Crypto) (code data : Cell) (message : Message) (context : ExecutionContext)

/-- **Contract code panics** if and only if its run comes to a dangerous state. -/
theorem execute_panics_iff : (∃ n, execute c n code data message context = .panic)
    ↔ ∃ n t, execute c n code data message context = .next t ∧ Dangerous t := by
  refine panics_iff.trans (exists₂_congr fun n t => and_congr_right fun ht => ?_)
  exact turn_panic_iff (running_of_execute ht)

/-- **Contract code returns** if and only if its run does not come to a dangerous state and, where
the gas limit is the largest of all and gas never runs out, the run ends. -/
theorem execute_returns_iff :
    (∃ n r, execute c n code data message context = .done r)
      ↔ (∀ n t, execute c n code data message context = .next t → ¬ Dangerous t)
        ∧ (context.gasLimit = BitVec.allOnes 64 →
          ∃ n, ∀ t, execute c n code data message context ≠ .next t) := by
  have hdangerous : ∀ n t, execute c n code data message context = .next t →
      (turn c t ≠ .panic ↔ ¬ Dangerous t) :=
    fun n t ht => not_congr (turn_panic_iff (running_of_execute ht))
  have hends : (∃ n, ∀ t, execute c n code data message context ≠ .next t)
      ↔ (context.gasLimit = BitVec.allOnes 64 →
        ∃ n, ∀ t, execute c n code data message context ≠ .next t) := by
    refine ⟨fun h _ => h, fun h => ?_⟩
    by_cases hlimit : context.gasLimit = BitVec.allOnes 64
    · exact h hlimit
    · exact execute_ends c code data message hlimit
  rw [← hends]
  refine returns_iff.trans (and_congr_left fun _ => ?_)
  exact forall₂_congr fun n t => ⟨fun h ht => (hdangerous n t ht).mp (h ht),
    fun h ht => (hdangerous n t ht).mpr (h ht)⟩

end

/-! ## contracts that panic -/

def sampleMessage : Message := ⟨.internal, ⟨⟨0⟩, ⟨0⟩⟩, ⟨⟨0⟩, ⟨0⟩⟩, 0, [], 0, 0⟩

def sampleContext : ExecutionContext := ⟨0, 0, 0, 1000⟩

def emptyCell : Cell := ⟨[], [], false, Nat.zero_le _, Nat.zero_le _⟩

/-- the code that pushes an integer -/
def pushIntCode (x : Int) : Bytes := 0x08 :: 1 :: encodeWord 32 (fromI128 x)

/-- the least integer, divided by -1 -/
def divModCode : Cell :=
  ⟨pushIntCode I128_MIN ++ pushIntCode (-1) ++ [0x14, 0, 128, 1], [], false,
    Nat.le_of_ble_eq_true rfl, Nat.zero_le _⟩

theorem divMod_panics :
    execute sampleCrypto 3 divModCode emptyCell sampleMessage sampleContext = .panic
    ∧ ¬ ∀ c code data message context,
      ∃ n r, execute c n code data message context = .done r := by
  have hpanic : execute sampleCrypto 3 divModCode emptyCell sampleMessage sampleContext
      = .panic := Turn.eq_panic (by decide +kernel)
  refine ⟨hpanic, fun h => ?_⟩
  obtain ⟨n, t, ht, hp⟩ := panics_iff.mp ⟨3, hpanic⟩
  exact (returns_iff.mp (h _ _ _ _ _)).1 n t ht hp

/-- 5 / 1 at width 128, signed -/
def divCode : Cell :=
  ⟨pushIntCode 5 ++ pushIntCode 1 ++ [0x17, 0, 128, 1], [], false,
    Nat.le_of_ble_eq_true rfl, Nat.zero_le _⟩

example : execute sampleCrypto 3 divCode emptyCell sampleMessage sampleContext = .panic :=
  Turn.eq_panic (by decide +kernel)

/-- one byte from the offset -1 on -/
def subBytesCode : Cell :=
  ⟨[0x09, 0, 2, 7, 8] ++ pushIntCode (-1) ++ pushIntCode 1 ++ [0x32], [], false,
    Nat.le_of_ble_eq_true rfl, Nat.zero_le _⟩

example : execute sampleCrypto 4 subBytesCode emptyCell sampleMessage sampleContext = .panic :=
  Turn.eq_panic (by decide +kernel)

end Onx.Vm
