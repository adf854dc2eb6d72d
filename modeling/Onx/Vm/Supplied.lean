import Onx.Lib.TwosComplement
import Onx.Vm.Faults

/-!
# Instructions with what they need

Equations for an instruction that has its gas, its immediates, its operands and room for its
results.

* `behind s gas bytes stack`   the state behind an instruction of that many bytes;
* `gas_bind`, `byte_bind`, `width_bind`, `immediates_bind`   what comes before the operands;
* `operand_bind`, `integer_bind`   an operand from the stack;
* `push_ok`, `push_bind`       a result that there is room for;
* `jumpBy_apply`               a jump within the code;
* `step_goesOn`                a step, from the body of its instruction; `hasGas_of_step`: one that
                               does not fail had its gas;
* `word`, `value`              the word of an integer, and a word read as an integer, signed or not;
                               `toI128_value`: the machine integer in a word is the remainder
                               modulo `2^128` that is in range.
-/

namespace Onx.Vm
open Machine

/-- the state behind an instruction of `bytes` bytes that charges `gas` -/
def behind (s : Interpreter) (gas bytes : Nat) (stack : List StackValue) : Interpreter :=
  { pay s gas with pcBits := s.pcBits + 8 * bytes, stack := stack }

section
variable {α : Type} {s : Interpreter}

/-! ## gas and immediates -/

theorem gas_bind {amount : Nat} {f : Unit → Instr α} (h : HasGas s amount) :
    (consumeGas amount >>= f) s = f () (pay s amount) :=
  bind_ok (consumeGas_paid (Nat.not_lt.mpr h))

theorem byte_bind {b : Byte} {f : Byte → Instr α} (h : byteAt s.currentCode s.pcBits = some b) :
    (readUint8 >>= f) s = f b { s with pcBits := s.pcBits + 8 } := by
  refine bind_ok ?_
  rw [readUint8_apply, h]

/-- the two bytes of a width -/
def widthAt (code : Cell) (pcBits : Nat) : Option Uint16 := do
  let high ← byteAt code pcBits
  let low ← byteAt code (pcBits + 8)
  pure (high ++ low)

theorem widthAt_of_bytes {code : Cell} {pcBits : Nat} {high low : Byte}
    (hhigh : byteAt code pcBits = some high) (hlow : byteAt code (pcBits + 8) = some low) :
    widthAt code pcBits = some (high ++ low) := by
  unfold widthAt
  rw [hhigh, hlow]
  rfl

theorem width_bind {width : Uint16} {f : Uint16 → Instr α}
    (h : widthAt s.currentCode s.pcBits = some width) :
    (readUint16 >>= f) s = f width { s with pcBits := s.pcBits + 8 + 8 } := by
  obtain ⟨high, hhigh, h⟩ := Option.bind_eq_some_iff.mp h
  obtain ⟨low, hlow, h⟩ := Option.bind_eq_some_iff.mp h
  cases h
  rw [readUint16_bind, byte_bind hhigh]
  exact byte_bind hlow

theorem immediates_eq_some_iff {code : Cell} {pcBits : Nat} {width : Uint16} {flavor : Byte} :
    immediates code pcBits = some (width, flavor)
      ↔ widthAt code pcBits = some width ∧ byteAt code (pcBits + 8 + 8) = some flavor := by
  constructor
  · intro h
    obtain ⟨high, hhigh, h⟩ := Option.bind_eq_some_iff.mp h
    obtain ⟨low, hlow, h⟩ := Option.bind_eq_some_iff.mp h
    obtain ⟨_, hflavor, h⟩ := Option.bind_eq_some_iff.mp h
    cases h
    refine ⟨?_, hflavor⟩
    unfold widthAt
    rw [hhigh]
    show (byteAt _ _).bind _ = _
    rw [hlow]
    rfl
  · rintro ⟨hwidth, hflavor⟩
    obtain ⟨high, hhigh, h⟩ := Option.bind_eq_some_iff.mp hwidth
    obtain ⟨low, hlow, h⟩ := Option.bind_eq_some_iff.mp h
    cases h
    unfold immediates
    rw [hhigh]
    show (byteAt _ _).bind _ = _
    rw [hlow]
    show (byteAt _ _).bind _ = _
    rw [hflavor]
    rfl

theorem immediates_bind {width : Uint16} {flavor : Byte} {f : Uint16 → Byte → Instr α}
    (h : immediates s.currentCode s.pcBits = some (width, flavor)) :
    (readUint16 >>= fun width => readUint8 >>= f width) s
      = f width flavor { s with pcBits := s.pcBits + 8 + 8 + 8 } := by
  obtain ⟨hwidth, hflavor⟩ := immediates_eq_some_iff.mp h
  rw [width_bind hwidth]
  exact byte_bind hflavor

/-! ## operands and results -/

theorem operand_bind (kind : Kind) {v : StackValue} {x : kind.Val} {l : List StackValue}
    {f : kind.Val → Instr α} (hs : s.stack = v :: l) (hx : kind.cast v = some x) :
    (kind.pop >>= f) s = f x { s with stack := l } := bind_ok (Kind.pop_some hs hx)

/-- an operand of a machine integer -/
theorem integer_bind {x : Uint256} {l : List StackValue} {f : Int → Instr α}
    (hs : s.stack = .integer x :: l) :
    (popI128 >>= f) s = f (toI128 x) { s with stack := l } := by
  rw [popI128_bind]
  exact operand_bind .integer hs rfl

theorem push_ok {v : StackValue} (h : s.stack.length < MAX_STACK_DEPTH) :
    push v s = .ok () { s with stack := v :: s.stack } := by
  rw [push_apply, if_neg (Nat.not_le.mpr h)]

theorem push_bind {v : StackValue} {f : Unit → Instr α} (h : s.stack.length < MAX_STACK_DEPTH) :
    (push v >>= f) s = f () { s with stack := v :: s.stack } := bind_ok (push_ok h)

theorem push_eq_ok {v : StackValue} {u : Unit} {t : Interpreter} (h : push v s = .ok u t) :
    t = { s with stack := v :: s.stack } := by
  rw [push_apply] at h
  split_ifs at h
  cases h
  rfl

/-- what is on the stack behind a push -/
theorem eq_of_push {v w : StackValue} {u : Unit} {t : Interpreter} {rest : List StackValue}
    (h : push v s = .ok u t) (hresult : t.stack = w :: rest) : w = v := by
  rw [push_eq_ok h] at hresult
  exact (List.cons.inj hresult).1.symm

/-! ## jumps -/

theorem jumpBy_apply (offset : Byte) (s : Interpreter) :
    jumpBy offset s = match jumpTarget s s.pcBits offset with
      | none => .err .malformedCell s
      | some pc => .ok () { s with pcBits := pc } := by
  unfold jumpBy jumpTarget
  rw [get_bind]
  show (Prog.ofOption ExceptionKind.malformedCell ((checkedAddSigned s.pcBits (offset.toInt * 8)).filter
    (fun pc => pc ≤ s.totalBits)) >>= fun pc =>
      Prog.modify fun self : Interpreter => { self with pcBits := pc }) s = _
  cases (checkedAddSigned s.pcBits (offset.toInt * 8)).filter (fun pc => pc ≤ s.totalBits) <;> rfl

/-- what an offset names in the code -/
theorem jumpTarget_eq_some_iff {pcBits target : Nat} {offset : Byte} :
    jumpTarget s pcBits offset = some target
      ↔ (pcBits : Int) + offset.toInt * 8 = target ∧ target < 2^64 ∧ target ≤ s.totalBits := by
  unfold jumpTarget checkedAddSigned
  rw [Option.filter_eq_some_iff]
  split_ifs with h
  · simp only [Option.some.injEq, decide_eq_true_eq]
    omega
  · simp only [false_and, false_iff]
    omega

theorem pcBits_le_of_byteAt {b : Byte} {pcBits : Nat} (h : byteAt s.currentCode pcBits = some b) :
    pcBits + 8 ≤ s.totalBits ∧ pcBits + 8 ≤ 1024 := by
  have hlen : s.currentCode.dataBytes.length ≤ 128 := s.currentCode.data_le
  have hend : ¬ pcBits + 8 > s.currentCode.dataBytes.length * 8 := fun hend => by
    unfold byteAt at h
    rw [if_pos hend] at h
    cases h
  show pcBits + 8 ≤ s.currentCode.dataBytes.length * 8 ∧ _
  omega

end

/-! ## steps -/

/-- what a step does after whose instruction execution goes on -/
def goneOn : Res Interpreter ExceptionKind Unit → Res Interpreter ExceptionKind Bool
  | .ok _ t => .ok true t
  | .err e t => .err e t
  | .panic => .panic

section
variable {c : Crypto} {s t : Interpreter} {op : Opcode} {m : Instr Unit}

/-- the body of an instruction after which execution goes on -/
theorem step_goesOn (hop : opcodeAt s = some op) (hexec : exec c op = goesOn m) :
    step c s = goneOn (m (behindOpcode s)) := by
  rw [step_of_opcode hop, hexec]
  unfold goesOn
  rw [bind_apply]
  cases m (behindOpcode s) <;> rfl

theorem step_goesOn_ok (hop : opcodeAt s = some op) (hexec : exec c op = goesOn m)
    (h : m (behindOpcode s) = .ok () t) : step c s = .ok true t := by
  rw [step_goesOn hop hexec, h]
  rfl

theorem goneOn_eq_ok {r : Res Interpreter ExceptionKind Unit} {go : Bool} :
    goneOn r = .ok go t ↔ go = true ∧ r = .ok () t := by
  cases r with
  | ok _ u => simp [goneOn, eq_comm]
  | err e u => simp [goneOn]
  | panic => simp [goneOn]

theorem step_goesOn_err {e : ExceptionKind} (hop : opcodeAt s = some op)
    (hexec : exec c op = goesOn m) (h : m (behindOpcode s) = .err e t) :
    step c s = .err e t := by
  rw [step_goesOn hop hexec, h]
  rfl

/-- an instruction that charges first -/
theorem hasGas_of_step {op : Opcode} {amount : Nat} {f : Unit → Instr Unit} {go : Bool}
    (hop : opcodeAt s = some op) (hexec : exec c op = goesOn (consumeGas amount >>= f))
    (h : step c s = .ok go t) : HasGas s amount := by
  by_contra hgas
  have hbody : (consumeGas amount >>= f) (behindOpcode s)
      = .err .outOfGas { behindOpcode s with gasUsed := s.gasLimit } :=
    bind_err (consumeGas_out (Nat.not_le.mp hgas))
  rw [step_goesOn_err hop hexec hbody] at h
  cases h

end

/-! ## integers in words -/

/-- the word of an integer -/
def word (x : Int) : Uint256 := BitVec.ofInt 256 x

/-- a word as an integer: in two's complement, or without a sign -/
def value (signed : Bool) (x : Uint256) : Int := if signed then x.toInt else x.toNat

/-- either way the word is the word of its integer -/
theorem word_value (signed : Bool) (x : Uint256) : word (value signed x) = x := by
  unfold word value
  cases signed with
  | true => exact BitVec.ofInt_toInt
  | false =>
    show BitVec.ofInt 256 (x.toNat : Int) = x
    rw [BitVec.ofInt_natCast, BitVec.ofNat_toNat, BitVec.setWidth_eq]

theorem toI128_word (x : Int) : toI128 (word x) = x.bmod (2^128) :=
  TwosComplement.toInt_setWidth_ofInt (by decide) x

theorem toI128_value (signed : Bool) (x : Uint256) :
    toI128 x = (value signed x).bmod (2^128) := by
  rw [← toI128_word, word_value]

end Onx.Vm
