import Onx.Vm.Supplied

/-!
# Instructions for cells

What the instructions for builders, cells and slices do with their operands, once their gas is
paid.

* `step_newC`, `step_stBits`, `step_stRef`, `step_stBytes`, `step_endC`   builders;
* `step_cToS`, `step_load`, `step_ldRef`                                  slices;
* `step_hashCell`                                                         the hash of a cell;
* `oneInstruction`        a state at the only instruction of its code, for examples.
-/

namespace Onx.Vm
open Machine

section
variable {c : Crypto} {s t : Interpreter} {rest : List StackValue} {b : Builder} {slice : Slice}
  {cell : Cell}

/-! ## builders -/

theorem step_newC (hop : opcodeAt s = some .newC) (hgas : HasGas s 10) :
    step c s = goneOn (push (.builder Builder.default) (behind s 10 1 s.stack)) := by
  have hbody : newC (behindOpcode s) = push (.builder Builder.default) (behind s 10 1 s.stack) := by
    unfold newC
    rw [gas_bind (s := behindOpcode s) hgas]
    rfl
  rw [step_goesOn hop rfl, hbody]

theorem step_stBits {width : Uint16} {signed : Byte} {valBytes : Uint256}
    (hop : opcodeAt s = some .stBits) (hgas : HasGas s 10)
    (himm : immediates s.currentCode (s.pcBits + 8) = some (width, signed))
    (hstack : s.stack = .integer valBytes :: .builder b :: rest) :
    step c s = goneOn ((Prog.onLocal (Builder.appendBits valBytes width.toNat) b >>= fun (_, b') =>
      push (.builder b')) (behind s 10 4 rest)) := by
  have hbody : stBits (behindOpcode s) = (Prog.onLocal (Builder.appendBits valBytes width.toNat) b
      >>= fun (_, b') => push (.builder b')) (behind s 10 4 rest) := by
    unfold stBits
    rw [gas_bind (s := behindOpcode s) hgas,
      immediates_bind (s := pay (behindOpcode s) 10) himm]
    refine (operand_bind .integer
      (s := { pay s 10 with pcBits := s.pcBits + 8 + 8 + 8 + 8 }) hstack rfl).trans ?_
    exact operand_bind .builder (v := .builder b) (l := rest) rfl rfl
  rw [step_goesOn hop rfl, hbody]

theorem step_stRef {cell : Cell} (hop : opcodeAt s = some .stRef) (hgas : HasGas s 10)
    (hstack : s.stack = .cell cell :: .builder b :: rest) :
    step c s = goneOn ((Prog.failIf (b.references.length ≥ 4) .malformedCell >>= fun _ =>
      push (.builder { b with references := b.references ++ [cell] })) (behind s 10 1 rest)) := by
  have hbody : stRef (behindOpcode s) = (Prog.failIf (b.references.length ≥ 4) .malformedCell
      >>= fun _ => push (.builder { b with references := b.references ++ [cell] }))
        (behind s 10 1 rest) := by
    unfold stRef
    rw [gas_bind (s := behindOpcode s) hgas]
    refine (operand_bind .cell (s := pay (behindOpcode s) 10) hstack rfl).trans ?_
    exact operand_bind .builder (v := .builder b) (l := rest) rfl rfl
  rw [step_goesOn hop rfl, hbody]

/-- this one charges behind its first operand -/
theorem step_stBytes {v : Bytes} (hop : opcodeAt s = some .stBytes)
    (hgas : HasGas s (10 + divCeil v.length 32))
    (hstack : s.stack = .bytes v :: .builder b :: rest) :
    step c s = goneOn ((Prog.failIf (b.dataBytes.length + v.length > 128) .malformedCell >>= fun _ =>
      push (.builder { b with dataBytes := b.dataBytes ++ v }))
        (behind s (10 + divCeil v.length 32) 1 rest)) := by
  have hbody : stBytes (behindOpcode s) = (Prog.failIf (b.dataBytes.length + v.length > 128)
      .malformedCell >>= fun _ => push (.builder { b with dataBytes := b.dataBytes ++ v }))
        (behind s (10 + divCeil v.length 32) 1 rest) := by
    unfold stBytes
    refine (operand_bind .bytes (s := behindOpcode s) hstack rfl).trans ?_
    rw [gas_bind (s := { behindOpcode s with stack := .builder b :: rest }) hgas]
    exact operand_bind .builder (v := .builder b) (l := rest) rfl rfl
  rw [step_goesOn hop rfl, hbody]

theorem step_endC (hop : opcodeAt s = some .endC) (hgas : HasGas s 10)
    (hstack : s.stack = .builder b :: rest) :
    step c s = goneOn ((Prog.ofOption .malformedCell
      (Cell.new b.dataBytes (b.references.map (Cell.hash c))).toOption >>= fun cell =>
        push (.cell cell)) (behind s 10 1 rest)) := by
  have hbody : endC c (behindOpcode s) = (Prog.ofOption .malformedCell
      (Cell.new b.dataBytes (b.references.map (Cell.hash c))).toOption >>= fun cell =>
        push (.cell cell)) (behind s 10 1 rest) := by
    unfold endC
    rw [gas_bind (s := behindOpcode s) hgas]
    exact operand_bind .builder (s := pay (behindOpcode s) 10) hstack rfl
  rw [step_goesOn hop rfl, hbody]

/-! ## slices -/

theorem step_cToS (hop : opcodeAt s = some .cToS) (hgas : HasGas s 10)
    (hstack : s.stack = .cell cell :: rest) :
    step c s = goneOn ((Prog.failIf (cell.isSpecial = true) .absentNode >>= fun _ =>
      push (.slice (Slice.new cell))) (behind s 10 1 rest)) := by
  have hbody : cToS (behindOpcode s) = (Prog.failIf (cell.isSpecial = true) .absentNode >>= fun _ =>
      push (.slice (Slice.new cell))) (behind s 10 1 rest) := by
    unfold cToS
    rw [gas_bind (s := behindOpcode s) hgas]
    exact operand_bind .cell (s := pay (behindOpcode s) 10) hstack rfl
  rw [step_goesOn hop rfl, hbody]

/-- `LDU` and `LDI` -/
theorem step_load {op : Opcode} {width : Uint16} (hload : op = .ldU ∨ op = .ldI)
    (hop : opcodeAt s = some op) (hgas : HasGas s 10)
    (hwidth : widthAt s.currentCode (s.pcBits + 8) = some width)
    (hstack : s.stack = .slice slice :: rest) :
    step c s = goneOn ((Prog.onLocal (Slice.readBits width.toNat) slice >>= fun (val, slice') =>
      push (.slice slice') >>= fun _ => push (.integer val)) (behind s 10 3 rest)) := by
  have hexec : exec c op = goesOn load := by rcases hload with rfl | rfl <;> rfl
  have hbody : load (behindOpcode s) = (Prog.onLocal (Slice.readBits width.toNat) slice
      >>= fun (val, slice') => push (.slice slice') >>= fun _ => push (.integer val))
        (behind s 10 3 rest) := by
    unfold load
    rw [gas_bind (s := behindOpcode s) hgas, width_bind (s := pay (behindOpcode s) 10) hwidth]
    exact operand_bind .slice
      (s := { pay s 10 with pcBits := s.pcBits + 8 + 8 + 8 }) hstack rfl
  rw [step_goesOn hop hexec, hbody]

theorem step_ldRef (hop : opcodeAt s = some .ldRef) (hgas : HasGas s 10)
    (hstack : s.stack = .slice slice :: rest) :
    step c s = goneOn ((Prog.failIf (slice.remainingRefs = 0) .malformedCell >>= fun _ =>
      refCell slice >>= fun child =>
        push (.slice { slice with refOffset := slice.refOffset + 1 }) >>= fun _ =>
          push (.cell child)) (behind s 10 1 rest)) := by
  have hbody : ldRef (behindOpcode s) = (Prog.failIf (slice.remainingRefs = 0) .malformedCell
      >>= fun _ => refCell slice >>= fun child =>
        push (.slice { slice with refOffset := slice.refOffset + 1 }) >>= fun _ =>
          push (.cell child)) (behind s 10 1 rest) := by
    unfold ldRef
    rw [gas_bind (s := behindOpcode s) hgas]
    exact operand_bind .slice (s := pay (behindOpcode s) 10) hstack rfl
  rw [step_goesOn hop rfl, hbody]

theorem step_hashCell (hop : opcodeAt s = some .hashCell) (hgas : HasGas s 200)
    (hstack : s.stack = .cell cell :: rest) :
    step c s = goneOn (push (.integer (cell.hash c)) (behind s 200 1 rest)) := by
  have hbody : hashCell c (behindOpcode s)
      = push (.integer (cell.hash c)) (behind s 200 1 rest) := by
    unfold hashCell
    rw [gas_bind (s := behindOpcode s) hgas]
    exact operand_bind .cell (s := pay (behindOpcode s) 200) hstack rfl
  rw [step_goesOn hop rfl, hbody]

end

/-- code of a few bytes -/
def codeOf (code : Bytes) (hcode : code.length ≤ 128) : Cell := ⟨code, [], false, hcode, Nat.zero_le _⟩

theorem byteAt_codeOf {code : Bytes} {hcode : code.length ≤ 128} {i : Nat} {a : Byte}
    (h : code[i]? = some a) : byteAt (codeOf code hcode) (8 * i) = some a := by
  have hin := (List.getElem?_eq_some_iff.mp h).1
  have hmod : 8 * i % 8 = 0 := Nat.mul_mod_right 8 i
  have hdiv : 8 * i / 8 = i := Nat.mul_div_cancel_left i (by decide)
  have hend : ¬ 8 * i + 8 > code.length * 8 := by omega
  unfold byteAt codeOf
  simp [hmod, hdiv, hend, h]

/-- a state at the only instruction of its code -/
def oneInstruction (code : Cell) (stack : List StackValue) : Interpreter :=
  { Interpreter.new code emptyCell sampleMessage sampleContext with stack := stack }

theorem opcodeAt_oneInstruction (op : Opcode) (code : Cell)
    (h : (byteAt code 0).bind Opcode.ofByte = some op) (stack : List StackValue) :
    opcodeAt (oneInstruction code stack) = some op := h

end Onx.Vm
