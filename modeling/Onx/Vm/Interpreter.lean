import Onx.Vm.Types

/-!
# The state of the interpreter

The stack is a list, top first.  Arithmetic that the code leaves to the language is here with its
panics, as are ranges and copies of slices.

* `Interpreter`              stack, code with its bit offset, gas, control registers;
* `consumeGas`, `pop`, `push`, `readUint8`    what instructions are made of; `consumeGas_apply` and so
                             on: what they do.
-/

namespace Onx.Vm
open Machine

def MAX_STACK_DEPTH : Nat := 1023

structure Continuation where
  code : Cell
  pcBits : Nat
deriving DecidableEq

structure ControlRegisters where
  /-- return -/
  c0 : Option Continuation
  /-- alternative return -/
  c1 : Option Continuation
  /-- entered on an exception -/
  c2 : Option Continuation
deriving DecidableEq

structure Interpreter where
  /-- top first -/
  stack : List StackValue
  /-- code cells with bit offsets, the innermost first -/
  callStack : List (Cell × Nat)
  currentCode : Cell
  pcBits : Nat
  data : Cell
  outMessages : List Message
  gasLimit : Uint64
  gasUsed : Uint64
  context : ExecutionContext
  codeRefs : List Cell
  controlRegisters : ControlRegisters
deriving DecidableEq

abbrev Instr (α : Type) := Prog Interpreter ExceptionKind α

/-! ## arithmetic that is not checked by the code -/

/-- `a / b` -/
def divI128 (a b : Int) : Option Int := if b = 0 then none else checkedI128 (a.tdiv b)

/-- `a % b` -/
def remI128 (a b : Int) : Option Int :=
  if b = 0 ∨ (a = I128_MIN ∧ b = -1) then none else some (a.tmod b)

/-- `a.rem_euclid(b)` -/
def remEuclidI128 (a b : Int) : Option Int :=
  if b = 0 ∨ (a = I128_MIN ∧ b = -1) then none else some (a % b)

/-- `a >> b` -/
def shrI128 (a b : Int) : Option Int := if 0 ≤ b ∧ b < 128 then some (a >>> b.toNat) else none

/-- `checked_add_signed` -/
def checkedAddSigned (n : Nat) (x : Int) : Option Nat :=
  if 0 ≤ n + x ∧ n + x < 2^64 then some (n + x).toNat else none

/-- `bytes[start..end]` -/
def sliceRange (bytes : Bytes) (start stop : Nat) : Option Bytes :=
  if start ≤ stop ∧ stop ≤ bytes.length then some ((bytes.drop start).take (stop - start)) else none

/-- `copy_from_slice` into 32 bytes -/
def copyFromSlice (bytes : Bytes) : Option Uint256 :=
  if bytes.length = 32 then some (decodeWord 256 bytes) else none

/-- `stack[len - count..].rotate_left(left)`: the `left` deeper of `count` values come to the top -/
def rotateLeft (count left : Nat) (stack : List StackValue) : Option (List StackValue) :=
  if count ≤ stack.length ∧ left ≤ count then
    let right := count - left
    some ((stack.drop right).take left ++ stack.take right ++ stack.drop count)
  else none

namespace Interpreter

/-- `new`; the message is not read -/
def new (code data : Cell) (_message : Message) (context : ExecutionContext) : Interpreter where
  stack := []
  callStack := []
  currentCode := code
  pcBits := 0
  data := data
  outMessages := []
  gasLimit := context.gasLimit
  gasUsed := 0
  context := context
  codeRefs := []
  controlRegisters := ⟨none, none, none⟩

variable (self : Interpreter)

def setExceptionHandler (continuation : Continuation) : Interpreter :=
  { self with controlRegisters := { self.controlRegisters with c2 := some continuation } }

def setAlternativeReturn (continuation : Continuation) : Interpreter :=
  { self with controlRegisters := { self.controlRegisters with c1 := some continuation } }

def jumpTo (continuation : Continuation) : Interpreter :=
  { self with currentCode := continuation.code, pcBits := continuation.pcBits }

def totalBits : Nat := self.currentCode.dataBytes.length * 8

end Interpreter

/-! ## gas, stack and code -/

/-- takes the continuation out of `c0`, or of `c1` -/
def takeReturn (alternative : Bool) : Instr (Option Continuation) := do
  let self ← Prog.get
  Prog.modify (fun self => { self with
    controlRegisters :=
      if alternative then { self.controlRegisters with c1 := none }
      else { self.controlRegisters with c0 := none } })
  pure (if alternative then self.controlRegisters.c1 else self.controlRegisters.c0)

def returnToControlRegister (alternative : Bool) : Instr Bool := do
  match ← takeReturn alternative with
  | some continuation => do
    Prog.modify (fun self => self.jumpTo continuation)
    pure true
  | none => pure false

def consumeGas (amount : Nat) : Instr Unit := do
  let self ← Prog.get
  let newGas := min (self.gasUsed.toNat + amount) (2^64 - 1)
  if newGas > self.gasLimit.toNat then do
    Prog.modify (fun self => { self with gasUsed := self.gasLimit })
    Prog.raise .outOfGas
  else Prog.modify (fun self => { self with gasUsed := BitVec.ofNat 64 newGas })

def pop : Instr StackValue := do
  let self ← Prog.get
  match self.stack with
  | [] => Prog.raise .malformedCell
  | v :: rest => do
    Prog.modify (fun self => { self with stack := rest })
    pure v

def popInteger : Instr Uint256 := do
  match ← pop with
  | .integer bytes => pure bytes
  | _ => Prog.raise .typeMismatch

/-- `to_i128` of an integer from the stack -/
def popI128 : Instr Int := do
  let bytes ← popInteger
  pure (toI128 bytes)

def push (value : StackValue) : Instr Unit := do
  let self ← Prog.get
  Prog.failIf (self.stack.length ≥ MAX_STACK_DEPTH) .malformedCell
  Prog.modify (fun self => { self with stack := value :: self.stack })

def pushI128 (val : Int) : Instr Unit := push (.integer (fromI128 val))

def popBytes : Instr Bytes := do
  match ← pop with
  | .bytes bytes => pure bytes
  | _ => Prog.raise .typeMismatch

def popCell : Instr Cell := do
  match ← pop with
  | .cell cell => pure cell
  | _ => Prog.raise .typeMismatch

def popSlice : Instr Slice := do
  match ← pop with
  | .slice slice => pure slice
  | _ => Prog.raise .typeMismatch

def popBuilder : Instr Builder := do
  match ← pop with
  | .builder builder => pure builder
  | _ => Prog.raise .typeMismatch

def readUint8 : Instr Byte := do
  let self ← Prog.get
  Prog.failIf (self.pcBits + 8 > self.totalBits) .malformedCell
  let byteIdx := self.pcBits / 8
  let bitRem := self.pcBits % 8
  let data := self.currentCode.dataBytes
  let b1 ← Prog.expect data[byteIdx]?
  let b2 := data[byteIdx + 1]?.getD 0
  let val := if bitRem = 0 then b1 else b1 <<< bitRem ||| b2 >>> (8 - bitRem)
  Prog.modify (fun self => { self with pcBits := self.pcBits + 8 })
  pure val

def readUint16 : Instr Uint16 := do
  let high ← readUint8
  let low ← readUint8
  pure (high ++ low)

def readBytesExact : Nat → Instr Bytes
  | 0 => pure []
  | len + 1 => do
    let b ← readUint8
    let bytes ← readBytesExact len
    pure (b :: bytes)

/-- the jump by `offset` bytes from the next instruction, within the code -/
def jumpBy (offset : Byte) : Instr Unit := do
  let self ← Prog.get
  let pc ← Prog.ofOption .malformedCell
    ((checkedAddSigned self.pcBits (offset.toInt * 8)).filter (fun pc => pc ≤ self.totalBits))
  Prog.modify (fun self => { self with pcBits := pc })

/-! ## what they do -/

/-- `saturating_add` -/
def gasAfter (s : Interpreter) (amount : Nat) : Nat := min (s.gasUsed.toNat + amount) (2^64 - 1)

/-- the byte at a bit offset -/
def byteAt (code : Cell) (pcBits : Nat) : Option Byte :=
  if pcBits + 8 > code.dataBytes.length * 8 then none
  else
    let b1 := code.dataBytes[pcBits / 8]?.getD 0
    let b2 := code.dataBytes[pcBits / 8 + 1]?.getD 0
    some (if pcBits % 8 = 0 then b1 else b1 <<< (pcBits % 8) ||| b2 >>> (8 - pcBits % 8))

theorem consumeGas_apply (amount : Nat) (s : Interpreter) :
    consumeGas amount s = if gasAfter s amount > s.gasLimit.toNat
      then .err .outOfGas { s with gasUsed := s.gasLimit }
      else .ok () { s with gasUsed := BitVec.ofNat 64 (gasAfter s amount) } := by
  unfold consumeGas
  rw [get_bind]
  show (if gasAfter s amount > s.gasLimit.toNat then _ else _ : Instr Unit) s = _
  split_ifs <;> rfl

theorem pop_apply (s : Interpreter) :
    pop s = match s.stack with
      | [] => .err .malformedCell s
      | v :: rest => .ok v { s with stack := rest } := by
  unfold pop
  rw [get_bind]
  cases s.stack <;> rfl

theorem push_apply (value : StackValue) (s : Interpreter) :
    push value s = if s.stack.length ≥ MAX_STACK_DEPTH then .err .malformedCell s
      else .ok () { s with stack := value :: s.stack } := by
  unfold push
  rw [get_bind]
  split_ifs with h
  · rw [bind_err (failIf_pos h _ _)]
  · rw [bind_ok (failIf_neg h _ _)]
    rfl

theorem readUint8_apply (s : Interpreter) :
    readUint8 s = match byteAt s.currentCode s.pcBits with
      | none => .err .malformedCell s
      | some b => .ok b { s with pcBits := s.pcBits + 8 } := by
  unfold readUint8 byteAt Interpreter.totalBits
  rw [get_bind]
  by_cases h : s.pcBits + 8 > s.currentCode.dataBytes.length * 8
  · rw [bind_err (failIf_pos h _ _), if_pos h]
  · have hin : s.pcBits / 8 < s.currentCode.dataBytes.length := by omega
    rw [bind_ok (failIf_neg h _ _), if_neg h, List.getElem?_eq_getElem hin]
    rfl

end Onx.Vm
