import Onx.Vm.Interpreter

/-!
# Instructions and runs

Each instruction is a definition of its own, with gas, immediates and operands in the order of the
source.

* `Opcode.ofByte`    the instruction bytes;
* `exec`             one instruction; the answer is `false` where execution has finished;
* `step`, `turn`     one instruction from the code, and one turn of the loop of `run`;
* `run`, `execute`   at most `n` turns, and these on contract code.
-/

namespace Onx.Vm
open Machine

/-! ## stack instructions -/

def drop : Instr Unit := do
  consumeGas 1
  let _ ← pop

def dup : Instr Unit := do
  consumeGas 1
  let self ← Prog.get
  let top ← Prog.ofOption .malformedCell self.stack.head?
  push top

def swap : Instr Unit := do
  consumeGas 1
  let a ← pop
  let b ← pop
  push a
  push b

def «over» : Instr Unit := do
  consumeGas 1
  let self ← Prog.get
  Prog.failIf (self.stack.length < 2) .malformedCell
  let second ← Prog.expect self.stack[1]?
  push second

def rot : Instr Unit := do
  consumeGas 1
  let c ← pop
  let b ← pop
  let a ← pop
  push b
  push c
  push a

def pick : Instr Unit := do
  consumeGas 1
  let depth ← readUint8
  let self ← Prog.get
  Prog.failIf (depth.toNat ≥ self.stack.length) .malformedCell
  let item ← Prog.expect self.stack[depth.toNat]?
  push item

def roll : Instr Unit := do
  consumeGas 1
  let depth ← readUint8
  let self ← Prog.get
  Prog.failIf (depth.toNat ≥ self.stack.length) .malformedCell
  let item ← Prog.expect self.stack[depth.toNat]?
  Prog.modify (fun self => { self with stack := self.stack.eraseIdx depth.toNat })
  push item

def pushInt : Instr Unit := do
  consumeGas 1
  let _signed ← readUint8
  let bytes ← readBytesExact 32
  let arr ← Prog.expect (copyFromSlice bytes)
  push (.integer arr)

def pushBytes : Instr Unit := do
  let len ← readUint16
  consumeGas (1 + divCeil len.toNat 32)
  let bytes ← readBytesExact len.toNat
  push (.bytes bytes)

def nip : Instr Unit := do
  consumeGas 1
  let self ← Prog.get
  Prog.failIf (self.stack.length < 2) .malformedCell
  let top ← pop
  let _ ← pop
  push top

def tuck : Instr Unit := do
  consumeGas 1
  let self ← Prog.get
  Prog.failIf (self.stack.length < 2) .malformedCell
  let b ← pop
  let a ← pop
  push b
  push a
  push b

def blkSwap : Instr Unit := do
  consumeGas 1
  let left ← readUint8
  let right ← readUint8
  let count ← Prog.ofOption .malformedCell (checkedUsize (left.toNat + right.toNat))
  let self ← Prog.get
  Prog.failIf (left = 0 ∨ right = 0 ∨ self.stack.length < count) .malformedCell
  let stack ← Prog.expect (rotateLeft count left.toNat self.stack)
  Prog.modify (fun self => { self with stack := stack })

/-! ## arithmetic -/

/-- gas and immediates of the opcodes from 0x10 to 0x15; the flavor is not looked at -/
def arithmetic (gas : Nat) (op : Instr Unit) : Instr Unit := do
  consumeGas gas
  let width ← readUint16
  let _flavor ← readUint8
  Prog.failIf (width = 0 ∨ width > 256) .malformedCell
  op

def add : Instr Unit := arithmetic 4 do
  let b ← popI128
  let a ← popI128
  let res ← Prog.ofOption .integerOverflow (checkedI128 (a + b))
  pushI128 res

def sub : Instr Unit := arithmetic 4 do
  let b ← popI128
  let a ← popI128
  let res ← Prog.ofOption .integerOverflow (checkedI128 (a - b))
  pushI128 res

def neg : Instr Unit := arithmetic 4 do
  let a ← popI128
  let res ← Prog.ofOption .integerOverflow (checkedI128 (-a))
  pushI128 res

def mul : Instr Unit := arithmetic 8 do
  let b ← popI128
  let a ← popI128
  let res ← Prog.ofOption .integerOverflow (checkedI128 (a * b))
  pushI128 res

def divMod : Instr Unit := arithmetic 8 do
  let b ← popI128
  let a ← popI128
  Prog.failIf (b = 0) .integerOverflow
  let q ← Prog.expect (divI128 a b)
  let r ← Prog.expect (remI128 a b)
  pushI128 q
  pushI128 r

def cmp : Instr Unit := arithmetic 4 do
  let b ← popI128
  let a ← popI128
  pushI128 (if a < b then -1 else if a > b then 1 else 0)

def isZero : Instr Unit := do
  consumeGas 4
  let a ← popInteger
  pushI128 (if a = 0 then 1 else 0)

/-- unsigned, signed, or any -/
def fitsFlavor (flavor : Byte) (limit result : Int) : Instr Bool :=
  if flavor = 0 then
    if result ≥ 0 then do
      let double ← Prog.ofOption .integerOverflow (checkedI128 (limit * 2))
      pure (decide (result < double))
    else pure false
  else if flavor = 1 then do
    let least ← Prog.expect (checkedI128 (-limit))
    pure (decide (result ≥ least ∧ result < limit))
  else pure true

/-- flavor 2 wraps around -/
def wrapFlavor (flavor : Byte) (limit result : Int) : Instr Int :=
  if flavor = 2 then do
    let modulus ← Prog.ofOption .integerOverflow (checkedI128 (limit * 2))
    Prog.expect (remEuclidI128 result modulus)
  else pure result

def inRange (width : Nat) (flavor : Byte) (result : Int) : Instr Int := do
  let limit ← Prog.ofOption .integerOverflow (checkedShl 1 (width - 1))
  let fits ← fitsFlavor flavor limit result
  Prog.failIf (fits = false) .integerOverflow
  wrapFlavor flavor limit result

/-- opcodes from 0x17 to 0x19: `op` from width and operands, then the range check of the flavor -/
def extendedArithmetic (gas : Nat) (op : Nat → Int → Int → Instr Int) : Instr Unit := do
  consumeGas gas
  let width ← readUint16
  let flavor ← readUint8
  Prog.failIf (width = 0 ∨ width > 128 ∨ flavor > 2) .malformedCell
  let b ← popI128
  let a ← popI128
  let result ← op width.toNat a b
  let result ← inRange width.toNat flavor result
  pushI128 result

/-- the quotient only -/
def divOp (_width : Nat) (a b : Int) : Instr Int := do
  Prog.failIf (b = 0) .integerOverflow
  Prog.ofOption .integerOverflow (checkedI128 (a.tdiv b))

def lShiftOp (width : Nat) (a b : Int) : Instr Int := do
  Prog.failIf (b < 0 ∨ b ≥ width) .integerOverflow
  Prog.ofOption .integerOverflow (checkedShl a b.toNat)

def rShiftOp (width : Nat) (a b : Int) : Instr Int := do
  Prog.failIf (b < 0 ∨ b ≥ width) .integerOverflow
  Prog.expect (shrI128 a b)

def div : Instr Unit := extendedArithmetic 8 divOp

def lShift : Instr Unit := extendedArithmetic 4 lShiftOp

def rShift : Instr Unit := extendedArithmetic 4 rShiftOp

def conv : Instr Unit := do
  consumeGas 4
  let _width ← readUint16
  let _signed ← readUint8
  let a ← popInteger
  push (.integer a)

/-! ## byte strings -/

def byteLen : Instr Unit := do
  consumeGas 1
  let bytes ← popBytes
  pushI128 bytes.length

def concat : Instr Unit := do
  let b ← popBytes
  let a ← popBytes
  consumeGas (4 + divCeil (a.length + b.length) 32)
  push (.bytes (a ++ b))

def subBytes : Instr Unit := do
  consumeGas 4
  let len ← popI128
  let offset ← popI128
  let bytes ← popBytes
  let stop ← Prog.expect (checkedUsize (asUsize offset + asUsize len))
  Prog.failIf (stop > bytes.length) .malformedCell
  let res ← Prog.expect (sliceRange bytes (asUsize offset) stop)
  push (.bytes res)

def byteEq : Instr Unit := do
  let b ← popBytes
  let a ← popBytes
  consumeGas (1 + divCeil (min a.length b.length) 32)
  pushI128 (if a = b then 1 else 0)

/-! ## cells -/

def newC : Instr Unit := do
  consumeGas 10
  push (.builder Builder.default)

section
variable (c : Crypto)

def endC : Instr Unit := do
  consumeGas 10
  let builder ← popBuilder
  let cellRefs := builder.references.map (Cell.hash c)
  let cell ← Prog.ofOption .malformedCell (Cell.new builder.dataBytes cellRefs).toOption
  push (.cell cell)

end

def stBits : Instr Unit := do
  consumeGas 10
  let width ← readUint16
  let _signed ← readUint8
  let valBytes ← popInteger
  let builder ← popBuilder
  let (_, builder) ← Prog.onLocal (Builder.appendBits valBytes width.toNat) builder
  push (.builder builder)

def stRef : Instr Unit := do
  consumeGas 10
  let cell ← popCell
  let builder ← popBuilder
  Prog.failIf (builder.references.length ≥ 4) .malformedCell
  push (.builder { builder with references := builder.references ++ [cell] })

def stBytes : Instr Unit := do
  let bytes ← popBytes
  consumeGas (10 + divCeil bytes.length 32)
  let builder ← popBuilder
  Prog.failIf (builder.dataBytes.length + bytes.length > 128) .malformedCell
  push (.builder { builder with dataBytes := builder.dataBytes ++ bytes })

def cToS : Instr Unit := do
  consumeGas 10
  let cell ← popCell
  Prog.failIf (cell.isSpecial = true) .absentNode
  push (.slice (Slice.new cell))

/-- `LDU` and `LDI`, whose arms are the same -/
def load : Instr Unit := do
  consumeGas 10
  let width ← readUint16
  let slice ← popSlice
  let (valBytes, slice) ← Prog.onLocal (Slice.readBits width.toNat) slice
  push (.slice slice)
  push (.integer valBytes)

def ldU : Instr Unit := load

def ldI : Instr Unit := load

/-- the next child, or a cell with nothing but the reference to it -/
def refCell (slice : Slice) : Instr Cell :=
  if slice.refOffset < slice.childCells.length then Prog.expect slice.childCells[slice.refOffset]?
  else do
    let refHash ← Prog.expect slice.cell.cellRefs[slice.refOffset]?
    Prog.expect (Cell.new [] [refHash]).toOption

def ldRef : Instr Unit := do
  consumeGas 10
  let slice ← popSlice
  Prog.failIf (slice.remainingRefs = 0) .malformedCell
  let refCell ← refCell slice
  push (.slice { slice with refOffset := slice.refOffset + 1 })
  push (.cell refCell)

def isExotic : Instr Unit := do
  consumeGas 10
  let cell ← popCell
  pushI128 (if cell.isSpecial then 1 else 0)

def sEmpty : Instr Unit := do
  consumeGas 1
  let slice ← popSlice
  pushI128 (if slice.remainingBits = 0 ∧ slice.remainingRefs = 0 then 1 else 0)

def sBits : Instr Unit := do
  consumeGas 1
  let slice ← popSlice
  pushI128 slice.remainingBits

def sRefs : Instr Unit := do
  consumeGas 1
  let slice ← popSlice
  pushI128 slice.remainingRefs

/-! ## cryptography -/

section
variable (c : Crypto)

def ONX_EXEC_HASH_V1_TAG : DomainTag := DomainTag.fromAscii "ONX_EXEC_HASH_V1" (by decide)

def hashBytes : Instr Unit := do
  consumeGas 200
  let bytes ← popBytes
  push (.integer (domainHash c ONX_EXEC_HASH_V1_TAG bytes))

def hashCell : Instr Unit := do
  consumeGas 200
  let cell ← popCell
  push (.integer (cell.hash c))

/-- a key or signature that does not decode is not valid -/
def validSignature (hash32 : Uint256) (sigBytes pubkeyBytes : Bytes) : Bool :=
  match PublicKey.decodeExact c pubkeyBytes, Signature.decodeExact sigBytes with
  | .ok pk, .ok s => pk.verify c TX_BODY_V1 (encodeWord 32 hash32) s
  | _, _ => false

def chkSignU : Instr Unit := do
  consumeGas 4000
  let hash32 ← popInteger
  let sigBytes ← popBytes
  let pubkeyBytes ← popBytes
  Prog.failIf (pubkeyBytes.length ≠ 32 ∨ sigBytes.length ≠ 64) .typeMismatch
  pushI128 (if validSignature c hash32 sigBytes pubkeyBytes then 1 else 0)

end

/-! ## control flow -/

def popNonzero : Instr Bool := do
  let x ← popI128
  pure (decide (x ≠ 0))

def popZero : Instr Bool := do
  let x ← popI128
  pure (decide (x = 0))

/-- the return address of a call, which is also `c0` -/
def saveCaller (self : Interpreter) : Interpreter :=
  { self with
    callStack := (self.currentCode, self.pcBits) :: self.callStack
    controlRegisters :=
      { self.controlRegisters with c0 := some ⟨self.currentCode, self.pcBits⟩ } }

def transferTo (refIdx : Nat) (call : Bool) : Instr Unit := do
  let self ← Prog.get
  Prog.failIf (refIdx ≥ self.codeRefs.length) .malformedCell
  let targetCode ← Prog.expect self.codeRefs[refIdx]?
  Prog.onlyIf (call = true) (Prog.modify saveCaller)
  Prog.modify (fun self => { self with currentCode := targetCode, pcBits := 0 })

/-- the opcodes 0x70, 0x71 and 0x73 to 0x76, where `condition` pops what it looks at -/
def transfer (condition : Instr Bool) (call : Bool) : Instr Unit := do
  consumeGas 4
  let refIdx ← readUint8
  let taken ← condition
  Prog.onlyIf (taken = true) (transferTo refIdx.toNat call)

def jmpRef : Instr Unit := transfer (pure true) false

def callRef : Instr Unit := transfer (pure true) true

def ifJmpRef : Instr Unit := transfer popNonzero false

def ifNotJmpRef : Instr Unit := transfer popZero false

def ifCallRef : Instr Unit := transfer popNonzero true

def ifNotCallRef : Instr Unit := transfer popZero true

/-- the caller is off the call stack, and `c0` is the caller before it -/
def dropCaller (self : Interpreter) : Interpreter :=
  let callStack := self.callStack.tail
  { self with
    callStack := callStack
    controlRegisters := { self.controlRegisters with
      c0 := callStack.head?.map (fun (code, pc) => ⟨code, pc⟩) } }

/-- the return of `RET` and `IFRET`; `false` where there is nothing to return to -/
def returnToCaller : Instr Bool := do
  let returned ← returnToControlRegister false
  Prog.onlyIf (returned = true) (Prog.modify dropCaller)
  pure returned

def ret : Instr Bool := do
  consumeGas 4
  returnToCaller

def throw : Instr Unit := do
  consumeGas 4
  let kindByte ← readUint8
  match kindByte.toNat with
  | 0 => Prog.raise .integerOverflow
  | 1 => Prog.raise .absentNode
  | 2 => Prog.raise .malformedCell
  | 3 => Prog.raise .typeMismatch
  | _ => Prog.raise .malformedCell

def ifElse : Instr Unit := do
  consumeGas 4
  let trueOffset ← readUint8
  let falseOffset ← readUint8
  let condition ← popNonzero
  jumpBy (if condition then trueOffset else falseOffset)

def ifRet : Instr Bool := do
  consumeGas 4
  let condition ← popNonzero
  if condition then returnToCaller else pure true

/-- the count says only whether to jump -/
def repeatInstr : Instr Unit := do
  consumeGas 4
  let count ← readUint8
  let offset ← readUint8
  Prog.onlyIf (count > 0) (jumpBy offset)

def untilInstr : Instr Unit := do
  consumeGas 4
  let offset ← readUint8
  let condition ← popZero
  Prog.onlyIf (condition = true) (jumpBy offset)

/-! ## opcodes -/

inductive Opcode where
  | nop | drop | dup | swap | «over» | rot | pick | roll | pushInt | pushBytes | nip | tuck | blkSwap
  | add | sub | neg | mul | divMod | cmp | isZero | div | lShift | rShift | conv
  | byteLen | concat | subBytes | byteEq
  | newC | endC | stBits | stRef | stBytes | cToS | ldU | ldI | ldRef | isExotic | sEmpty | sBits
  | sRefs
  | hashBytes | hashCell | chkSignU
  | jmpRef | callRef | ret | ifJmpRef | ifNotJmpRef | ifCallRef | ifNotCallRef | throw | ifElse
  | ifRet | repeatInstr | untilInstr
deriving DecidableEq

def Opcode.ofByte (opcode : Byte) : Option Opcode :=
  match opcode.toNat with
  | 0x00 => some .nop
  | 0x01 => some .drop
  | 0x02 => some .dup
  | 0x03 => some .swap
  | 0x04 => some .«over»
  | 0x05 => some .rot
  | 0x06 => some .pick
  | 0x07 => some .roll
  | 0x08 => some .pushInt
  | 0x09 => some .pushBytes
  | 0x0A => some .nip
  | 0x0B => some .tuck
  | 0x0C => some .blkSwap
  | 0x10 => some .add
  | 0x11 => some .sub
  | 0x12 => some .neg
  | 0x13 => some .mul
  | 0x14 => some .divMod
  | 0x15 => some .cmp
  | 0x16 => some .isZero
  | 0x17 => some .div
  | 0x18 => some .lShift
  | 0x19 => some .rShift
  | 0x20 => some .conv
  | 0x30 => some .byteLen
  | 0x31 => some .concat
  | 0x32 => some .subBytes
  | 0x33 => some .byteEq
  | 0x40 => some .newC
  | 0x41 => some .endC
  | 0x42 => some .stBits
  | 0x43 => some .stRef
  | 0x44 => some .stBytes
  | 0x45 => some .cToS
  | 0x46 => some .ldU
  | 0x47 => some .ldI
  | 0x48 => some .ldRef
  | 0x49 => some .isExotic
  | 0x4A => some .sEmpty
  | 0x4B => some .sBits
  | 0x4C => some .sRefs
  | 0x60 => some .hashBytes
  | 0x61 => some .hashCell
  | 0x62 => some .chkSignU
  | 0x70 => some .jmpRef
  | 0x71 => some .callRef
  | 0x72 => some .ret
  | 0x73 => some .ifJmpRef
  | 0x74 => some .ifNotJmpRef
  | 0x75 => some .ifCallRef
  | 0x76 => some .ifNotCallRef
  | 0x77 => some .throw
  | 0x78 => some .ifElse
  | 0x79 => some .ifRet
  | 0x7A => some .repeatInstr
  | 0x7B => some .untilInstr
  | _ => none

/-- an instruction after which execution goes on -/
def goesOn (m : Instr Unit) : Instr Bool := do
  m
  pure true

section
variable (c : Crypto)

/-- one instruction; `false` where execution has finished -/
def exec : Opcode → Instr Bool
  | .nop => goesOn (consumeGas 1)
  | .drop => goesOn drop
  | .dup => goesOn dup
  | .swap => goesOn swap
  | .«over» => goesOn «over»
  | .rot => goesOn rot
  | .pick => goesOn pick
  | .roll => goesOn roll
  | .pushInt => goesOn pushInt
  | .pushBytes => goesOn pushBytes
  | .nip => goesOn nip
  | .tuck => goesOn tuck
  | .blkSwap => goesOn blkSwap
  | .add => goesOn add
  | .sub => goesOn sub
  | .neg => goesOn neg
  | .mul => goesOn mul
  | .divMod => goesOn divMod
  | .cmp => goesOn cmp
  | .isZero => goesOn isZero
  | .div => goesOn div
  | .lShift => goesOn lShift
  | .rShift => goesOn rShift
  | .conv => goesOn conv
  | .byteLen => goesOn byteLen
  | .concat => goesOn concat
  | .subBytes => goesOn subBytes
  | .byteEq => goesOn byteEq
  | .newC => goesOn newC
  | .endC => goesOn (endC c)
  | .stBits => goesOn stBits
  | .stRef => goesOn stRef
  | .stBytes => goesOn stBytes
  | .cToS => goesOn cToS
  | .ldU => goesOn ldU
  | .ldI => goesOn ldI
  | .ldRef => goesOn ldRef
  | .isExotic => goesOn isExotic
  | .sEmpty => goesOn sEmpty
  | .sBits => goesOn sBits
  | .sRefs => goesOn sRefs
  | .hashBytes => goesOn (hashBytes c)
  | .hashCell => goesOn (hashCell c)
  | .chkSignU => goesOn (chkSignU c)
  | .jmpRef => goesOn jmpRef
  | .callRef => goesOn callRef
  | .ret => ret
  | .ifJmpRef => goesOn ifJmpRef
  | .ifNotJmpRef => goesOn ifNotJmpRef
  | .ifCallRef => goesOn ifCallRef
  | .ifNotCallRef => goesOn ifNotCallRef
  | .throw => goesOn throw
  | .ifElse => goesOn ifElse
  | .ifRet => ifRet
  | .repeatInstr => goesOn repeatInstr
  | .untilInstr => goesOn untilInstr

/-! ## runs -/

/-- the end of a code cell: back to the caller, if there is one -/
def leave : Instr Bool := do
  let self ← Prog.get
  match self.callStack with
  | (prevCode, prevPc) :: rest => do
    Prog.modify (fun self =>
      { self with callStack := rest, currentCode := prevCode, pcBits := prevPc })
    pure true
  | [] => pure false

def fetchAndExec : Instr Bool := do
  let opcode ← readUint8
  let op ← Prog.ofOption .malformedCell (Opcode.ofByte opcode)
  exec c op

def step : Instr Bool := fun self =>
  if self.pcBits ≥ self.totalBits then leave self else fetchAndExec c self

/-- the number of an exception for its handler -/
def ExceptionKind.discriminator : ExceptionKind → Int
  | .outOfGas => 0
  | .integerOverflow => 1
  | .absentNode => 2
  | .malformedCell => 3
  | .typeMismatch => 4

/-- an exception goes to the handler in `c2`, if there is one and its number fits on the stack -/
def raised (kind : ExceptionKind) (self : Interpreter) : Turn Interpreter ExecutionResult :=
  match self.controlRegisters.c2 with
  | some handler =>
    match pushI128 kind.discriminator self with
    | .ok _ self => .next (self.jumpTo handler)
    | .err _ self => .done (.exception kind self.gasUsed)
    | .panic => .panic
  | none => .done (.exception kind self.gasUsed)

/-- one turn of the loop of `run` -/
def turn (self : Interpreter) : Turn Interpreter ExecutionResult :=
  match step c self with
  | .ok true self => .next self
  | .ok false self => .done (.success self.data self.outMessages self.gasUsed)
  | .err kind self => raised kind self
  | .panic => .panic

/-- at most `n` turns of `run` -/
def run (n : Nat) (self : Interpreter) : Turn Interpreter ExecutionResult := loop (turn c) n self

/-- at most `n` turns of `run` on contract code -/
def execute (n : Nat) (code data : Cell) (message : Message) (context : ExecutionContext) :
    Turn Interpreter ExecutionResult :=
  loop (turn c) n (Interpreter.new code data message context)

end

end Onx.Vm
