import Onx.Vm.Operations

/-!
# What a failing instruction leaves behind

An instruction that fails keeps the call stack, the return registers, the data and the messages.
The operand stack it keeps only if it fails before its operands are off the stack.

* `operation`        the operands of each instruction and its verdict, read off the code behind it;
* `spoils_exec`      an instruction spoils the stack as its operation does;
* `Spoils`           the states in which the next instruction does;
* `faultless_iff`    **a failing step has no effect but on gas and position** outside these states;
* `add_spoils`       an addition with one operand.
-/

namespace Onx.Vm
open Machine

/-! ## the operations -/

/-- an integer result -/
def pushed (val : Int) : Verdict := .push [.integer (fromI128 val)]

/-- immediates of the opcodes from 0x10 to 0x15 -/
def arithmeticOperation (s : Interpreter) (gas : Nat) (o : Operation) : Option Operation :=
  afterGas s gas ((immediates s.currentCode s.pcBits).bind fun (width, _) =>
    if width = 0 ∨ width > 256 then none else some o)

/-- the range check of a flavor; what fits in 128 bits only is refused for want of its bounds -/
def ranged (width : Nat) (flavor : Byte) (result : Int) : Verdict :=
  if flavor = 0 then
    .refuseIf (¬ (width < 127 ∧ 0 ≤ result ∧ result < 2^width)) (pushed result)
  else if flavor = 1 then
    if width = 128 then .panic
    else .refuseIf (¬ (-2^(width - 1) ≤ result ∧ result < 2^(width - 1))) (pushed result)
  else .refuseIf (¬ width < 127) (pushed (result % 2^width))

/-- immediates of the opcodes from 0x17 to 0x19 -/
def extendedOperation (s : Interpreter) (gas : Nat)
    (verdict : Nat → (Int → Verdict) → Int → Int → Verdict) : Option Operation :=
  afterGas s gas ((immediates s.currentCode s.pcBits).bind fun (width, flavor) =>
    if width = 0 ∨ width > 128 ∨ flavor > 2 then none
    else some (.integers (verdict width.toNat (ranged width.toNat flavor))))

/-- the reference that `LDREF` goes to -/
def nextRef (slice : Slice) : Option Cell :=
  if slice.refOffset < slice.childCells.length then slice.childCells[slice.refOffset]?
  else slice.cell.cellRefs[slice.refOffset]?.bind fun refHash => (Cell.new [] [refHash]).toOption

/-- the opcodes 0x73 to 0x76 -/
def transferOperation (s : Interpreter) (taken : Int → Bool) : Option Operation :=
  afterGas s 4 ((byteAt s.currentCode s.pcBits).bind fun refIdx =>
    some (.one .integer fun x =>
      .refuseIf (taken (toI128 x) = true ∧ refIdx.toNat ≥ s.codeRefs.length) (.push [])))

/-- where a jump goes, from a position in the code -/
def jumpTarget (s : Interpreter) (pcBits : Nat) (offset : Byte) : Option Nat :=
  (checkedAddSigned pcBits (offset.toInt * 8)).filter (fun pc => pc ≤ s.totalBits)

/-- the operands and the verdict of an instruction, in the state behind its opcode; none where it
takes no operands, or fails before it does -/
def operation (c : Crypto) (s : Interpreter) : Opcode → Option Operation
  | .drop => afterGas s 1 (some (.one .any fun _ => .push []))
  | .swap => afterGas s 1 (some (.two .any .any fun a b => .push [a, b]))
  | .rot => afterGas s 1 (some (.three .any .any .any fun c b a => .push [b, c, a]))
  | .nip => afterGas s 1 (if s.stack.length < 2 then none
      else some (.two .any .any fun top _ => .push [top]))
  | .tuck => afterGas s 1 (if s.stack.length < 2 then none
      else some (.two .any .any fun b a => .push [b, a, b]))
  | .add => arithmeticOperation s 4 (.integers fun a b => .ofOption (checkedI128 (a + b)) pushed)
  | .sub => arithmeticOperation s 4 (.integers fun a b => .ofOption (checkedI128 (a - b)) pushed)
  | .neg => arithmeticOperation s 4 (.one .integer fun x =>
      .ofOption (checkedI128 (-toI128 x)) pushed)
  | .mul => arithmeticOperation s 8 (.integers fun a b => .ofOption (checkedI128 (a * b)) pushed)
  | .divMod => arithmeticOperation s 8 (.integers fun a b => .refuseIf (b = 0)
      (.expect (divI128 a b) fun q => .expect (remI128 a b) fun r =>
        .push [.integer (fromI128 q), .integer (fromI128 r)]))
  | .cmp => arithmeticOperation s 4 (.integers fun a b =>
      pushed (if a < b then -1 else if a > b then 1 else 0))
  | .isZero => afterGas s 4 (some (.one .integer fun a => pushed (if a = 0 then 1 else 0)))
  | .div => extendedOperation s 8 fun _ ranged a b =>
      .refuseIf (b = 0) (.ofOption (checkedI128 (a.tdiv b)) ranged)
  | .lShift => extendedOperation s 4 fun width ranged a b =>
      .refuseIf (b < 0 ∨ b ≥ width) (.ofOption (checkedShl a b.toNat) ranged)
  | .rShift => extendedOperation s 4 fun width ranged a b =>
      .refuseIf (b < 0 ∨ b ≥ width) (.expect (shrI128 a b) ranged)
  | .conv => afterGas s 4 ((immediates s.currentCode s.pcBits).bind fun _ =>
      some (.one .integer fun a => .push [.integer a]))
  | .byteLen => afterGas s 1 (some (.one .bytes fun bytes => pushed (bytes.length)))
  | .concat => some (.two .bytes .bytes fun b a =>
      .refuseIf (gasAfter s (4 + divCeil (a.length + b.length) 32) > s.gasLimit.toNat)
        (.push [.bytes (a ++ b)]))
  | .subBytes => afterGas s 4 (some (.three .integer .integer .bytes fun len offset bytes =>
      .expect (checkedUsize (asUsize (toI128 offset) + asUsize (toI128 len))) fun stop =>
        .refuseIf (stop > bytes.length)
          (.expect (sliceRange bytes (asUsize (toI128 offset)) stop) fun res =>
            .push [.bytes res])))
  | .byteEq => some (.two .bytes .bytes fun b a =>
      .refuseIf (gasAfter s (1 + divCeil (min (a.length) (b.length)) 32)
        > s.gasLimit.toNat) (pushed (if a = b then 1 else 0)))
  | .endC => afterGas s 10 (some (.one .builder fun b =>
      .ofOption (Cell.new b.dataBytes (b.references.map (Cell.hash c))).toOption fun cell =>
        .push [.cell cell]))
  | .stBits => afterGas s 10 ((immediates s.currentCode s.pcBits).bind fun (width, _) =>
      some (.two .integer .builder fun valBytes b =>
        .refuseIf (width.toNat > 256 ∨ b.currentBitLen + width.toNat > 128 * 8)
          (.expect (Builder.appendLoop valBytes width.toNat b.currentBitLen width.toNat b.dataBytes)
            fun data => .push [.builder { b with
              dataBytes := data
              currentBitLen := b.currentBitLen + width.toNat }])))
  | .stRef => afterGas s 10 (some (.two .cell .builder fun cell b =>
      .refuseIf (b.references.length ≥ 4)
        (.push [.builder { b with references := b.references ++ [cell] }])))
  | .stBytes => some (.two .bytes .builder fun bytes b =>
      .refuseIf (gasAfter s (10 + divCeil (bytes.length) 32) > s.gasLimit.toNat)
        (.refuseIf (b.dataBytes.length + bytes.length > 128)
          (.push [.builder { b with dataBytes := b.dataBytes ++ bytes }])))
  | .cToS => afterGas s 10 (some (.one .cell fun cell =>
      .refuseIf (cell.isSpecial = true) (.push [.slice (Slice.new cell)])))
  | .ldU | .ldI => afterGas s 10 ((byteAt s.currentCode s.pcBits).bind fun high =>
      (byteAt s.currentCode (s.pcBits + 8)).bind fun low => some (.one .slice fun slice =>
        .refuseIf (slice.remainingBits < (high ++ low).toNat ∨ (high ++ low).toNat > 256)
          (.expect (Slice.readLoop slice.cell.dataBytes slice.bitOffset (high ++ low).toNat
            (high ++ low).toNat 0) fun valBytes =>
            .push [.slice { slice with bitOffset := slice.bitOffset + (high ++ low).toNat },
              .integer valBytes])))
  | .ldRef => afterGas s 10 (some (.one .slice fun slice =>
      .refuseIf (slice.remainingRefs = 0) (.expect (nextRef slice) fun cell =>
        .push [.slice { slice with refOffset := slice.refOffset + 1 }, .cell cell])))
  | .isExotic => afterGas s 10 (some (.one .cell fun cell =>
      pushed (if cell.isSpecial then 1 else 0)))
  | .sEmpty => afterGas s 1 (some (.one .slice fun slice =>
      pushed (if slice.remainingBits = 0 ∧ slice.remainingRefs = 0 then 1 else 0)))
  | .sBits => afterGas s 1 (some (.one .slice fun slice => pushed slice.remainingBits))
  | .sRefs => afterGas s 1 (some (.one .slice fun slice => pushed slice.remainingRefs))
  | .hashBytes => afterGas s 200 (some (.one .bytes fun bytes =>
      .push [.integer (domainHash c ONX_EXEC_HASH_V1_TAG bytes)]))
  | .hashCell => afterGas s 200 (some (.one .cell fun cell => .push [.integer (cell.hash c)]))
  | .chkSignU => afterGas s 4000 (some (.three .integer .bytes .bytes fun hash32 sig pubkey =>
      .refuseIf (pubkey.length ≠ 32 ∨ sig.length ≠ 64)
        (pushed (if validSignature c hash32 sig pubkey then 1 else 0))))
  | .ifJmpRef | .ifCallRef => transferOperation s fun x => decide (x ≠ 0)
  | .ifNotJmpRef | .ifNotCallRef => transferOperation s fun x => decide (x = 0)
  | .ifElse => afterGas s 4 ((byteAt s.currentCode s.pcBits).bind fun trueOffset =>
      (byteAt s.currentCode (s.pcBits + 8)).bind fun falseOffset => some (.one .integer fun x =>
        .ofOption (jumpTarget s (s.pcBits + 8 + 8) (if toI128 x ≠ 0 then trueOffset else falseOffset))
          fun _ => .push []))
  | .ifRet => afterGas s 4 (some (.one .integer fun _ => .push []))
  | .untilInstr => afterGas s 4 ((byteAt s.currentCode s.pcBits).bind fun offset =>
      some (.one .integer fun x =>
        if toI128 x = 0 then .ofOption (jumpTarget s (s.pcBits + 8) offset) fun _ => .push []
        else .push []))
  | _ => none

section
variable (c : Crypto) (s : Interpreter)

/-! ## instructions without operands -/

section
variable {α β : Type} {m : Instr α} {f : α → Instr β}

/-- a program that leaves the stack as it is where it fails -/
def Settled (m : Instr α) : Prop := ∀ s e t, m s = .err e t → t.stack = s.stack

theorem settled_of_unstacked (h : Unstacked m) : Settled m := fun _ _ _ herr => (h.err herr).1

theorem settled_then (hm : Unstacked m) (hf : ∀ a, Settled (f a)) : Settled (m >>= f) := by
  intro s e t herr
  rw [bind_apply] at herr
  cases h : m s with
  | ok a u =>
    rw [h] at herr
    exact (hf a u e t herr).trans (hm.ok h).1
  | err e' u =>
    rw [h] at herr
    cases herr
    exact (hm.err h).1
  | panic =>
    rw [h] at herr
    cases herr

theorem settled_push (v : StackValue) : Settled (push v) := by
  intro s e t herr
  rw [push_apply] at herr
  split_ifs at herr
  cases herr
  rfl

theorem unstacked_get : Unstacked Prog.get := moves_get

theorem unstacked_modify {g : Interpreter → Interpreter} (h : ∀ s, (g s).stack = s.stack) :
    Unstacked (Prog.modify g) := moves_modify h

theorem unstacked_then (hm : Unstacked m) (hf : ∀ a, Unstacked (f a)) : Unstacked (m >>= f) :=
  moves_bind hm fun a _ => hf a

theorem unstacked_ofOption {e : ExceptionKind} {o : Option α} : Unstacked (Prog.ofOption e o) := by
  cases o with
  | none => exact moves_raise trivial
  | some a => exact moves_pure trivial

theorem unstacked_expect {o : Option α} : Unstacked (Prog.expect o : Instr α) := by
  cases o with
  | none => exact moves_panic
  | some a => exact moves_pure trivial

theorem unstacked_failIf {b : Prop} [Decidable b] {e : ExceptionKind} :
    Unstacked (Prog.failIf b e : Instr Unit) := by
  unfold Prog.failIf
  split_ifs
  · exact moves_raise trivial
  · exact moves_pure trivial

theorem unstacked_consumeGas (amount : Nat) : Unstacked (consumeGas amount) := by
  intro s
  rw [consumeGas_apply]
  split_ifs
  · exact ⟨rfl, trivial⟩
  · exact ⟨rfl, trivial⟩

theorem unstacked_readBytesExact (len : Nat) : Unstacked (readBytesExact len) := by
  induction len with
  | zero => exact moves_pure trivial
  | succ len ih =>
    exact unstacked_then unstacked_readUint8 fun _ => unstacked_then ih fun _ => moves_pure trivial

theorem unstacked_jumpBy (offset : Byte) : Unstacked (jumpBy offset) :=
  unstacked_then unstacked_get fun _ => unstacked_then unstacked_ofOption fun _ =>
    unstacked_modify fun _ => rfl

theorem unstacked_transferTo (refIdx : Nat) (call : Bool) : Unstacked (transferTo refIdx call) := by
  intro s
  rw [transferTo_apply]
  cases s.codeRefs[refIdx]? with
  | none => exact ⟨rfl, trivial⟩
  | some target => cases call <;> exact ⟨rfl, trivial⟩

theorem unstacked_returnToCaller : Unstacked returnToCaller := by
  intro s
  rw [returnToCaller_apply]
  cases s.controlRegisters.c0 with
  | none => exact ⟨rfl, trivial⟩
  | some k => exact ⟨rfl, trivial⟩

end

theorem settled_dup : Settled dup :=
  settled_then (unstacked_consumeGas 1) fun _ => settled_then unstacked_get fun _ =>
    settled_then unstacked_ofOption fun v => settled_push v

theorem settled_over : Settled «over» :=
  settled_then (unstacked_consumeGas 1) fun _ => settled_then unstacked_get fun _ =>
    settled_then unstacked_failIf fun _ => settled_then unstacked_expect fun v => settled_push v

theorem settled_pick : Settled pick :=
  settled_then (unstacked_consumeGas 1) fun _ => settled_then unstacked_readUint8 fun _ =>
    settled_then unstacked_get fun _ => settled_then unstacked_failIf fun _ =>
      settled_then unstacked_expect fun v => settled_push v

theorem settled_pushInt : Settled pushInt :=
  settled_then (unstacked_consumeGas 1) fun _ => settled_then unstacked_readUint8 fun _ =>
    settled_then (unstacked_readBytesExact 32) fun _ => settled_then unstacked_expect fun _ =>
      settled_push _

theorem unstacked_readUint16 : Unstacked readUint16 :=
  unstacked_then unstacked_readUint8 fun _ => unstacked_then unstacked_readUint8 fun _ =>
    moves_pure trivial

theorem settled_pushBytes : Settled pushBytes :=
  settled_then unstacked_readUint16 fun len => settled_then (unstacked_consumeGas _) fun _ =>
    settled_then (unstacked_readBytesExact len.toNat) fun _ => settled_push _

/-- a new stack is put in place at once -/
theorem settled_blkSwap : Settled blkSwap :=
  settled_then (unstacked_consumeGas 1) fun _ => settled_then unstacked_readUint8 fun _ =>
    settled_then unstacked_readUint8 fun _ => settled_then unstacked_ofOption fun _ =>
      settled_then unstacked_get fun _ => settled_then unstacked_failIf fun _ =>
        settled_then unstacked_expect fun _ => fun _ _ _ h => (nomatch h)

theorem settled_newC : Settled newC :=
  settled_then (unstacked_consumeGas 10) fun _ => settled_push _

theorem settled_transfer (call : Bool) : Settled (transfer (pure true) call) :=
  settled_then (unstacked_consumeGas 4) fun _ => settled_then unstacked_readUint8 fun refIdx =>
    settled_then (moves_pure trivial) fun taken => by
      unfold Prog.onlyIf
      split_ifs
      · exact settled_of_unstacked (unstacked_transferTo refIdx.toNat call)
      · exact settled_of_unstacked (moves_pure trivial)

theorem settled_ret : Settled ret :=
  settled_then (unstacked_consumeGas 4) fun _ => settled_of_unstacked unstacked_returnToCaller

theorem settled_throw : Settled throw := by
  refine settled_then (unstacked_consumeGas 4) fun _ => settled_then unstacked_readUint8 fun _ => ?_
  split <;> exact settled_of_unstacked (moves_raise trivial)

theorem settled_repeatInstr : Settled repeatInstr := by
  refine settled_then (unstacked_consumeGas 4) fun _ => settled_then unstacked_readUint8 fun _ =>
    settled_then unstacked_readUint8 fun offset => ?_
  unfold Prog.onlyIf
  split_ifs
  · exact settled_of_unstacked (unstacked_jumpBy offset)
  · exact settled_of_unstacked (moves_pure trivial)

/-! ## stack instructions -/

theorem spoils_drop : SpoilsAs drop (operation c s .drop) s :=
  spoilsAs_gas (spoilsAs_one (k := .any) fun _ _ => meets_ok rfl)

theorem spoils_swap : SpoilsAs swap (operation c s .swap) s :=
  spoilsAs_gas (spoilsAs_two (k := .any) (l := .any) fun _ _ _ =>
    meets_push_then fun _ => meets_push)

theorem spoils_rot : SpoilsAs rot (operation c s .rot) s :=
  spoilsAs_gas (spoilsAs_three (k := .any) (l := .any) (p := .any) fun _ _ _ _ =>
    meets_push_then fun _ => meets_push_then fun _ => meets_push)

theorem spoils_nip : SpoilsAs nip (operation c s .nip) s :=
  spoilsAs_gas (spoilsAs_get (spoilsAs_failIf (spoilsAs_two (k := .any) (l := .any)
    fun _ _ _ => meets_push)))

theorem spoils_tuck : SpoilsAs tuck (operation c s .tuck) s :=
  spoilsAs_gas (spoilsAs_get (spoilsAs_failIf (spoilsAs_two (k := .any) (l := .any)
    fun _ _ _ => meets_push_then fun _ => meets_push_then fun _ => meets_push)))

/-! ## arithmetic -/

theorem meets_pushI128 {val : Int} {s : Interpreter} : Meets (pushI128 val) (pushed val) s :=
  meets_push

/-- a result that is in range, pushed -/
theorem meets_pushChecked {o : Option Int} {s : Interpreter} :
    Meets (Prog.ofOption .integerOverflow o >>= pushI128) (.ofOption o pushed) s :=
  meets_ofOption fun _ _ => meets_pushI128

theorem spoils_arithmetic {gas : Nat} {op : Instr Unit} {o : Operation}
    (h : ∀ t, SpoilsAs op (some o) t) :
    SpoilsAs (arithmetic gas op) (arithmeticOperation s gas o) s :=
  spoilsAs_gas (spoilsAs_immediates fun _ _ => spoilsAs_failIf (h _))

theorem spoils_add : SpoilsAs add (operation c s .add) s :=
  spoils_arithmetic s fun _ => spoilsAs_integers fun _ _ _ => meets_pushChecked

theorem spoils_sub : SpoilsAs sub (operation c s .sub) s :=
  spoils_arithmetic s fun _ => spoilsAs_integers fun _ _ _ => meets_pushChecked

theorem spoils_mul : SpoilsAs mul (operation c s .mul) s :=
  spoils_arithmetic s fun _ => spoilsAs_integers fun _ _ _ => meets_pushChecked

/-- one integer -/
theorem spoilsAs_integer {f : Int → Instr Unit} {v : Int → Verdict} {s : Interpreter}
    (h : ∀ a rest, Meets (f a) (v a) { s with stack := rest }) :
    SpoilsAs (popI128 >>= f) (some (.one .integer fun x => v (toI128 x))) s := by
  rw [popI128_bind]
  exact spoilsAs_one fun x rest => h (toI128 x) rest

theorem spoils_neg : SpoilsAs neg (operation c s .neg) s :=
  spoils_arithmetic s fun _ => spoilsAs_integer
    (v := fun a => .ofOption (checkedI128 (-a)) pushed) fun _ _ => meets_pushChecked

theorem spoils_cmp : SpoilsAs cmp (operation c s .cmp) s :=
  spoils_arithmetic s fun _ => spoilsAs_integers fun _ _ _ => meets_pushI128

theorem spoils_divMod : SpoilsAs divMod (operation c s .divMod) s :=
  spoils_arithmetic s fun _ => spoilsAs_integers fun _ _ _ => meets_failIf (meets_expect fun _ _ =>
    meets_expect fun _ _ => meets_push_then fun _ => meets_push)

theorem spoils_isZero : SpoilsAs isZero (operation c s .isZero) s :=
  spoilsAs_gas (spoilsAs_one (k := .integer) fun _ _ => meets_pushI128)

theorem spoils_conv : SpoilsAs conv (operation c s .conv) s :=
  spoilsAs_gas (spoilsAs_immediates fun _ _ => spoilsAs_one (k := .integer) fun _ _ => meets_push)

/-- the bound of a width -/
theorem checkedShl_one_eq {width : Nat} (hpos : 0 < width) (hlt : width < 128) :
    checkedShl 1 (width - 1) = some (2^(width - 1)) := by
  have hpow : (2 : Int)^(width - 1) < 2^127 := Int.pow_lt_pow_of_lt (by decide) (by omega)
  have hnonneg : (0 : Int) < 2^(width - 1) := Int.pow_pos (by decide)
  unfold checkedShl
  rw [if_pos (by omega), one_mul, Int.bmod_eq_of_le (by omega) (by omega)]

theorem two_pow_pred {width : Nat} (hpos : 0 < width) : (2 : Int)^(width - 1) * 2 = 2^width := by
  obtain ⟨n, rfl⟩ := Nat.exists_eq_succ_of_ne_zero hpos.ne'
  exact (pow_succ 2 n).symm

/-- twice the bound of a width is in range below 127 -/
theorem checked_double {width : Nat} (hpos : 0 < width) (hlt : width < 127) :
    checkedI128 (2^(width - 1) * 2) = some (2^width) := by
  have hpow : (2 : Int)^width < 2^127 := Int.pow_lt_pow_of_lt (by decide) hlt
  have hnonneg : (0 : Int) < 2^width := Int.pow_pos (by decide)
  rw [two_pow_pred hpos]
  unfold checkedI128
  rw [if_pos ⟨by omega, hpow⟩]

/-- and out of range from there on -/
theorem checked_double_none {limit : Int} {width : Nat} (hge : ¬ width < 127) (hle : width ≤ 128)
    (hlimit : checkedShl 1 (width - 1) = some limit) : checkedI128 (limit * 2) = none := by
  rcases (by omega : width = 127 ∨ width = 128) with rfl | rfl
  · cases hlimit
    decide
  · cases hlimit
    decide

/-- what is left of a range check that was made -/
theorem checked_range {width : Nat} {flavor : Byte} {limit result : Int} {F : Prop}
    [Decidable F] (hlimit : checkedShl 1 (width - 1) = some limit)
    (h : fitsFlavor flavor limit result = pure (decide F)) :
    inRange width flavor result = if F then wrapFlavor flavor limit result
      else Prog.raise .integerOverflow := by
  unfold inRange
  rw [hlimit, ofOption_some_bind, h, pure_bind_eq]
  funext s
  split_ifs with hfits
  · exact bind_ok (failIf_neg (by simp [hfits]) _ _)
  · exact bind_err (failIf_pos (by simp [hfits]) _ _)

/-- flavor 0 -/
theorem inRange_unsigned {width : Nat} (hpos : 0 < width) (hle : width ≤ 128) (result : Int) :
    inRange width 0 result = if width < 127 ∧ 0 ≤ result ∧ result < 2^width then pure result
      else Prog.raise .integerOverflow := by
  obtain ⟨limit, hlimit, _⟩ := Logic.checkedShl_one hpos hle
  by_cases hsign : 0 ≤ result
  · by_cases hlt : width < 127
    · have hbound := checkedShl_one_eq hpos (by omega : width < 128)
      rw [checked_range (F := result < 2^width) hbound]
      · simp only [hlt, hsign, true_and]
        rfl
      · unfold fitsFlavor
        rw [if_pos rfl, if_pos hsign, checked_double hpos hlt]
        rfl
    · have hdouble := checked_double_none hlt hle hlimit
      unfold inRange fitsFlavor
      rw [hlimit, ofOption_some_bind, if_pos rfl, if_pos hsign, hdouble, if_neg fun h => hlt h.1]
      rfl
  · rw [checked_range (F := False) hlimit]
    · rw [if_neg id, if_neg fun h => hsign h.2.1]
    · unfold fitsFlavor
      rw [if_pos rfl, if_neg hsign]
      rfl

/-- flavor 1, where the bound can be negated -/
theorem inRange_signed {width : Nat} (hpos : 0 < width) (hlt : width < 128) (result : Int) :
    inRange width 1 result
      = if -2^(width - 1) ≤ result ∧ result < 2^(width - 1) then pure result
        else Prog.raise .integerOverflow := by
  have hpow : (2 : Int)^(width - 1) < 2^127 := Int.pow_lt_pow_of_lt (by decide) (by omega)
  have hnonneg : (0 : Int) < 2^(width - 1) := Int.pow_pos (by decide)
  have hleast : checkedI128 (-2^(width - 1)) = some (-2^(width - 1)) := by
    unfold checkedI128
    rw [if_pos (by omega)]
  refine checked_range (checkedShl_one_eq hpos hlt) ?_
  unfold fitsFlavor
  rw [if_neg (by decide), if_pos rfl, hleast]
  rfl

/-- flavor 2 -/
theorem inRange_wrapped {width : Nat} (hpos : 0 < width) (hle : width ≤ 128) (result : Int) :
    inRange width 2 result = if width < 127 then pure (result % 2^width)
      else Prog.raise .integerOverflow := by
  obtain ⟨limit, hlimit, _⟩ := Logic.checkedShl_one hpos hle
  have hfits : fitsFlavor 2 limit result = pure (decide True) := rfl
  rw [checked_range hlimit hfits, if_pos trivial]
  unfold wrapFlavor
  rw [if_pos rfl]
  split_ifs with hlt
  · rw [checkedShl_one_eq hpos (by omega)] at hlimit
    cases hlimit
    have hnonneg : (0 : Int) < 2^width := Int.pow_pos (by decide)
    rw [checked_double hpos hlt, ofOption_some_bind]
    unfold remEuclidI128
    rw [if_neg (by omega)]
    rfl
  · rw [checked_double_none hlt hle hlimit]
    rfl

theorem meets_ite {p : Prop} [Decidable p] {r : Int} {s : Interpreter} :
    Meets ((if p then pure r else Prog.raise .integerOverflow) >>= pushI128)
      (.refuseIf (¬ p) (pushed r)) s := by
  unfold Verdict.refuseIf
  by_cases h : p
  · rw [if_pos h, if_neg (not_not.mpr h)]
    exact meets_pushI128
  · rw [if_neg h, if_pos h]
    exact ⟨_, s, rfl, rfl⟩

theorem meets_inRange {width : Nat} {flavor : Byte} (hpos : 0 < width) (hle : width ≤ 128)
    (hflavor : ¬ flavor > 2) (result : Int) {s : Interpreter} :
    Meets (inRange width flavor result >>= pushI128) (ranged width flavor result) s := by
  have hcases : flavor = 0 ∨ flavor = 1 ∨ flavor = 2 := by
    have hle : flavor.toNat ≤ 2 := Nat.not_lt.mp hflavor
    rcases (by omega : flavor.toNat = 0 ∨ flavor.toNat = 1 ∨ flavor.toNat = 2) with h | h | h
    · exact Or.inl (BitVec.eq_of_toNat_eq h)
    · exact Or.inr (Or.inl (BitVec.eq_of_toNat_eq h))
    · exact Or.inr (Or.inr (BitVec.eq_of_toNat_eq h))
  unfold ranged
  rcases hcases with rfl | rfl | rfl
  · rw [if_pos rfl, inRange_unsigned hpos hle]
    exact meets_ite
  · rw [if_neg (by decide), if_pos rfl]
    split_ifs with hwidth
    · subst hwidth
      show _ = Res.panic
      rw [bind_apply, inRange_signed128]
    · rw [inRange_signed hpos (by omega)]
      exact meets_ite
  · rw [if_neg (by decide), if_neg (by decide), inRange_wrapped hpos hle]
    exact meets_ite

/-- an operation with a range check behind it -/
theorem spoils_extended {gas : Nat} {op : Nat → Int → Int → Instr Int}
    {v : Nat → (Int → Verdict) → Int → Int → Verdict}
    (h : ∀ width (f : Int → Instr Unit) (range : Int → Verdict) a b t, width ≤ 128 →
      (∀ result, Meets (f result) (range result) t) →
        Meets (op width a b >>= f) (v width range a b) t) :
    SpoilsAs (extendedArithmetic gas op) (extendedOperation s gas v) s := by
  refine spoilsAs_gas (spoilsAs_immediates fun width flavor => ?_)
  by_cases hwidth : width = 0 ∨ width > 128 ∨ flavor > 2
  · dsimp only
    rw [if_pos hwidth]
    exact spoilsAs_err (failIf_pos hwidth _ _) rfl
  · dsimp only
    rw [if_neg hwidth]
    refine spoilsAs_ok (failIf_neg hwidth _ _) rfl (spoilsAs_integers fun a b rest => ?_)
    obtain ⟨hpos, hle⟩ := Logic.width_of_checked hwidth
    exact h _ _ _ a b _ hle fun result => meets_inRange hpos hle
      (fun hflavor => hwidth (Or.inr (Or.inr hflavor))) result

theorem spoils_div : SpoilsAs div (operation c s .div) s := by
  show SpoilsAs (extendedArithmetic 8 divOp) (extendedOperation s 8 fun _ range a b =>
    .refuseIf (b = 0) (.ofOption (checkedI128 (a.tdiv b)) range)) s
  refine spoils_extended s fun width f range a b t _ hf => ?_
  unfold divOp
  rw [bind_bind]
  exact meets_failIf (meets_ofOption fun result _ => hf result)

theorem spoils_lShift : SpoilsAs lShift (operation c s .lShift) s := by
  show SpoilsAs (extendedArithmetic 4 lShiftOp) (extendedOperation s 4 fun width range a b =>
    .refuseIf (b < 0 ∨ b ≥ width) (.ofOption (checkedShl a b.toNat) range)) s
  refine spoils_extended s fun width f range a b t _ hf => ?_
  unfold lShiftOp
  rw [bind_bind]
  exact meets_failIf (meets_ofOption fun result _ => hf result)

theorem spoils_rShift : SpoilsAs rShift (operation c s .rShift) s := by
  show SpoilsAs (extendedArithmetic 4 rShiftOp) (extendedOperation s 4 fun width range a b =>
    .refuseIf (b < 0 ∨ b ≥ width) (.expect (shrI128 a b) range)) s
  refine spoils_extended s fun width f range a b t _ hf => ?_
  unfold rShiftOp
  rw [bind_bind]
  exact meets_failIf (meets_expect fun result _ => hf result)

/-! ## byte strings -/

theorem spoils_byteLen : SpoilsAs byteLen (operation c s .byteLen) s :=
  spoilsAs_gas (spoilsAs_one (k := .bytes) fun _ _ => meets_pushI128)

theorem spoils_concat : SpoilsAs concat (operation c s .concat) s :=
  spoilsAs_two (k := .bytes) (l := .bytes) fun _ _ rest =>
    meets_gas (s := { s with stack := rest }) meets_push

theorem spoils_byteEq : SpoilsAs byteEq (operation c s .byteEq) s :=
  spoilsAs_two (k := .bytes) (l := .bytes) fun _ _ rest =>
    meets_gas (s := { s with stack := rest }) meets_pushI128

theorem spoils_subBytes : SpoilsAs subBytes (operation c s .subBytes) s := by
  refine spoilsAs_gas ?_
  simp only [popI128_bind]
  exact spoilsAs_three (k := .integer) (l := .integer) (p := .bytes) fun _ _ _ _ =>
    meets_expect fun _ _ => meets_failIf (meets_expect fun _ _ => meets_push)

/-! ## cells -/

theorem spoils_endC : SpoilsAs (endC c) (operation c s .endC) s :=
  spoilsAs_gas (spoilsAs_one (k := .builder) fun _ _ => meets_ofOption fun _ _ => meets_push)

theorem spoils_stRef : SpoilsAs stRef (operation c s .stRef) s :=
  spoilsAs_gas (spoilsAs_two (k := .cell) (l := .builder) fun _ _ _ => meets_failIf meets_push)

theorem spoils_cToS : SpoilsAs cToS (operation c s .cToS) s :=
  spoilsAs_gas (spoilsAs_one (k := .cell) fun _ _ => meets_failIf meets_push)

theorem spoils_isExotic : SpoilsAs isExotic (operation c s .isExotic) s :=
  spoilsAs_gas (spoilsAs_one (k := .cell) fun _ _ => meets_pushI128)

theorem spoils_sEmpty : SpoilsAs sEmpty (operation c s .sEmpty) s :=
  spoilsAs_gas (spoilsAs_one (k := .slice) fun _ _ => meets_pushI128)

theorem spoils_sBits : SpoilsAs sBits (operation c s .sBits) s :=
  spoilsAs_gas (spoilsAs_one (k := .slice) fun _ _ => meets_pushI128)

theorem spoils_sRefs : SpoilsAs sRefs (operation c s .sRefs) s :=
  spoilsAs_gas (spoilsAs_one (k := .slice) fun _ _ => meets_pushI128)

theorem spoils_hashBytes : SpoilsAs (hashBytes c) (operation c s .hashBytes) s :=
  spoilsAs_gas (spoilsAs_one (k := .bytes) fun _ _ => meets_push)

theorem spoils_hashCell : SpoilsAs (hashCell c) (operation c s .hashCell) s :=
  spoilsAs_gas (spoilsAs_one (k := .cell) fun _ _ => meets_push)

theorem spoils_chkSignU : SpoilsAs (chkSignU c) (operation c s .chkSignU) s :=
  spoilsAs_gas (spoilsAs_three (k := .integer) (l := .bytes) (p := .bytes) fun _ _ _ _ =>
    meets_failIf meets_pushI128)

theorem spoils_stBits : SpoilsAs stBits (operation c s .stBits) s := by
  refine spoilsAs_gas (spoilsAs_immediates fun width _ => ?_)
  refine spoilsAs_two (k := .integer) (l := .builder) fun valBytes b rest => ?_
  rw [onLocal_eq, appendBits_apply]
  unfold Verdict.refuseIf
  split_ifs with hout
  · exact meets_raise
  · cases Builder.appendLoop valBytes width.toNat b.currentBitLen width.toNat b.dataBytes with
    | none => rfl
    | some data => exact meets_push

theorem spoils_load : SpoilsAs load (operation c s .ldU) s := by
  refine spoilsAs_gas ?_
  rw [readUint16_bind]
  refine spoilsAs_readUint8 fun high => spoilsAs_readUint8 fun low => ?_
  refine spoilsAs_one (k := .slice) fun slice rest => ?_
  rw [onLocal_eq, readBits_apply]
  unfold Verdict.refuseIf
  split_ifs with hout
  · exact meets_raise
  · cases Slice.readLoop slice.cell.dataBytes slice.bitOffset (high ++ low).toNat
      (high ++ low).toNat 0 with
    | none => rfl
    | some res => exact meets_push_then fun _ => meets_push

theorem refCell_eq (slice : Slice) : refCell slice = Prog.expect (nextRef slice) := by
  unfold refCell nextRef
  split_ifs
  · rfl
  · cases slice.cell.cellRefs[slice.refOffset]? <;> rfl

theorem spoils_ldRef : SpoilsAs ldRef (operation c s .ldRef) s := by
  refine spoilsAs_gas (spoilsAs_one (k := .slice) fun slice rest => meets_failIf ?_)
  rw [refCell_eq]
  exact meets_expect fun cell _ => meets_push_then fun _ => meets_push

theorem spoilsFrom_ok {α β : Type} {stack : List StackValue} {m : Instr α} {f : α → Instr β}
    {t u : Interpreter} {a : α} (hm : m t = .ok a u) :
    SpoilsFrom stack (m >>= f) t ↔ SpoilsFrom stack (f a) u := by
  unfold SpoilsFrom
  rw [bind_ok hm]

theorem spoilsFrom_err {α β : Type} {stack : List StackValue} {m : Instr α} {f : α → Instr β}
    {t u : Interpreter} {e : ExceptionKind} (hm : m t = .err e u) (hu : u.stack ≠ stack) :
    SpoilsFrom stack (m >>= f) t := ⟨e, u, bind_err hm, hu⟩

theorem ne_of_length_lt {stack stack' : List StackValue} (h : stack.length < stack'.length) :
    stack ≠ stack' := fun heq => absurd (congrArg List.length heq) h.ne

/-- an operand comes off a stack, or fails to, whatever the gas -/
theorem pop_either (k : Kind) (stack : List StackValue) : ∃ rest, rest.length ≤ stack.length
    ∧ ((∃ e, ∀ u : Interpreter, u.stack = stack → k.pop u = .err e { u with stack := rest })
      ∨ ∃ x, ∀ u : Interpreter, u.stack = stack → k.pop u = .ok x { u with stack := rest }) := by
  cases stack with
  | nil =>
    refine ⟨[], le_refl _, Or.inl ⟨.malformedCell, fun u hu => ?_⟩⟩
    rw [Kind.pop_nil hu, ← hu]
  | cons v rest =>
    refine ⟨rest, Nat.le_succ _, ?_⟩
    cases hx : k.cast v with
    | none => exact Or.inl ⟨.typeMismatch, fun u hu => Kind.pop_none hu hx⟩
    | some x => exact Or.inr ⟨x, fun u hu => Kind.pop_some hu hx⟩

/-- gas that is charged between two operands may as well be charged behind them: where it runs out,
the first operand is off the stack -/
theorem spoilsFrom_lateGas {α : Type} {k : Kind} {amount : Nat} {f : k.Val → Instr α}
    {stack : List StackValue} {t : Interpreter} (hless : t.stack.length < stack.length) :
    SpoilsFrom stack (consumeGas amount >>= fun _ => k.pop >>= f) t
      ↔ SpoilsFrom stack (k.pop >>= fun x => consumeGas amount >>= fun _ => f x) t := by
  obtain ⟨rest, hrest, hpop⟩ := pop_either k t.stack
  have hbelow : rest ≠ stack := ne_of_length_lt (lt_of_le_of_lt hrest hless)
  by_cases hout : gasAfter t amount > t.gasLimit.toNat
  · -- the gas runs out before the operand, or behind it
    have hfails : ∀ u : Interpreter, u.gasLimit = t.gasLimit → u.gasUsed = t.gasUsed →
        consumeGas amount u = .err .outOfGas { u with gasUsed := u.gasLimit } := by
      intro u hlimit hused
      refine consumeGas_out ?_
      unfold gasAfter at hout ⊢
      rw [hlimit, hused]
      exact hout
    refine iff_of_true (spoilsFrom_err (hfails t rfl rfl) (ne_of_length_lt hless)) ?_
    rcases hpop with ⟨e, herr⟩ | ⟨x, hok⟩
    · exact spoilsFrom_err (herr t rfl) hbelow
    · exact (spoilsFrom_ok (hok t rfl)).mpr
        (spoilsFrom_err (hfails { t with stack := rest } rfl rfl) hbelow)
  · have hpays : ∀ u : Interpreter, u.gasLimit = t.gasLimit → u.gasUsed = t.gasUsed →
        consumeGas amount u = .ok () (pay u amount) := by
      intro u hlimit hused
      refine consumeGas_paid ?_
      unfold gasAfter at hout ⊢
      rw [hlimit, hused]
      exact hout
    rw [spoilsFrom_ok (hpays t rfl rfl)]
    rcases hpop with ⟨e, herr⟩ | ⟨x, hok⟩
    · exact iff_of_true (spoilsFrom_err (herr (pay t amount) rfl) hbelow)
        (spoilsFrom_err (herr t rfl) hbelow)
    · rw [spoilsFrom_ok (hok (pay t amount) rfl), spoilsFrom_ok (hok t rfl),
        spoilsFrom_ok (hpays { t with stack := rest } rfl rfl)]
      exact Iff.rfl

/-- the gas for the bytes is charged before the builder is looked at -/
theorem spoils_stBytes : SpoilsAs stBytes (operation c s .stBytes) s := by
  have hlate : SpoilsAs (Kind.bytes.pop >>= fun bytes => Kind.builder.pop >>= fun builder =>
      consumeGas (10 + divCeil bytes.length 32) >>= fun _ =>
        Prog.failIf (builder.dataBytes.length + bytes.length > 128) .malformedCell >>= fun _ =>
          push (.builder { builder with dataBytes := builder.dataBytes ++ bytes }))
      (operation c s .stBytes) s :=
    spoilsAs_two fun bytes builder rest =>
      meets_gas (s := { s with stack := rest }) (meets_failIf meets_push)
  refine Iff.trans ?_ hlate
  show SpoilsFrom s.stack (Kind.bytes.pop >>= _) s ↔ _
  unfold SpoilsFrom
  cases hstack : s.stack with
  | nil => rw [bind_err (Kind.pop_nil hstack), bind_err (Kind.pop_nil hstack)]
  | cons v rest =>
    cases hx : Kind.bytes.cast v with
    | none => rw [bind_err (Kind.pop_none hstack hx), bind_err (Kind.pop_none hstack hx)]
    | some bytes =>
      rw [bind_ok (Kind.pop_some hstack hx), bind_ok (Kind.pop_some hstack hx)]
      exact spoilsFrom_lateGas (k := .builder) (Nat.lt_succ_self _)

/-! ## control flow -/

theorem meets_transferTo {b : Bool} {i : Nat} {call : Bool} {t : Interpreter} :
    Meets (Prog.onlyIf (b = true) (transferTo i call))
      (.refuseIf (b = true ∧ i ≥ t.codeRefs.length) (.push [])) t := by
  unfold Prog.onlyIf Verdict.refuseIf
  cases b with
  | false => exact meets_ok rfl
  | true =>
    rw [if_pos rfl]
    by_cases hout : i ≥ t.codeRefs.length
    · rw [if_pos ⟨rfl, hout⟩]
      refine ⟨.malformedCell, t, ?_, rfl⟩
      rw [transferTo_apply, List.getElem?_eq_none hout]
    · rw [if_neg fun h => hout h.2]
      refine meets_of_ok ?_
      rw [transferTo_apply, List.getElem?_eq_getElem (Nat.not_le.mp hout)]
      exact ⟨(), _, rfl⟩

/-- a condition that is popped -/
theorem condition_bind {α : Type} (taken : Int → Bool) {f : Bool → Instr α} :
    ((popI128 >>= fun x => pure (taken x)) >>= f)
      = Kind.integer.pop >>= fun x => f (taken (toI128 x)) := by
  rw [bind_bind, popI128_bind]
  rfl

theorem spoils_transfer (taken : Int → Bool) (call : Bool) :
    SpoilsAs (transfer (popI128 >>= fun x => pure (taken x)) call) (transferOperation s taken) s := by
  refine spoilsAs_gas (spoilsAs_readUint8 fun refIdx => ?_)
  rw [condition_bind taken]
  exact spoilsAs_one fun x rest => meets_transferTo
    (t := { pay s 4 with stack := rest, pcBits := s.pcBits + 8 })

theorem meets_jumpBy {offset : Byte} {t : Interpreter} :
    Meets (jumpBy offset) (.ofOption (jumpTarget t t.pcBits offset) fun _ => .push []) t := by
  unfold jumpTarget
  show Meets (Prog.ofOption .malformedCell ((checkedAddSigned t.pcBits (offset.toInt * 8)).filter
    (fun pc => pc ≤ t.totalBits)) >>= fun pc =>
      Prog.modify fun self : Interpreter => { self with pcBits := pc }) _ t
  exact meets_ofOption fun pc _ => meets_ok rfl

theorem spoils_ifElse : SpoilsAs ifElse (operation c s .ifElse) s := by
  refine spoilsAs_gas (spoilsAs_readUint8 fun trueOffset => spoilsAs_readUint8 fun falseOffset => ?_)
  unfold popNonzero
  rw [condition_bind (fun x => decide (x ≠ 0))]
  refine spoilsAs_one fun x rest => ?_
  simp only [decide_eq_true_eq]
  exact meets_jumpBy (t := { pay s 4 with stack := rest, pcBits := s.pcBits + 8 + 8 })

theorem spoils_ifRet : SpoilsAs ifRet (operation c s .ifRet) s := by
  refine spoilsAs_gas ?_
  unfold popNonzero
  rw [condition_bind (fun x => decide (x ≠ 0))]
  refine spoilsAs_one fun x rest => ?_
  split_ifs
  · refine meets_of_ok ?_
    rw [returnToCaller_apply]
    cases (pay s 4).controlRegisters.c0 with
    | none => exact ⟨false, _, rfl⟩
    | some k => exact ⟨true, _, rfl⟩
  · exact meets_ok rfl

theorem spoils_untilInstr : SpoilsAs untilInstr (operation c s .untilInstr) s := by
  refine spoilsAs_gas (spoilsAs_readUint8 fun offset => ?_)
  unfold popZero
  rw [condition_bind (fun x => decide (x = 0))]
  refine spoilsAs_one fun x rest => ?_
  unfold Prog.onlyIf
  simp only [decide_eq_true_eq]
  split_ifs
  · exact meets_jumpBy (t := { pay s 4 with stack := rest, pcBits := s.pcBits + 8 })
  · exact meets_ok rfl

/-! ## every instruction -/

/-- `ROLL` takes a value out, and then does not put it on a stack that is deeper than it may be -/
def RollSpoils (s : Interpreter) : Prop :=
  gasAfter s 1 ≤ s.gasLimit.toNat
  ∧ (∃ depth, byteAt s.currentCode s.pcBits = some depth ∧ depth.toNat < s.stack.length)
  ∧ MAX_STACK_DEPTH < s.stack.length

theorem not_spoilsFrom_err {α β : Type} {stack : List StackValue} {m : Instr α} {f : α → Instr β}
    {t u : Interpreter} {e : ExceptionKind} (hm : m t = .err e u) (hu : u.stack = stack) :
    ¬ SpoilsFrom stack (m >>= f) t := by
  rintro ⟨e', v, hv, hne⟩
  rw [bind_err hm] at hv
  cases hv
  exact hne hu

/-- a value that is taken out from among others, and put on top of them -/
theorem spoils_moveToTop {t : Interpreter} {depth : Nat} (hdepth : depth < t.stack.length) :
    SpoilsFrom t.stack (Prog.expect t.stack[depth]? >>= fun item =>
      Prog.modify (fun self : Interpreter => { self with stack := self.stack.eraseIdx depth })
        >>= fun _ => push item) t ↔ MAX_STACK_DEPTH < t.stack.length := by
  rw [List.getElem?_eq_getElem hdepth, expect_some_bind]
  have hlen : (t.stack.eraseIdx depth).length + 1 = t.stack.length :=
    List.length_eraseIdx_add_one hdepth
  have hrun : (Prog.modify (fun self : Interpreter =>
      { self with stack := self.stack.eraseIdx depth }) : Instr Unit) t
        = .ok () { t with stack := t.stack.eraseIdx depth } := rfl
  rw [spoilsFrom_ok hrun]
  unfold SpoilsFrom
  rw [push_apply]
  dsimp only
  by_cases hfull : (t.stack.eraseIdx depth).length ≥ MAX_STACK_DEPTH
  · rw [if_pos hfull]
    exact iff_of_true ⟨_, _, rfl, ne_of_length_lt (by dsimp only; omega)⟩ (by omega)
  · rw [if_neg hfull]
    refine iff_of_false ?_ (by omega)
    rintro ⟨e, u, hu, _⟩
    cases hu

theorem spoils_roll : SpoilsFrom s.stack roll s ↔ RollSpoils s := by
  unfold RollSpoils roll
  by_cases hgas : gasAfter s 1 ≤ s.gasLimit.toNat
  · rw [spoilsFrom_ok (consumeGas_paid (Nat.not_lt.mpr hgas)), and_iff_right hgas]
    have hread := readUint8_apply (pay s 1)
    cases hb : byteAt s.currentCode s.pcBits with
    | none =>
      rw [show byteAt (pay s 1).currentCode (pay s 1).pcBits = none from hb] at hread
      refine iff_of_false (not_spoilsFrom_err hread rfl) ?_
      rintro ⟨⟨depth, hdepth, _⟩, _⟩
      cases hdepth
    | some depth =>
      rw [show byteAt (pay s 1).currentCode (pay s 1).pcBits = some depth from hb] at hread
      rw [spoilsFrom_ok hread, spoilsFrom_ok (show Prog.get _ = .ok _ _ from rfl)]
      by_cases hdeep : depth.toNat ≥ s.stack.length
      · refine iff_of_false (not_spoilsFrom_err (failIf_pos hdeep _ _) rfl) ?_
        rintro ⟨⟨depth', hdepth, hlt⟩, _⟩
        cases hdepth
        exact absurd hlt (Nat.not_lt.mpr hdeep)
      · have hlt := Nat.not_le.mp hdeep
        refine (spoilsFrom_ok (failIf_neg hdeep _ _)).trans ?_
        have htop := spoils_moveToTop (t := { pay s 1 with pcBits := s.pcBits + 8 }) hlt
        exact htop.trans ⟨fun h => ⟨⟨depth, rfl, hlt⟩, h⟩, fun h => h.2⟩
  · have hout := consumeGas_out (Nat.not_le.mp hgas)
    exact iff_of_false (not_spoilsFrom_err hout rfl) fun h => hgas h.1

/-- **Every instruction** but `ROLL` spoils the stack as its operation does. -/
theorem spoils_exec (op : Opcode) (hroll : op ≠ .roll) :
    SpoilsAs (exec c op) (operation c s op) s := by
  cases op with
  | roll => exact absurd rfl hroll
  | nop => exact spoilsAs_goesOn (spoilsAs_none (settled_of_unstacked (unstacked_consumeGas 1) s))
  | drop => exact spoilsAs_goesOn (spoils_drop c s)
  | dup => exact spoilsAs_goesOn (spoilsAs_none (settled_dup s))
  | swap => exact spoilsAs_goesOn (spoils_swap c s)
  | «over» => exact spoilsAs_goesOn (spoilsAs_none (settled_over s))
  | rot => exact spoilsAs_goesOn (spoils_rot c s)
  | pick => exact spoilsAs_goesOn (spoilsAs_none (settled_pick s))
  | pushInt => exact spoilsAs_goesOn (spoilsAs_none (settled_pushInt s))
  | pushBytes => exact spoilsAs_goesOn (spoilsAs_none (settled_pushBytes s))
  | nip => exact spoilsAs_goesOn (spoils_nip c s)
  | tuck => exact spoilsAs_goesOn (spoils_tuck c s)
  | blkSwap => exact spoilsAs_goesOn (spoilsAs_none (settled_blkSwap s))
  | add => exact spoilsAs_goesOn (spoils_add c s)
  | sub => exact spoilsAs_goesOn (spoils_sub c s)
  | neg => exact spoilsAs_goesOn (spoils_neg c s)
  | mul => exact spoilsAs_goesOn (spoils_mul c s)
  | divMod => exact spoilsAs_goesOn (spoils_divMod c s)
  | cmp => exact spoilsAs_goesOn (spoils_cmp c s)
  | isZero => exact spoilsAs_goesOn (spoils_isZero c s)
  | div => exact spoilsAs_goesOn (spoils_div c s)
  | lShift => exact spoilsAs_goesOn (spoils_lShift c s)
  | rShift => exact spoilsAs_goesOn (spoils_rShift c s)
  | conv => exact spoilsAs_goesOn (spoils_conv c s)
  | byteLen => exact spoilsAs_goesOn (spoils_byteLen c s)
  | concat => exact spoilsAs_goesOn (spoils_concat c s)
  | subBytes => exact spoilsAs_goesOn (spoils_subBytes c s)
  | byteEq => exact spoilsAs_goesOn (spoils_byteEq c s)
  | newC => exact spoilsAs_goesOn (spoilsAs_none (settled_newC s))
  | endC => exact spoilsAs_goesOn (spoils_endC c s)
  | stBits => exact spoilsAs_goesOn (spoils_stBits c s)
  | stRef => exact spoilsAs_goesOn (spoils_stRef c s)
  | stBytes => exact spoilsAs_goesOn (spoils_stBytes c s)
  | cToS => exact spoilsAs_goesOn (spoils_cToS c s)
  | ldU => exact spoilsAs_goesOn (spoils_load c s)
  | ldI => exact spoilsAs_goesOn (spoils_load c s)
  | ldRef => exact spoilsAs_goesOn (spoils_ldRef c s)
  | isExotic => exact spoilsAs_goesOn (spoils_isExotic c s)
  | sEmpty => exact spoilsAs_goesOn (spoils_sEmpty c s)
  | sBits => exact spoilsAs_goesOn (spoils_sBits c s)
  | sRefs => exact spoilsAs_goesOn (spoils_sRefs c s)
  | hashBytes => exact spoilsAs_goesOn (spoils_hashBytes c s)
  | hashCell => exact spoilsAs_goesOn (spoils_hashCell c s)
  | chkSignU => exact spoilsAs_goesOn (spoils_chkSignU c s)
  | jmpRef => exact spoilsAs_goesOn (spoilsAs_none (settled_transfer false s))
  | callRef => exact spoilsAs_goesOn (spoilsAs_none (settled_transfer true s))
  | ret => exact spoilsAs_none (settled_ret s)
  | ifJmpRef => exact spoilsAs_goesOn (spoils_transfer s (fun x => decide (x ≠ 0)) false)
  | ifNotJmpRef => exact spoilsAs_goesOn (spoils_transfer s (fun x => decide (x = 0)) false)
  | ifCallRef => exact spoilsAs_goesOn (spoils_transfer s (fun x => decide (x ≠ 0)) true)
  | ifNotCallRef => exact spoilsAs_goesOn (spoils_transfer s (fun x => decide (x = 0)) true)
  | throw => exact spoilsAs_goesOn (spoilsAs_none (settled_throw s))
  | ifElse => exact spoilsAs_goesOn (spoils_ifElse c s)
  | ifRet => exact spoils_ifRet c s
  | repeatInstr => exact spoilsAs_goesOn (spoilsAs_none (settled_repeatInstr s))
  | untilInstr => exact spoilsAs_goesOn (spoils_untilInstr c s)

end

/-! ## steps -/

/-- the next instruction comes to its operands, and fails with them off the stack -/
def Spoils (c : Crypto) (s : Interpreter) : Prop :=
  (∃ op o, opcodeAt s = some op ∧ operation c (behindOpcode s) op = some o ∧ s.stack ≠ []
    ∧ o.Spoils s.stack)
  ∨ opcodeAt s = some .roll ∧ RollSpoils (behindOpcode s)

/-- what a failing instruction is to leave as it was -/
structure Unaffected (s t : Interpreter) : Prop where
  stack_eq : t.stack = s.stack
  callStack_eq : t.callStack = s.callStack
  c0_eq : t.controlRegisters.c0 = s.controlRegisters.c0
  c1_eq : t.controlRegisters.c1 = s.controlRegisters.c1
  data_eq : t.data = s.data
  outMessages_eq : t.outMessages = s.outMessages

/-- a step without an instruction fails, if at all, with the stack as it was -/
theorem stack_eq_of_no_opcode {c : Crypto} {s t : Interpreter} {e : ExceptionKind}
    (hop : opcodeAt s = none) (h : step c s = .err e t) : t.stack = s.stack := by
  by_cases hend : s.pcBits ≥ s.totalBits
  · have hleave := stepped_leave hend
    rw [← step_of_end (c := c) hend, h] at hleave
    cases hleave with
    | unpaid hcode => exact absurd hend hcode
    | outOfGas hcode => exact absurd hend hcode
    | paid hcode => exact absurd hend hcode
  · rw [step_of_code hend] at h
    unfold fetchAndExec at h
    have hread := readUint8_apply s
    cases hb : byteAt s.currentCode s.pcBits with
    | none =>
      rw [hb] at hread
      rw [bind_err hread] at h
      cases h
      rfl
    | some b =>
      have hnone : Opcode.ofByte b = none := by
        unfold opcodeAt at hop
        rw [hb] at hop
        exact hop
      rw [hb] at hread
      rw [bind_ok hread, hnone] at h
      cases h
      rfl

theorem spoils_step {c : Crypto} {s : Interpreter} :
    SpoilsFrom s.stack (step c) s ↔ Spoils c s := by
  cases hop : opcodeAt s with
  | none =>
    refine iff_of_false ?_ ?_
    · rintro ⟨e, t, herr, hne⟩
      exact hne (stack_eq_of_no_opcode hop herr)
    · rintro (⟨op, o, hop', _⟩ | ⟨hop', _⟩)
      · rw [hop] at hop'
        cases hop'
      · rw [hop] at hop'
        cases hop'
  | some op =>
    have hstep : SpoilsFrom s.stack (step c) s
        ↔ SpoilsFrom (behindOpcode s).stack (exec c op) (behindOpcode s) := by
      unfold SpoilsFrom
      rw [step_of_opcode hop]
      rfl
    rw [hstep]
    unfold Spoils
    rw [hop]
    by_cases hroll : op = .roll
    · subst hroll
      rw [show exec c .roll = goesOn roll from rfl, spoilsFrom_goesOn, spoils_roll]
      refine ⟨fun h => .inr ⟨rfl, h⟩, ?_⟩
      rintro (⟨op, o, hop', ho, _⟩ | ⟨_, h⟩)
      · cases hop'
        cases ho
      · exact h
    · refine (spoils_exec c (behindOpcode s) op hroll).trans ?_
      constructor
      · rintro ⟨o, ho, h⟩
        exact .inl ⟨op, o, rfl, ho, h⟩
      · rintro (⟨op', o, hop', ho, h⟩ | ⟨hop', _⟩)
        · cases hop'
          exact ⟨o, ho, h⟩
        · cases hop'
          exact absurd rfl hroll

/-- **A failing step has no effect but on gas and position**, unless the instruction fails with its
operands off the stack. -/
theorem faultless_iff (c : Crypto) (s : Interpreter) :
    (∀ e t, step c s = .err e t → Unaffected s t) ↔ ¬ Spoils c s := by
  rw [← spoils_step]
  constructor
  · rintro h ⟨e, t, herr, hne⟩
    exact hne (h e t herr).stack_eq
  · intro h e t herr
    have hstack : t.stack = s.stack := by
      by_contra hne
      exact h ⟨e, t, herr, hne⟩
    obtain ⟨stack, pcBits, gasUsed, rfl⟩ := step_err_keeps herr
    exact ⟨hstack, rfl, rfl, rfl, rfl, rfl⟩

/-! ## an addition with one operand -/

def addCode : Cell := ⟨[0x10, 0, 128, 1], [], false, Nat.le_of_ble_eq_true rfl, Nat.zero_le _⟩

def oneOperand : Interpreter :=
  { Interpreter.new addCode emptyCell sampleMessage sampleContext with
    stack := [.integer (fromI128 5)] }

/-- the one operand is gone when the second is missed -/
theorem add_spoils :
    (∃ t, step sampleCrypto oneOperand = .err .malformedCell t
      ∧ oneOperand.stack = [.integer (fromI128 5)] ∧ t.stack = [])
    ∧ ¬ ∀ c s e t, step c s = .err e t → Unaffected s t := by
  have hstep : step sampleCrypto oneOperand
      = .err .malformedCell { oneOperand with stack := [], pcBits := 32, gasUsed := 4 } := rfl
  refine ⟨⟨_, hstep, rfl, rfl⟩, fun h => ?_⟩
  have hstack := (h _ _ _ _ hstep).stack_eq
  cases hstack

end Onx.Vm
