import Onx.Vm.Instructions

/-!
# Rules for instructions

A `Logic` is three kinds of statements about programs, on the parts of an instruction, on its last
part and on a whole instruction with the gas it charges, that respect what instructions are made
of.  Every instruction then has the statement, by one proof for all logics.

* `Opcode.cost`      the gas that an instruction charges, with what it does before it charges;
* `Logic`            the rules;
* `part_popI128` and so on, `whole_drop` and so on   parts, and instructions one by one;
* `Logic.whole_exec` **every instruction**.
-/

namespace Onx.Vm
open Machine

/-- the opcodes with arithmetic that can be out of range unchecked -/
def Opcode.Unchecked : Opcode → Prop
  | .divMod | .div | .lShift | .rShift | .subBytes => True
  | _ => False

/-- what comes before the gas is charged, and the gas; most instructions charge first -/
def Opcode.cost : Opcode → Instr Nat
  | .pushBytes => do
    let len ← readUint16
    pure (1 + divCeil len.toNat 32)
  | .concat => do
    let b ← popBytes
    let a ← popBytes
    pure (4 + divCeil (a.length + b.length) 32)
  | .byteEq => do
    let b ← popBytes
    let a ← popBytes
    pure (1 + divCeil (min a.length b.length) 32)
  | .stBytes => do
    let bytes ← popBytes
    pure (10 + divCeil bytes.length 32)
  | .nop | .drop | .dup | .swap | .«over» | .rot | .pick | .roll | .pushInt | .nip | .tuck
  | .blkSwap | .byteLen | .sEmpty | .sBits | .sRefs => pure 1
  | .add | .sub | .neg | .cmp | .isZero | .lShift | .rShift | .conv | .subBytes
  | .jmpRef | .callRef | .ret | .ifJmpRef | .ifNotJmpRef | .ifCallRef | .ifNotCallRef | .throw
  | .ifElse | .ifRet | .repeatInstr | .untilInstr => pure 4
  | .mul | .divMod | .div => pure 8
  | .newC | .endC | .stBits | .stRef | .cToS | .ldU | .ldI | .ldRef | .isExotic => pure 10
  | .hashBytes | .hashCell => pure 200
  | .chkSignU => pure 4000

structure Logic where
  /-- unchecked arithmetic may panic -/
  lax : Prop
  /-- values on the stack -/
  Good : StackValue → Prop
  /-- states that are looked at -/
  Seen : Interpreter → Prop
  /-- a part that returns values in `P` -/
  Part : {α : Type} → Instr α → (α → Prop) → Prop
  /-- the last part -/
  Last : {α : Type} → Instr α → Prop
  /-- an instruction with its cost -/
  Whole : {α : Type} → Instr Nat → Instr α → Prop
  good_integer : ∀ bytes, Good (.integer bytes)
  good_bytes : ∀ v, Good (.bytes v)
  good_cell : ∀ cell, Good (.cell cell)
  good_newSlice : ∀ cell, Good (.slice (Slice.new cell))
  good_readBits : ∀ {slice slice' widthBits a}, Good (.slice slice) →
    Slice.readBits widthBits slice = .ok a slice' → Good (.slice slice')
  good_nextRef : ∀ {slice : Slice}, Good (.slice slice) → slice.remainingRefs ≠ 0 →
    Good (.slice { slice with refOffset := slice.refOffset + 1 })
  good_newBuilder : Good (.builder Builder.default)
  good_appendBits : ∀ {b b' valBytes widthBits}, Good (.builder b) →
    Builder.appendBits valBytes widthBits b = .ok () b' → Good (.builder b')
  appendBits_panic : ∀ {b valBytes widthBits}, Good (.builder b) →
    Builder.appendBits valBytes widthBits b = .panic → lax
  good_addRef : ∀ {b : Builder} cell, Good (.builder b) → b.references.length < 4 →
    Good (.builder { b with references := b.references ++ [cell] })
  good_addBytes : ∀ {b : Builder} {v}, Good (.builder b) → b.dataBytes.length + v.length ≤ 128 →
    Good (.builder { b with dataBytes := b.dataBytes ++ v })
  good_of_seen : ∀ {s}, Seen s → ∀ v ∈ s.stack, Good v
  part_bind : ∀ {α β : Type} {m : Instr α} {f : α → Instr β} {P : α → Prop} {Q : β → Prop},
    Part m P → (∀ a, P a → Part (f a) Q) → Part (m >>= f) Q
  part_pure : ∀ {α : Type} {a : α} {P : α → Prop}, P a → Part (pure a) P
  part_raise : ∀ {α : Type} {e : ExceptionKind} {P : α → Prop}, e ≠ .outOfGas →
    Part (Prog.raise e) P
  part_panic : ∀ {α : Type} {P : α → Prop}, lax → Part Prog.panic P
  part_get : Part Prog.get Seen
  part_pop : Part pop Good
  part_push : ∀ {v}, Good v → Part (push v) fun _ => True
  part_restack : ∀ {g : Interpreter → List StackValue},
    (∀ s, Seen s → ∃ self, Seen self ∧ (∀ v ∈ g s, v ∈ self.stack)
      ∧ (g s).length ≤ self.stack.length) →
    Part (Prog.modify fun s => { s with stack := g s }) fun _ => True
  part_readUint8 : Part readUint8 fun _ => True
  part_jumpBy : ∀ offset, Part (jumpBy offset) fun _ => True
  last_part : ∀ {α : Type} {m : Instr α} {P : α → Prop}, Part m P → Last m
  last_bind : ∀ {α β : Type} {m : Instr α} {f : α → Instr β} {P : α → Prop},
    Part m P → (∀ a, P a → Last (f a)) → Last (m >>= f)
  last_transferTo : ∀ refIdx call, Last (transferTo refIdx call)
  last_returnToCaller : Last returnToCaller
  whole_charge : ∀ {α : Type} {n} {m : Instr α}, 0 < n → Last m →
    Whole (pure n) (consumeGas n >>= fun _ => m)
  whole_before : ∀ {α β : Type} {m : Instr α} {k : α → Instr Nat} {f : α → Instr β} {P : α → Prop},
    Part m P → (∀ a, P a → Whole (k a) (f a)) → Whole (m >>= k) (m >>= f)
  whole_goesOn : ∀ {k m}, Whole k m → Whole k (goesOn m)

namespace Logic
variable (L : Logic)

/-- a part with nothing to say about its result -/
abbrev Plain {α : Type} (m : Instr α) : Prop := L.Part m fun _ => True

section
variable {L} {α β : Type} {m : Instr α} {f : α → Instr β} {P : α → Prop} {e : ExceptionKind}

theorem part_then (hm : L.Plain m) (hf : ∀ a, L.Plain (f a)) : L.Plain (m >>= f) :=
  L.part_bind hm fun a _ => hf a

theorem whole_gas {n : Nat} {m : Instr α} (h : 0 < n) (hm : L.Plain m) :
    L.Whole (pure n) (consumeGas n >>= fun _ => m) := L.whole_charge h (L.last_part hm)

theorem part_ofOption {o : Option α} (he : e ≠ .outOfGas)
    (h : ∀ a, o = some a → P a) : L.Part (Prog.ofOption e o) P := by
  cases o with
  | none => exact L.part_raise he
  | some a => exact L.part_pure (h a rfl)

theorem part_expect {o : Option α} (hp : o = none → L.lax) (h : ∀ a, o = some a → P a) :
    L.Part (Prog.expect o) P := by
  cases o with
  | none => exact L.part_panic (hp rfl)
  | some a => exact L.part_pure (h a rfl)

theorem part_failIf {b : Prop} [Decidable b] (he : e ≠ .outOfGas) :
    L.Part (Prog.failIf b e) fun _ => ¬ b := by
  unfold Prog.failIf
  split_ifs with h
  · exact L.part_raise he
  · exact L.part_pure h

theorem part_onlyIf {b : Prop} [Decidable b] {m : Instr Unit} (hm : L.Plain m) :
    L.Plain (Prog.onlyIf b m) := by
  unfold Prog.onlyIf
  split_ifs
  · exact hm
  · exact L.part_pure trivial

theorem last_onlyIf {b : Prop} [Decidable b] {m : Instr Unit} (hm : L.Last m) :
    L.Last (Prog.onlyIf b m) := by
  unfold Prog.onlyIf
  split_ifs
  · exact hm
  · exact L.last_part (P := fun _ => True) (L.part_pure trivial)

end

/-! ## stack and code -/

theorem part_popInteger : L.Plain popInteger := by
  refine L.part_bind L.part_pop fun v _ => ?_
  cases v with
  | integer bytes => exact L.part_pure trivial
  | _ => exact L.part_raise (by decide)

theorem part_popI128 : L.Plain popI128 := part_then L.part_popInteger fun _ => L.part_pure trivial

theorem part_popBytes : L.Plain popBytes := by
  refine L.part_bind L.part_pop fun v _ => ?_
  cases v with
  | bytes bytes => exact L.part_pure trivial
  | _ => exact L.part_raise (by decide)

theorem part_popCell : L.Plain popCell := by
  refine L.part_bind L.part_pop fun v _ => ?_
  cases v with
  | cell cell => exact L.part_pure trivial
  | _ => exact L.part_raise (by decide)

theorem part_popSlice : L.Part popSlice fun slice => L.Good (.slice slice) := by
  refine L.part_bind L.part_pop fun v hv => ?_
  cases v with
  | slice slice => exact L.part_pure hv
  | _ => exact L.part_raise (by decide)

theorem part_popBuilder : L.Part popBuilder fun b => L.Good (.builder b) := by
  refine L.part_bind L.part_pop fun v hv => ?_
  cases v with
  | builder b => exact L.part_pure hv
  | _ => exact L.part_raise (by decide)

theorem part_pushI128 (val : Int) : L.Plain (pushI128 val) := L.part_push (L.good_integer _)

theorem part_readUint16 : L.Plain readUint16 :=
  part_then L.part_readUint8 fun _ => part_then L.part_readUint8 fun _ => L.part_pure trivial

theorem part_readBytesExact (len : Nat) :
    L.Part (readBytesExact len) fun bytes => bytes.length = len := by
  induction len with
  | zero => exact L.part_pure rfl
  | succ len ih =>
    refine L.part_bind L.part_readUint8 fun b _ => L.part_bind ih fun bytes hbytes => ?_
    exact L.part_pure (congrArg Nat.succ hbytes)

/-- a value that the stack is deep enough for -/
theorem part_peek {s : Interpreter} {depth : Nat} {f : StackValue → Instr Unit} (hs : L.Seen s)
    (hdepth : depth < s.stack.length) (hf : ∀ v, L.Good v → L.Plain (f v)) :
    L.Plain (Prog.expect s.stack[depth]? >>= f) := by
  rw [List.getElem?_eq_getElem hdepth]
  exact hf _ (L.good_of_seen hs _ (List.getElem_mem hdepth))

/-! ## stack instructions -/

theorem whole_drop : L.Whole (pure 1) drop :=
  whole_gas one_pos (L.part_bind L.part_pop fun _ _ => L.part_pure trivial)

theorem whole_dup : L.Whole (pure 1) dup := by
  refine whole_gas one_pos (L.part_bind L.part_get fun self hs => ?_)
  refine L.part_bind (P := L.Good) (part_ofOption (by decide) fun v hv => ?_)
    fun v hv => L.part_push hv
  exact L.good_of_seen hs v (List.mem_of_mem_head? hv)

theorem whole_swap : L.Whole (pure 1) swap :=
  whole_gas one_pos (L.part_bind L.part_pop fun _ ha => L.part_bind L.part_pop fun _ hb =>
    L.part_bind (L.part_push ha) fun _ _ => L.part_push hb)

theorem whole_over : L.Whole (pure 1) «over» := by
  refine whole_gas one_pos (L.part_bind L.part_get fun self hs => ?_)
  refine L.part_bind (part_failIf (by decide)) fun _ hlen => ?_
  exact L.part_peek hs (by omega) fun v hv => L.part_push hv

theorem whole_rot : L.Whole (pure 1) rot :=
  whole_gas one_pos (L.part_bind L.part_pop fun _ hc => L.part_bind L.part_pop fun _ hb =>
    L.part_bind L.part_pop fun _ ha => L.part_bind (L.part_push hb) fun _ _ =>
      L.part_bind (L.part_push hc) fun _ _ => L.part_push ha)

theorem whole_pick : L.Whole (pure 1) pick := by
  refine whole_gas one_pos (L.part_bind L.part_readUint8 fun depth _ => ?_)
  refine L.part_bind L.part_get fun self hs => ?_
  refine L.part_bind (part_failIf (by decide)) fun _ hlen => ?_
  exact L.part_peek hs (Nat.not_le.mp hlen) fun v hv => L.part_push hv

theorem whole_roll : L.Whole (pure 1) roll := by
  refine whole_gas one_pos (L.part_bind L.part_readUint8 fun depth _ => ?_)
  refine L.part_bind L.part_get fun self hs => ?_
  refine L.part_bind (part_failIf (by decide)) fun _ hlen => ?_
  refine L.part_peek hs (Nat.not_le.mp hlen) fun v hv => ?_
  refine L.part_bind (L.part_restack fun s hs => ?_) fun _ _ => L.part_push hv
  exact ⟨s, hs, fun w hw => List.mem_of_mem_eraseIdx hw, List.length_eraseIdx_le _ _⟩

theorem whole_pushInt : L.Whole (pure 1) pushInt := by
  refine whole_gas one_pos (L.part_bind L.part_readUint8 fun _ _ => ?_)
  refine L.part_bind (L.part_readBytesExact 32) fun bytes hlen => ?_
  unfold copyFromSlice
  rw [if_pos hlen]
  exact L.part_push (L.good_integer _)

theorem whole_pushBytes : L.Whole Opcode.pushBytes.cost pushBytes := by
  refine L.whole_before L.part_readUint16 fun len _ => whole_gas (by omega) ?_
  exact L.part_bind (L.part_readBytesExact len.toNat) fun _ _ => L.part_push (L.good_bytes _)

theorem whole_nip : L.Whole (pure 1) nip :=
  whole_gas one_pos (L.part_bind L.part_get fun _ _ =>
    L.part_bind (part_failIf (by decide)) fun _ _ => L.part_bind L.part_pop fun _ htop =>
      L.part_bind L.part_pop fun _ _ => L.part_push htop)

theorem whole_tuck : L.Whole (pure 1) tuck :=
  whole_gas one_pos (L.part_bind L.part_get fun _ _ =>
    L.part_bind (part_failIf (by decide)) fun _ _ => L.part_bind L.part_pop fun _ hb =>
      L.part_bind L.part_pop fun _ ha => L.part_bind (L.part_push hb) fun _ _ =>
        L.part_bind (L.part_push ha) fun _ _ => L.part_push hb)

/-- the values of a rotated stack are those of the stack -/
theorem mem_of_mem_rotateLeft {count left : Nat} {stack rotated : List StackValue} {v : StackValue}
    (h : rotateLeft count left stack = some rotated) (hv : v ∈ rotated) : v ∈ stack := by
  unfold rotateLeft at h
  split_ifs at h
  cases h
  rcases List.mem_append.mp hv with hv | hv
  · rcases List.mem_append.mp hv with hv | hv
    · exact List.mem_of_mem_drop (List.mem_of_mem_take hv)
    · exact List.mem_of_mem_take hv
  · exact List.mem_of_mem_drop hv

theorem length_rotateLeft {count left : Nat} {stack rotated : List StackValue}
    (h : rotateLeft count left stack = some rotated) : rotated.length = stack.length := by
  unfold rotateLeft at h
  split_ifs at h with hin
  cases h
  simp only [List.length_append, List.length_take, List.length_drop]
  omega

theorem whole_blkSwap : L.Whole (pure 1) blkSwap := by
  refine whole_gas one_pos (L.part_bind L.part_readUint8 fun left _ => ?_)
  refine L.part_bind L.part_readUint8 fun right _ => ?_
  refine L.part_bind (P := fun count => count = left.toNat + right.toNat)
    (part_ofOption (by decide) fun count h => ?_) fun count hcount => ?_
  · unfold checkedUsize at h
    split_ifs at h
    exact (Option.some.inj h).symm
  refine L.part_bind L.part_get fun self hs => L.part_bind (part_failIf (by decide)) fun _ hin => ?_
  refine L.part_bind (P := fun rotated => rotateLeft count left.toNat self.stack = some rotated)
    (part_expect (fun hnone => ?_) fun _ h => h) fun rotated h => L.part_restack fun s _ => ?_
  · have hdeep : count ≤ self.stack.length := Nat.not_lt.mp fun h => hin (Or.inr (Or.inr h))
    unfold rotateLeft at hnone
    rw [if_pos ⟨hdeep, by omega⟩] at hnone
    cases hnone
  · exact ⟨self, hs, fun v hv => mem_of_mem_rotateLeft h hv, (length_rotateLeft h).le⟩

/-! ## arithmetic -/

theorem whole_arithmetic {gas : Nat} {op : Instr Unit} (h : 0 < gas) (hop : L.Plain op) :
    L.Whole (pure gas) (arithmetic gas op) :=
  whole_gas h (part_then L.part_readUint16 fun _ => part_then L.part_readUint8 fun _ =>
    L.part_bind (part_failIf (by decide)) fun _ _ => hop)

/-- a checked result, pushed -/
theorem part_pushChecked (o : Option Int) :
    L.Plain (Prog.ofOption .integerOverflow o >>= pushI128) :=
  part_then (part_ofOption (by decide) fun _ _ => trivial) fun _ => L.part_pushI128 _

theorem whole_add : L.Whole (pure 4) add :=
  L.whole_arithmetic (by omega) (part_then L.part_popI128 fun _ => part_then L.part_popI128 fun _ =>
    L.part_pushChecked _)

theorem whole_sub : L.Whole (pure 4) sub :=
  L.whole_arithmetic (by omega) (part_then L.part_popI128 fun _ => part_then L.part_popI128 fun _ =>
    L.part_pushChecked _)

theorem whole_neg : L.Whole (pure 4) neg :=
  L.whole_arithmetic (by omega) (part_then L.part_popI128 fun _ => L.part_pushChecked _)

theorem whole_mul : L.Whole (pure 8) mul :=
  L.whole_arithmetic (by omega) (part_then L.part_popI128 fun _ => part_then L.part_popI128 fun _ =>
    L.part_pushChecked _)

theorem whole_divMod (h : L.lax) : L.Whole (pure 8) divMod := by
  refine L.whole_arithmetic (by omega) ?_
  refine part_then L.part_popI128 fun b => part_then L.part_popI128 fun a => ?_
  refine L.part_bind (part_failIf (by decide)) fun _ _ => ?_
  refine part_then (part_expect (fun _ => h) fun _ _ => trivial) fun q => ?_
  refine part_then (part_expect (fun _ => h) fun _ _ => trivial) fun r => ?_
  exact part_then (L.part_pushI128 q) fun _ => L.part_pushI128 r

theorem whole_cmp : L.Whole (pure 4) cmp :=
  L.whole_arithmetic (by omega) (part_then L.part_popI128 fun _ => part_then L.part_popI128 fun _ =>
    L.part_pushI128 _)

theorem whole_isZero : L.Whole (pure 4) isZero :=
  whole_gas (by omega) (part_then L.part_popInteger fun _ => L.part_pushI128 _)

/-- the bound of a width: a power of two, or the least integer where the width is 128 -/
theorem checkedShl_one {width : Nat} (hpos : 0 < width) (hle : width ≤ 128) :
    ∃ limit, checkedShl 1 (width - 1) = some limit ∧ (width = 128 ∧ limit = I128_MIN
      ∨ width < 128 ∧ 0 < limit ∧ limit < 2^127) := by
  unfold checkedShl
  rw [if_pos (by omega), one_mul]
  refine ⟨_, rfl, ?_⟩
  by_cases h : width = 128
  · subst h
    exact Or.inl ⟨rfl, by decide⟩
  · have hlt : (2 : Int)^(width - 1) < 2^127 := Int.pow_lt_pow_of_lt (by decide) (by omega)
    have hpow : (0 : Int) < 2^(width - 1) := Int.pow_pos (by decide)
    have hmod : Int.bmod (2^(width - 1)) (2^128) = 2^(width - 1) :=
      Int.bmod_eq_of_le (by omega) (by omega)
    rw [hmod]
    exact Or.inr ⟨by omega, hpow, hlt⟩

/-- a width in the range that is checked -/
theorem width_of_checked {width : Uint16} {flavor : Byte}
    (h : ¬ (width = 0 ∨ width > 128 ∨ flavor > 2)) : 0 < width.toNat ∧ width.toNat ≤ 128 := by
  constructor
  · exact Nat.pos_of_ne_zero fun h0 => h (Or.inl (BitVec.eq_of_toNat_eq h0))
  · exact Nat.not_lt.mp fun hlt => h (Or.inr (Or.inl hlt))

theorem part_fitsFlavor {flavor : Byte} {limit : Int} (result : Int)
    (hp : flavor = 1 → checkedI128 (-limit) = none → L.lax) :
    L.Plain (fitsFlavor flavor limit result) := by
  unfold fitsFlavor
  split_ifs with h0 hpos h1
  · exact part_then (part_ofOption (by decide) fun _ _ => trivial) fun _ => L.part_pure trivial
  · exact L.part_pure trivial
  · exact part_then (part_expect (hp h1) fun _ _ => trivial) fun _ => L.part_pure trivial
  · exact L.part_pure trivial

theorem part_wrapFlavor (flavor : Byte) {limit : Int} (result : Int)
    (hlimit : 0 < limit ∨ limit = I128_MIN) : L.Plain (wrapFlavor flavor limit result) := by
  unfold wrapFlavor
  split_ifs
  · refine L.part_bind (P := fun modulus => 0 < modulus)
      (part_ofOption (by decide) fun modulus h => ?_)
      fun modulus hpos => part_expect (fun hnone => ?_) fun _ _ => trivial
    · unfold checkedI128 at h
      split_ifs at h with hin
      cases h
      unfold I128_MIN at hlimit
      omega
    · unfold remEuclidI128 at hnone
      rw [if_neg (by omega)] at hnone
      cases hnone
  · exact L.part_pure trivial

theorem part_inRange {width : Nat} {flavor : Byte} (result : Int) (hpos : 0 < width)
    (hle : width ≤ 128) (hp : flavor = 1 → width = 128 → L.lax) :
    L.Plain (inRange width flavor result) := by
  unfold inRange
  obtain ⟨limit, hlimit, hcases⟩ := checkedShl_one hpos hle
  rw [hlimit, ofOption_some_bind]
  refine part_then (L.part_fitsFlavor result fun h1 hnone => ?_) fun fits => ?_
  · rcases hcases with ⟨hwidth, _⟩ | ⟨_, hlimit⟩
    · exact hp h1 hwidth
    · unfold checkedI128 at hnone
      rw [if_pos (by omega)] at hnone
      cases hnone
  · exact L.part_bind (part_failIf (by decide)) fun _ _ => L.part_wrapFlavor flavor result (by omega)

/-- only signed results at width 128 are out of the range of `-limit` -/
theorem whole_extendedArithmetic {gas : Nat} {op : Nat → Int → Int → Instr Int} (h : 0 < gas)
    (hlax : L.lax) (hop : ∀ width a b, width ≤ 128 → L.Plain (op width a b)) :
    L.Whole (pure gas) (extendedArithmetic gas op) := by
  refine whole_gas h (part_then L.part_readUint16 fun width => ?_)
  refine part_then L.part_readUint8 fun flavor =>
    L.part_bind (part_failIf (by decide)) fun _ hwidth => ?_
  obtain ⟨hpos, hle⟩ := width_of_checked hwidth
  refine part_then L.part_popI128 fun b => part_then L.part_popI128 fun a => ?_
  refine part_then (hop _ a b hle) fun result => ?_
  exact part_then (L.part_inRange result hpos hle fun _ _ => hlax) fun _ => L.part_pushI128 _

theorem part_divOp (width : Nat) (a b : Int) : L.Plain (divOp width a b) :=
  L.part_bind (part_failIf (by decide)) fun _ _ => part_ofOption (by decide) fun _ _ => trivial

theorem part_lShiftOp (width : Nat) (a b : Int) : L.Plain (lShiftOp width a b) :=
  L.part_bind (part_failIf (by decide)) fun _ _ => part_ofOption (by decide) fun _ _ => trivial

theorem part_rShiftOp {width : Nat} (a b : Int) (hle : width ≤ 128) :
    L.Plain (rShiftOp width a b) := by
  refine L.part_bind (part_failIf (by decide)) fun _ hb =>
    part_expect (fun hnone => ?_) fun _ _ => trivial
  unfold shrI128 at hnone
  rw [if_pos (by omega)] at hnone
  cases hnone

theorem whole_div (h : L.lax) : L.Whole (pure 8) div :=
  L.whole_extendedArithmetic (by omega) h fun width a b _ => L.part_divOp width a b

theorem whole_lShift (h : L.lax) : L.Whole (pure 4) lShift :=
  L.whole_extendedArithmetic (by omega) h fun width a b _ => L.part_lShiftOp width a b

theorem whole_rShift (h : L.lax) : L.Whole (pure 4) rShift :=
  L.whole_extendedArithmetic (by omega) h fun _ a b hle => L.part_rShiftOp a b hle

theorem whole_conv : L.Whole (pure 4) conv :=
  whole_gas (by omega) (part_then L.part_readUint16 fun _ => part_then L.part_readUint8 fun _ =>
    part_then L.part_popInteger fun _ => L.part_push (L.good_integer _))

/-! ## byte strings -/

theorem whole_byteLen : L.Whole (pure 1) byteLen :=
  whole_gas one_pos (part_then L.part_popBytes fun _ => L.part_pushI128 _)

theorem whole_concat : L.Whole Opcode.concat.cost concat :=
  L.whole_before L.part_popBytes fun _ _ => L.whole_before L.part_popBytes fun _ _ =>
    whole_gas (by omega) (L.part_push (L.good_bytes _))

theorem whole_subBytes (h : L.lax) : L.Whole (pure 4) subBytes := by
  refine whole_gas (by omega) (part_then L.part_popI128 fun len => ?_)
  refine part_then L.part_popI128 fun offset => part_then L.part_popBytes fun bytes => ?_
  refine part_then (part_expect (fun _ => h) fun _ _ => trivial) fun stop => ?_
  refine L.part_bind (part_failIf (by decide)) fun _ _ => ?_
  exact part_then (part_expect (fun _ => h) fun _ _ => trivial)
    fun _ => L.part_push (L.good_bytes _)

theorem whole_byteEq : L.Whole Opcode.byteEq.cost byteEq :=
  L.whole_before L.part_popBytes fun _ _ => L.whole_before L.part_popBytes fun _ _ =>
    whole_gas (by omega) (L.part_pushI128 _)

/-! ## cells -/

theorem whole_newC : L.Whole (pure 10) newC := whole_gas (by omega) (L.part_push L.good_newBuilder)

theorem whole_endC (c : Crypto) : L.Whole (pure 10) (endC c) :=
  whole_gas (by omega) (L.part_bind L.part_popBuilder fun _ _ =>
    part_then (part_ofOption (by decide) fun _ _ => trivial) fun _ => L.part_push (L.good_cell _))

theorem appendBits_err {b b' : Builder} {valBytes : Uint256} {widthBits : Nat} {e : ExceptionKind}
    (h : Builder.appendBits valBytes widthBits b = .err e b') : e = .malformedCell := by
  rw [appendBits_apply] at h
  split_ifs at h
  · cases h
    rfl
  · split at h <;> cases h

theorem readBits_err {slice slice' : Slice} {widthBits : Nat} {e : ExceptionKind}
    (h : Slice.readBits widthBits slice = .err e slice') : e = .malformedCell := by
  rw [readBits_apply] at h
  split_ifs at h
  · cases h
    rfl
  · split at h <;> cases h

theorem whole_stBits : L.Whole (pure 10) stBits := by
  refine whole_gas (by omega) (part_then L.part_readUint16 fun width => ?_)
  refine part_then L.part_readUint8 fun _ => part_then L.part_popInteger fun valBytes => ?_
  refine L.part_bind L.part_popBuilder fun builder hb => ?_
  refine L.part_bind (P := fun r => L.Good (.builder r.2)) ?_ fun r hr => L.part_push hr
  rw [onLocal_eq]
  cases h : Builder.appendBits valBytes width.toNat builder with
  | ok a b' => exact L.part_pure (L.good_appendBits hb h)
  | err e b' => exact L.part_raise (by rw [appendBits_err h]; decide)
  | panic => exact L.part_panic (L.appendBits_panic hb h)

theorem whole_stRef : L.Whole (pure 10) stRef :=
  whole_gas (by omega) (part_then L.part_popCell fun cell => L.part_bind L.part_popBuilder fun _ hb =>
    L.part_bind (part_failIf (by decide)) fun _ hroom =>
      L.part_push (L.good_addRef cell hb (Nat.not_le.mp hroom)))

theorem whole_stBytes : L.Whole Opcode.stBytes.cost stBytes := by
  refine L.whole_before L.part_popBytes fun bytes _ => whole_gas (by omega) ?_
  exact L.part_bind L.part_popBuilder fun builder hb => L.part_bind (part_failIf (by decide))
    fun _ hroom => L.part_push (L.good_addBytes hb (Nat.not_lt.mp hroom))

theorem whole_cToS : L.Whole (pure 10) cToS :=
  whole_gas (by omega) (part_then L.part_popCell fun cell =>
    L.part_bind (part_failIf (by decide)) fun _ _ => L.part_push (L.good_newSlice cell))

theorem whole_load : L.Whole (pure 10) load := by
  refine whole_gas (by omega) (part_then L.part_readUint16 fun width => ?_)
  refine L.part_bind L.part_popSlice fun slice hslice => ?_
  refine L.part_bind (P := fun r => L.Good (.slice r.2)) ?_ fun r hr =>
    part_then (L.part_push hr) fun _ => L.part_push (L.good_integer _)
  rw [onLocal_eq]
  cases h : Slice.readBits width.toNat slice with
  | ok a slice' => exact L.part_pure (L.good_readBits hslice h)
  | err e slice' => exact L.part_raise (by rw [readBits_err h]; decide)
  | panic => exact absurd h (readBits_no_panic width.toNat slice)

theorem part_refCell {slice : Slice} (h : slice.remainingRefs ≠ 0) : L.Plain (refCell slice) := by
  have hlt : slice.refOffset < slice.cell.cellRefs.length := by
    unfold Slice.remainingRefs at h
    omega
  unfold refCell
  split_ifs with hchild
  · rw [List.getElem?_eq_getElem hchild]
    exact L.part_pure trivial
  · rw [List.getElem?_eq_getElem hlt, expect_some_bind]
    exact L.part_pure trivial

theorem whole_ldRef : L.Whole (pure 10) ldRef := by
  refine whole_gas (by omega) (L.part_bind L.part_popSlice fun slice hslice => ?_)
  refine L.part_bind (part_failIf (by decide)) fun _ h => part_then (L.part_refCell h) fun cell => ?_
  exact part_then (L.part_push (L.good_nextRef hslice h)) fun _ => L.part_push (L.good_cell cell)

theorem whole_isExotic : L.Whole (pure 10) isExotic :=
  whole_gas (by omega) (part_then L.part_popCell fun _ => L.part_pushI128 _)

theorem whole_sEmpty : L.Whole (pure 1) sEmpty :=
  whole_gas one_pos (L.part_bind L.part_popSlice fun _ _ => L.part_pushI128 _)

theorem whole_sBits : L.Whole (pure 1) sBits :=
  whole_gas one_pos (L.part_bind L.part_popSlice fun _ _ => L.part_pushI128 _)

theorem whole_sRefs : L.Whole (pure 1) sRefs :=
  whole_gas one_pos (L.part_bind L.part_popSlice fun _ _ => L.part_pushI128 _)

/-! ## cryptography -/

theorem whole_hashBytes (c : Crypto) : L.Whole (pure 200) (hashBytes c) :=
  whole_gas (by omega) (part_then L.part_popBytes fun _ => L.part_push (L.good_integer _))

theorem whole_hashCell (c : Crypto) : L.Whole (pure 200) (hashCell c) :=
  whole_gas (by omega) (part_then L.part_popCell fun _ => L.part_push (L.good_integer _))

theorem whole_chkSignU (c : Crypto) : L.Whole (pure 4000) (chkSignU c) :=
  whole_gas (by omega) (part_then L.part_popInteger fun _ => part_then L.part_popBytes fun _ =>
    part_then L.part_popBytes fun _ => L.part_bind (part_failIf (by decide)) fun _ _ =>
      L.part_pushI128 _)

/-! ## control flow -/

theorem part_popNonzero : L.Plain popNonzero :=
  part_then L.part_popI128 fun _ => L.part_pure trivial

theorem part_popZero : L.Plain popZero := part_then L.part_popI128 fun _ => L.part_pure trivial

theorem whole_transfer {condition : Instr Bool} (call : Bool) (h : L.Plain condition) :
    L.Whole (pure 4) (transfer condition call) :=
  L.whole_charge (by omega) (L.last_bind L.part_readUint8 fun refIdx _ => L.last_bind h fun _ _ =>
    last_onlyIf (L.last_transferTo refIdx.toNat call))

theorem whole_ret : L.Whole (pure 4) ret := L.whole_charge (by omega) L.last_returnToCaller

theorem whole_throw : L.Whole (pure 4) throw := by
  refine whole_gas (by omega) (part_then L.part_readUint8 fun kindByte => ?_)
  split <;> exact L.part_raise (by decide)

theorem whole_ifElse : L.Whole (pure 4) ifElse :=
  whole_gas (by omega) (part_then L.part_readUint8 fun _ => part_then L.part_readUint8 fun _ =>
    part_then L.part_popNonzero fun _ => L.part_jumpBy _)

theorem whole_ifRet : L.Whole (pure 4) ifRet := by
  refine L.whole_charge (by omega) (L.last_bind L.part_popNonzero fun condition _ => ?_)
  cases condition with
  | true => exact L.last_returnToCaller
  | false => exact L.last_part (P := fun _ => True) (L.part_pure trivial)

theorem whole_repeatInstr : L.Whole (pure 4) repeatInstr :=
  whole_gas (by omega) (part_then L.part_readUint8 fun _ => part_then L.part_readUint8 fun offset =>
    part_onlyIf (L.part_jumpBy offset))

theorem whole_untilInstr : L.Whole (pure 4) untilInstr :=
  whole_gas (by omega) (part_then L.part_readUint8 fun offset => part_then L.part_popZero fun _ =>
    part_onlyIf (L.part_jumpBy offset))

/-! ## every instruction -/

/-- **Every instruction**, with the gas it charges. -/
theorem whole_exec (c : Crypto) (op : Opcode) (h : op.Unchecked → L.lax) :
    L.Whole op.cost (exec c op) := by
  cases op with
  | nop => exact L.whole_charge one_pos (L.last_part (P := fun _ => True) (L.part_pure trivial))
  | drop => exact L.whole_goesOn L.whole_drop
  | dup => exact L.whole_goesOn L.whole_dup
  | swap => exact L.whole_goesOn L.whole_swap
  | «over» => exact L.whole_goesOn L.whole_over
  | rot => exact L.whole_goesOn L.whole_rot
  | pick => exact L.whole_goesOn L.whole_pick
  | roll => exact L.whole_goesOn L.whole_roll
  | pushInt => exact L.whole_goesOn L.whole_pushInt
  | pushBytes => exact L.whole_goesOn L.whole_pushBytes
  | nip => exact L.whole_goesOn L.whole_nip
  | tuck => exact L.whole_goesOn L.whole_tuck
  | blkSwap => exact L.whole_goesOn L.whole_blkSwap
  | add => exact L.whole_goesOn L.whole_add
  | sub => exact L.whole_goesOn L.whole_sub
  | neg => exact L.whole_goesOn L.whole_neg
  | mul => exact L.whole_goesOn L.whole_mul
  | divMod => exact L.whole_goesOn (L.whole_divMod (h trivial))
  | cmp => exact L.whole_goesOn L.whole_cmp
  | isZero => exact L.whole_goesOn L.whole_isZero
  | div => exact L.whole_goesOn (L.whole_div (h trivial))
  | lShift => exact L.whole_goesOn (L.whole_lShift (h trivial))
  | rShift => exact L.whole_goesOn (L.whole_rShift (h trivial))
  | conv => exact L.whole_goesOn L.whole_conv
  | byteLen => exact L.whole_goesOn L.whole_byteLen
  | concat => exact L.whole_goesOn L.whole_concat
  | subBytes => exact L.whole_goesOn (L.whole_subBytes (h trivial))
  | byteEq => exact L.whole_goesOn L.whole_byteEq
  | newC => exact L.whole_goesOn L.whole_newC
  | endC => exact L.whole_goesOn (L.whole_endC c)
  | stBits => exact L.whole_goesOn L.whole_stBits
  | stRef => exact L.whole_goesOn L.whole_stRef
  | stBytes => exact L.whole_goesOn L.whole_stBytes
  | cToS => exact L.whole_goesOn L.whole_cToS
  | ldU => exact L.whole_goesOn L.whole_load
  | ldI => exact L.whole_goesOn L.whole_load
  | ldRef => exact L.whole_goesOn L.whole_ldRef
  | isExotic => exact L.whole_goesOn L.whole_isExotic
  | sEmpty => exact L.whole_goesOn L.whole_sEmpty
  | sBits => exact L.whole_goesOn L.whole_sBits
  | sRefs => exact L.whole_goesOn L.whole_sRefs
  | hashBytes => exact L.whole_goesOn (L.whole_hashBytes c)
  | hashCell => exact L.whole_goesOn (L.whole_hashCell c)
  | chkSignU => exact L.whole_goesOn (L.whole_chkSignU c)
  | jmpRef => exact L.whole_goesOn (L.whole_transfer false (L.part_pure trivial))
  | callRef => exact L.whole_goesOn (L.whole_transfer true (L.part_pure trivial))
  | ret => exact L.whole_ret
  | ifJmpRef => exact L.whole_goesOn (L.whole_transfer false L.part_popNonzero)
  | ifNotJmpRef => exact L.whole_goesOn (L.whole_transfer false L.part_popZero)
  | ifCallRef => exact L.whole_goesOn (L.whole_transfer true L.part_popNonzero)
  | ifNotCallRef => exact L.whole_goesOn (L.whole_transfer true L.part_popZero)
  | throw => exact L.whole_goesOn L.whole_throw
  | ifElse => exact L.whole_goesOn L.whole_ifElse
  | ifRet => exact L.whole_ifRet
  | repeatInstr => exact L.whole_goesOn L.whole_repeatInstr
  | untilInstr => exact L.whole_goesOn L.whole_untilInstr

end Logic

end Onx.Vm
