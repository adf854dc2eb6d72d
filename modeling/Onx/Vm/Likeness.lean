import Onx.Lib.Coupling
import Onx.Vm.Steps

/-!
# Runs side by side

Two interpreters that differ where no instruction looks, do the same.  A `Likeness` says of which states
that is so: it respects the stack, of which the second may have more below, what is read from the code, the
gas, and the instructions that leave the code.

* `Likeness`       the relation, with its rules;
* `Placed`         states at one place in the same code, which read the same;
* `same_pop` and so on, `same_drop` and so on   parts, and instructions one by one;
* `same_charge`    what an instruction charges;
* `alike_exec`     **every instruction**;
* `alike_step`     **a step**.
-/

namespace Onx.Vm
open Machine

structure Likeness where
  R : Interpreter → Interpreter → Prop
  /-- what comes of an instruction: whether it goes on, and the states -/
  Q : Bool → Interpreter → Bool → Interpreter → Prop
  /-- where the first gives up -/
  G : ExceptionKind → Interpreter → Prop
  /-- where the second gives up -/
  H : ExceptionKind → Interpreter → Prop
  stacked : ∀ {s t}, R s t → ∃ below, t.stack = s.stack ++ below
    ∧ (below ≠ [] → (∀ u, G .malformedCell u) ∧ ∀ u, MAX_STACK_DEPTH ≤ u.stack.length → H .malformedCell u)
    ∧ ∀ stack, R { s with stack := stack } { t with stack := stack ++ below }
  reads : Couples R G H readUint8 readUint8 (Both R Eq)
  jumps : ∀ offset, Couples R G H (jumpBy offset) (jumpBy offset) (Both R Eq)
  gas : ∀ amount, Couples R G H (consumeGas amount) (consumeGas amount) (Both R Eq)
  transfers : ∀ refIdx call, Couples R G H (transferTo refIdx call) (transferTo refIdx call) (Both R Eq)
  returns : Couples R G H returnToCaller returnToCaller Q
  leaves : Couples R G H leave leave Q
  goes : ∀ {s t}, R s t → Q true s true t

/-- states at one place in the same code -/
def Placed (R : Interpreter → Interpreter → Prop) : Prop :=
  ∀ s t, R s t → t.currentCode = s.currentCode ∧ t.pcBits = s.pcBits
    ∧ ∀ pcBits, R { s with pcBits := pcBits } { t with pcBits := pcBits }

section
variable {R : Interpreter → Interpreter → Prop} {G H : ExceptionKind → Interpreter → Prop}

theorem Placed.reads (hplaced : Placed R) : Couples R G H readUint8 readUint8 (Both R Eq) := by
  intro s t h
  obtain ⟨hcode, hpc, hR⟩ := hplaced s t h
  have hbyte : byteAt t.currentCode t.pcBits = byteAt s.currentCode s.pcBits := by rw [hcode, hpc]
  rw [readUint8_apply, readUint8_apply, hbyte]
  cases byteAt s.currentCode s.pcBits with
  | none => exact .err h
  | some b =>
    dsimp only
    rw [hpc]
    exact .ok ⟨rfl, hR (s.pcBits + 8)⟩

theorem Placed.jumps (hplaced : Placed R) (offset : Byte) :
    Couples R G H (jumpBy offset) (jumpBy offset) (Both R Eq) := by
  refine couples_get fun s t h => ?_
  obtain ⟨hcode, hpc, _⟩ := hplaced s t h
  unfold Interpreter.totalBits
  rw [hcode, hpc]
  exact couples_same (couples_ofOption _ _) fun pc => couples_modify fun s t h => (hplaced s t h).2.2 pc

theorem Placed.end_iff (hplaced : Placed R) {s t : Interpreter} (h : R s t) :
    t.pcBits ≥ t.totalBits ↔ s.pcBits ≥ s.totalBits := by
  obtain ⟨hcode, hpc, _⟩ := hplaced s t h
  unfold Interpreter.totalBits
  rw [hcode, hpc]

end

namespace Likeness
variable (L : Likeness)

/-- the program does the same in both states -/
abbrev Same {α : Type} (m : Instr α) : Prop := Couples L.R L.G L.H m m (Both L.R Eq)

/-- an instruction, which may leave the code -/
abbrev Whole (m : Instr Bool) : Prop := Couples L.R L.G L.H m m L.Q

variable {L}

/-! ## parts -/

theorem whole_of_same {m : Instr Unit} (h : L.Same m) : L.Whole (goesOn m) :=
  couples_same h fun _ _ _ hR => .ok (L.goes hR)

theorem same_pop : L.Same pop := by
  intro s t h
  obtain ⟨below, hstack, hbelow, hR⟩ := L.stacked h
  rw [pop_apply, pop_apply, hstack]
  cases hs : s.stack with
  | nil =>
    cases below with
    | nil => exact .err h
    | cons v below => exact .first ((hbelow (List.cons_ne_nil v below)).1 s)
  | cons v rest => exact .ok ⟨rfl, hR rest⟩

theorem same_push (v : StackValue) : L.Same (push v) := by
  intro s t h
  obtain ⟨below, hstack, hbelow, hR⟩ := L.stacked h
  have hlen : t.stack.length = s.stack.length + below.length := by rw [hstack, List.length_append]
  rw [push_apply, push_apply]
  by_cases hfull : s.stack.length ≥ MAX_STACK_DEPTH
  · rw [if_pos hfull, if_pos (hfull.trans (by omega))]
    exact .err h
  rw [if_neg hfull]
  by_cases hfull' : t.stack.length ≥ MAX_STACK_DEPTH
  · rw [if_pos hfull']
    refine .second ((hbelow ?_).2 t hfull')
    rintro rfl
    exact hfull (hfull'.trans hlen.le)
  · rw [if_neg hfull', hstack]
    exact .ok ⟨rfl, hR (v :: s.stack)⟩

theorem same_popInteger : L.Same popInteger := by
  refine couples_same same_pop fun v => ?_
  cases v with
  | integer bytes => exact couples_pure rfl
  | _ => exact couples_raise _

theorem same_popI128 : L.Same popI128 := couples_same same_popInteger fun _ => couples_pure rfl

theorem same_popBytes : L.Same popBytes := by
  refine couples_same same_pop fun v => ?_
  cases v with
  | bytes v => exact couples_pure rfl
  | _ => exact couples_raise _

theorem same_popCell : L.Same popCell := by
  refine couples_same same_pop fun v => ?_
  cases v with
  | cell cell => exact couples_pure rfl
  | _ => exact couples_raise _

theorem same_popSlice : L.Same popSlice := by
  refine couples_same same_pop fun v => ?_
  cases v with
  | slice slice => exact couples_pure rfl
  | _ => exact couples_raise _

theorem same_popBuilder : L.Same popBuilder := by
  refine couples_same same_pop fun v => ?_
  cases v with
  | builder b => exact couples_pure rfl
  | _ => exact couples_raise _

theorem same_pushI128 (val : Int) : L.Same (pushI128 val) := same_push _

theorem same_readUint16 : L.Same readUint16 :=
  couples_same L.reads fun _ => couples_same L.reads fun _ => couples_pure rfl

theorem same_readBytesExact (len : Nat) : L.Same (readBytesExact len) := by
  induction len with
  | zero => exact couples_pure rfl
  | succ len ih => exact couples_same L.reads fun _ => couples_same ih fun _ => couples_pure rfl

/-- an instruction that charges first -/
theorem same_gas {m : Instr Unit} (amount : Nat) (h : L.Same m) : L.Same (consumeGas amount >>= fun _ => m) :=
  couples_same (L.gas amount) fun _ => h

/-! ## stack instructions -/

theorem same_drop : L.Same drop := same_gas _ (couples_same same_pop fun _ => couples_pure rfl)

theorem same_dup : L.Same dup := by
  refine same_gas _ fun s t h => ?_
  obtain ⟨below, hstack, hbelow, hR⟩ := L.stacked h
  rw [get_bind, get_bind, hstack]
  cases hs : s.stack with
  | nil =>
    cases below with
    | nil => exact .err h
    | cons v below => exact .first ((hbelow (List.cons_ne_nil v below)).1 s)
  | cons v rest => exact same_push v s t h

theorem same_swap : L.Same swap :=
  same_gas _ (couples_same same_pop fun a => couples_same same_pop fun b =>
    couples_same (same_push a) fun _ => same_push b)

/-- a program that asks for `n` values -/
theorem alike_deep {s t : Interpreter} {n : Nat} {p p' : Prop} [Decidable p] [Decidable p']
    {f f' : Unit → Instr Unit} (h : L.R s t) (hp : p ↔ s.stack.length < n) (hp' : p' ↔ t.stack.length < n)
    (hf : n ≤ s.stack.length → Alike L.R L.G L.H (Both L.R Eq) (f () s) (f' () t)) :
    Alike L.R L.G L.H (Both L.R Eq) ((Prog.failIf p .malformedCell >>= f) s)
      ((Prog.failIf p' .malformedCell >>= f') t) := by
  obtain ⟨below, hstack, hbelow, _⟩ := L.stacked h
  have hlen : t.stack.length = s.stack.length + below.length := by rw [hstack, List.length_append]
  refine alike_guard h ?_ ?_ fun hdeep => hf (Nat.not_lt.mp fun hlt => hdeep (hp.mpr hlt))
  · rw [hp, hp']
    omega
  · intro hshort hdeep
    refine (hbelow ?_).1 s
    rintro rfl
    exact hdeep (hp'.mpr (hlen ▸ hp.mp hshort))

/-- values that the first stack has are in the same place on the second -/
theorem getElem?_stack {s t : Interpreter} (h : L.R s t) {i : Nat} (hi : i < s.stack.length) :
    t.stack[i]? = s.stack[i]? := by
  obtain ⟨below, hstack, _⟩ := L.stacked h
  rw [hstack, List.getElem?_append_left hi]

theorem same_over : L.Same «over» := by
  refine same_gas _ fun s t h => ?_
  rw [get_bind, get_bind]
  refine alike_deep h Iff.rfl Iff.rfl fun hdeep => ?_
  rw [getElem?_stack h hdeep]
  exact couples_same (couples_expect _) same_push s t h

theorem same_rot : L.Same rot :=
  same_gas _ (couples_same same_pop fun c => couples_same same_pop fun b => couples_same same_pop fun a =>
    couples_same (same_push b) fun _ => couples_same (same_push c) fun _ => same_push a)

theorem same_pick : L.Same pick := by
  refine same_gas _ (couples_same L.reads fun depth s t h => ?_)
  rw [get_bind, get_bind]
  refine alike_deep h Nat.lt_succ_iff.symm Nat.lt_succ_iff.symm fun hdeep => ?_
  rw [getElem?_stack h hdeep]
  exact couples_same (couples_expect _) same_push s t h

theorem same_roll : L.Same roll := by
  refine same_gas _ (couples_same L.reads fun depth s t h => ?_)
  rw [get_bind, get_bind]
  refine alike_deep h Nat.lt_succ_iff.symm Nat.lt_succ_iff.symm fun hdeep => ?_
  rw [getElem?_stack h hdeep, List.getElem?_eq_getElem hdeep, expect_some_bind]
  obtain ⟨below, hstack, _, hR⟩ := L.stacked h
  have hroll := hR (s.stack.eraseIdx depth.toNat)
  rw [← List.eraseIdx_append_of_lt_length hdeep, ← hstack] at hroll
  exact same_push _ _ _ hroll

theorem same_pushInt : L.Same pushInt :=
  same_gas _ (couples_same L.reads fun _ => couples_same (same_readBytesExact 32) fun _ =>
    couples_same (couples_expect _) fun _ => same_push _)

theorem same_pushBytes : L.Same pushBytes :=
  couples_same same_readUint16 fun len => same_gas _ (couples_same (same_readBytesExact len.toNat) fun _ =>
    same_push _)

theorem same_nip : L.Same nip := by
  refine same_gas _ fun s t h => ?_
  rw [get_bind, get_bind]
  refine alike_deep h Iff.rfl Iff.rfl fun _ => ?_
  exact couples_same same_pop (fun top => couples_same same_pop fun _ => same_push top) s t h

theorem same_tuck : L.Same tuck := by
  refine same_gas _ fun s t h => ?_
  rw [get_bind, get_bind]
  refine alike_deep h Iff.rfl Iff.rfl fun _ => ?_
  exact couples_same same_pop (fun b => couples_same same_pop fun a => couples_same (same_push b) fun _ =>
    couples_same (same_push a) fun _ => same_push b) s t h

/-- what is below the block stays below -/
theorem rotateLeft_append {count left : Nat} {stack : List StackValue} (h : count ≤ stack.length)
    (below : List StackValue) :
    rotateLeft count left (stack ++ below) = (rotateLeft count left stack).map (· ++ below) := by
  have hlong : count ≤ (stack ++ below).length := by
    rw [List.length_append]
    omega
  unfold rotateLeft
  by_cases hleft : left ≤ count
  · have hmiddle : left ≤ (stack.drop (count - left)).length := by
      rw [List.length_drop]
      omega
    rw [if_pos ⟨hlong, hleft⟩, if_pos ⟨h, hleft⟩]
    dsimp only [Option.map_some]
    rw [List.drop_append_of_le_length (by omega), List.take_append_of_le_length hmiddle,
      List.take_append_of_le_length (by omega), List.drop_append_of_le_length h, List.append_assoc,
      List.append_assoc, List.append_assoc]
  · rw [if_neg (fun hboth => hleft hboth.2), if_neg (fun hboth => hleft hboth.2), Option.map_none]

theorem same_blkSwap : L.Same blkSwap := by
  refine same_gas _ (couples_same L.reads fun left => couples_same L.reads fun right =>
    couples_same (couples_ofOption _ _) fun count s t h => ?_)
  rw [get_bind, get_bind]
  by_cases hzero : left = 0 ∨ right = 0
  · have hbad : ∀ n, left = 0 ∨ right = 0 ∨ n < count := fun n => hzero.imp_right Or.inl
    rw [bind_err (failIf_pos (hbad _) _ _), bind_err (failIf_pos (hbad _) _ _)]
    exact .err h
  have hshort : ∀ n, (left = 0 ∨ right = 0 ∨ n < count) ↔ n < count := by
    intro n
    refine ⟨fun hor => ?_, fun hlt => .inr (.inr hlt)⟩
    rcases hor with hl | hr | hlt
    · exact absurd (.inl hl) hzero
    · exact absurd (.inr hr) hzero
    · exact hlt
  refine alike_deep h (hshort _) (hshort _) fun hdeep => ?_
  obtain ⟨below, hstack, _, hR⟩ := L.stacked h
  rw [hstack, rotateLeft_append hdeep]
  cases rotateLeft count left.toNat s.stack with
  | none => exact .panic
  | some stack => exact .ok ⟨rfl, hR stack⟩

/-! ## arithmetic -/

theorem same_arithmetic {gas : Nat} {op : Instr Unit} (hop : L.Same op) : L.Same (arithmetic gas op) :=
  same_gas _ (couples_same same_readUint16 fun _ => couples_same L.reads fun _ =>
    couples_same (couples_failIf _ _) fun _ => hop)

theorem same_pushChecked (o : Option Int) :
    L.Same (Prog.ofOption ExceptionKind.integerOverflow o >>= pushI128) :=
  couples_same (couples_ofOption _ _) same_pushI128

theorem same_add : L.Same add :=
  same_arithmetic (couples_same same_popI128 fun _ => couples_same same_popI128 fun _ => same_pushChecked _)

theorem same_sub : L.Same sub :=
  same_arithmetic (couples_same same_popI128 fun _ => couples_same same_popI128 fun _ => same_pushChecked _)

theorem same_neg : L.Same neg := same_arithmetic (couples_same same_popI128 fun _ => same_pushChecked _)

theorem same_mul : L.Same mul :=
  same_arithmetic (couples_same same_popI128 fun _ => couples_same same_popI128 fun _ => same_pushChecked _)

theorem same_divMod : L.Same divMod :=
  same_arithmetic (couples_same same_popI128 fun _ => couples_same same_popI128 fun _ =>
    couples_same (couples_failIf _ _) fun _ => couples_same (couples_expect _) fun q =>
      couples_same (couples_expect _) fun r => couples_same (same_pushI128 q) fun _ => same_pushI128 r)

theorem same_cmp : L.Same cmp :=
  same_arithmetic (couples_same same_popI128 fun _ => couples_same same_popI128 fun _ => same_pushI128 _)

theorem same_isZero : L.Same isZero := same_gas _ (couples_same same_popInteger fun _ => same_pushI128 _)

theorem same_fitsFlavor (flavor : Byte) (limit result : Int) : L.Same (fitsFlavor flavor limit result) := by
  unfold fitsFlavor
  split_ifs
  · exact couples_same (couples_ofOption _ _) fun _ => couples_pure rfl
  · exact couples_pure rfl
  · exact couples_same (couples_expect _) fun _ => couples_pure rfl
  · exact couples_pure rfl

theorem same_wrapFlavor (flavor : Byte) (limit result : Int) : L.Same (wrapFlavor flavor limit result) := by
  unfold wrapFlavor
  split_ifs
  · exact couples_same (couples_ofOption _ _) fun _ => couples_expect _
  · exact couples_pure rfl

theorem same_inRange (width : Nat) (flavor : Byte) (result : Int) : L.Same (inRange width flavor result) :=
  couples_same (couples_ofOption _ _) fun limit => couples_same (same_fitsFlavor flavor limit result) fun _ =>
    couples_same (couples_failIf _ _) fun _ => same_wrapFlavor flavor limit result

theorem same_extendedArithmetic {gas : Nat} {op : Nat → Int → Int → Instr Int}
    (hop : ∀ width a b, L.Same (op width a b)) : L.Same (extendedArithmetic gas op) :=
  same_gas _ (couples_same same_readUint16 fun width => couples_same L.reads fun flavor =>
    couples_same (couples_failIf _ _) fun _ => couples_same same_popI128 fun b =>
      couples_same same_popI128 fun a => couples_same (hop width.toNat a b) fun result =>
        couples_same (same_inRange width.toNat flavor result) same_pushI128)

theorem same_divOp (width : Nat) (a b : Int) : L.Same (divOp width a b) :=
  couples_same (couples_failIf _ _) fun _ => couples_ofOption _ _

theorem same_lShiftOp (width : Nat) (a b : Int) : L.Same (lShiftOp width a b) :=
  couples_same (couples_failIf _ _) fun _ => couples_ofOption _ _

theorem same_rShiftOp (width : Nat) (a b : Int) : L.Same (rShiftOp width a b) :=
  couples_same (couples_failIf _ _) fun _ => couples_expect _

theorem same_conv : L.Same conv :=
  same_gas _ (couples_same same_readUint16 fun _ => couples_same L.reads fun _ =>
    couples_same same_popInteger fun _ => same_push _)

/-! ## byte strings and cells -/

theorem same_byteLen : L.Same byteLen := same_gas _ (couples_same same_popBytes fun _ => same_pushI128 _)

theorem same_concat : L.Same concat :=
  couples_same same_popBytes fun _ => couples_same same_popBytes fun _ => same_gas _ (same_push _)

theorem same_subBytes : L.Same subBytes :=
  same_gas _ (couples_same same_popI128 fun _ => couples_same same_popI128 fun _ =>
    couples_same same_popBytes fun _ => couples_same (couples_expect _) fun _ =>
      couples_same (couples_failIf _ _) fun _ => couples_same (couples_expect _) fun _ => same_push _)

theorem same_byteEq : L.Same byteEq :=
  couples_same same_popBytes fun _ => couples_same same_popBytes fun _ => same_gas _ (same_pushI128 _)

theorem same_newC : L.Same newC := same_gas _ (same_push _)

theorem same_endC (c : Crypto) : L.Same (endC c) :=
  same_gas _ (couples_same same_popBuilder fun _ => couples_same (couples_ofOption _ _) fun _ => same_push _)

theorem same_stBits : L.Same stBits :=
  same_gas _ (couples_same same_readUint16 fun _ => couples_same L.reads fun _ =>
    couples_same same_popInteger fun _ => couples_same same_popBuilder fun _ =>
      couples_same (couples_onLocal _ _) fun _ => same_push _)

theorem same_stRef : L.Same stRef :=
  same_gas _ (couples_same same_popCell fun _ => couples_same same_popBuilder fun _ =>
    couples_same (couples_failIf _ _) fun _ => same_push _)

theorem same_stBytes : L.Same stBytes :=
  couples_same same_popBytes fun _ => same_gas _ (couples_same same_popBuilder fun _ =>
    couples_same (couples_failIf _ _) fun _ => same_push _)

theorem same_cToS : L.Same cToS :=
  same_gas _ (couples_same same_popCell fun _ => couples_same (couples_failIf _ _) fun _ => same_push _)

theorem same_load : L.Same load :=
  same_gas _ (couples_same same_readUint16 fun _ => couples_same same_popSlice fun _ =>
    couples_same (couples_onLocal _ _) fun _ => couples_same (same_push _) fun _ => same_push _)

theorem same_refCell (slice : Slice) : L.Same (refCell slice) := by
  unfold refCell
  split_ifs
  · exact couples_expect _
  · exact couples_same (couples_expect _) fun _ => couples_expect _

theorem same_ldRef : L.Same ldRef :=
  same_gas _ (couples_same same_popSlice fun slice => couples_same (couples_failIf _ _) fun _ =>
    couples_same (same_refCell slice) fun _ => couples_same (same_push _) fun _ => same_push _)

theorem same_isExotic : L.Same isExotic := same_gas _ (couples_same same_popCell fun _ => same_pushI128 _)

theorem same_sEmpty : L.Same sEmpty := same_gas _ (couples_same same_popSlice fun _ => same_pushI128 _)

theorem same_sBits : L.Same sBits := same_gas _ (couples_same same_popSlice fun _ => same_pushI128 _)

theorem same_sRefs : L.Same sRefs := same_gas _ (couples_same same_popSlice fun _ => same_pushI128 _)

/-! ## cryptography -/

theorem same_hashBytes (c : Crypto) : L.Same (hashBytes c) :=
  same_gas _ (couples_same same_popBytes fun _ => same_push _)

theorem same_hashCell (c : Crypto) : L.Same (hashCell c) :=
  same_gas _ (couples_same same_popCell fun _ => same_push _)

theorem same_chkSignU (c : Crypto) : L.Same (chkSignU c) :=
  same_gas _ (couples_same same_popInteger fun _ => couples_same same_popBytes fun _ =>
    couples_same same_popBytes fun _ => couples_same (couples_failIf _ _) fun _ => same_pushI128 _)

/-! ## control flow -/

theorem same_popNonzero : L.Same popNonzero := couples_same same_popI128 fun _ => couples_pure rfl

theorem same_popZero : L.Same popZero := couples_same same_popI128 fun _ => couples_pure rfl

theorem same_transfer {condition : Instr Bool} (call : Bool) (h : L.Same condition) :
    L.Same (transfer condition call) :=
  same_gas _ (couples_same L.reads fun refIdx => couples_same h fun _ =>
    couples_onlyIf _ (L.transfers refIdx.toNat call))

theorem whole_ret : L.Whole ret := couples_same (L.gas 4) fun _ => L.returns

theorem same_throw : L.Same throw := by
  refine same_gas _ (couples_same L.reads fun kindByte => ?_)
  split <;> exact couples_raise _

theorem same_ifElse : L.Same ifElse :=
  same_gas _ (couples_same L.reads fun _ => couples_same L.reads fun _ =>
    couples_same same_popNonzero fun _ => L.jumps _)

theorem whole_ifRet : L.Whole ifRet := by
  refine couples_same (L.gas 4) fun _ => couples_same same_popNonzero fun condition => ?_
  cases condition with
  | true => exact L.returns
  | false => exact fun _ _ hR => .ok (L.goes hR)

theorem same_repeatInstr : L.Same repeatInstr :=
  same_gas _ (couples_same L.reads fun _ => couples_same L.reads fun offset =>
    couples_onlyIf _ (L.jumps offset))

theorem same_untilInstr : L.Same untilInstr :=
  same_gas _ (couples_same L.reads fun offset => couples_same same_popZero fun _ =>
    couples_onlyIf _ (L.jumps offset))

/-! ## what an instruction charges -/

theorem same_cost (op : Opcode) : L.Same op.cost := by
  cases op with
  | pushBytes => exact couples_same same_readUint16 fun _ => couples_pure rfl
  | concat => exact couples_same same_popBytes fun _ => couples_same same_popBytes fun _ => couples_pure rfl
  | byteEq => exact couples_same same_popBytes fun _ => couples_same same_popBytes fun _ => couples_pure rfl
  | stBytes => exact couples_same same_popBytes fun _ => couples_pure rfl
  | _ => exact couples_pure rfl

theorem same_charge : L.Same charge :=
  couples_same L.reads fun _ => couples_same (couples_ofOption _ _) same_cost

/-! ## every instruction -/

/-- **Every instruction** does the same in states that are alike. -/
theorem alike_exec (c : Crypto) (op : Opcode) : L.Whole (exec c op) := by
  cases op with
  | nop => exact whole_of_same (L.gas 1)
  | drop => exact whole_of_same same_drop
  | dup => exact whole_of_same same_dup
  | swap => exact whole_of_same same_swap
  | «over» => exact whole_of_same same_over
  | rot => exact whole_of_same same_rot
  | pick => exact whole_of_same same_pick
  | roll => exact whole_of_same same_roll
  | pushInt => exact whole_of_same same_pushInt
  | pushBytes => exact whole_of_same same_pushBytes
  | nip => exact whole_of_same same_nip
  | tuck => exact whole_of_same same_tuck
  | blkSwap => exact whole_of_same same_blkSwap
  | add => exact whole_of_same same_add
  | sub => exact whole_of_same same_sub
  | neg => exact whole_of_same same_neg
  | mul => exact whole_of_same same_mul
  | divMod => exact whole_of_same same_divMod
  | cmp => exact whole_of_same same_cmp
  | isZero => exact whole_of_same same_isZero
  | div => exact whole_of_same (same_extendedArithmetic same_divOp)
  | lShift => exact whole_of_same (same_extendedArithmetic same_lShiftOp)
  | rShift => exact whole_of_same (same_extendedArithmetic same_rShiftOp)
  | conv => exact whole_of_same same_conv
  | byteLen => exact whole_of_same same_byteLen
  | concat => exact whole_of_same same_concat
  | subBytes => exact whole_of_same same_subBytes
  | byteEq => exact whole_of_same same_byteEq
  | newC => exact whole_of_same same_newC
  | endC => exact whole_of_same (same_endC c)
  | stBits => exact whole_of_same same_stBits
  | stRef => exact whole_of_same same_stRef
  | stBytes => exact whole_of_same same_stBytes
  | cToS => exact whole_of_same same_cToS
  | ldU => exact whole_of_same same_load
  | ldI => exact whole_of_same same_load
  | ldRef => exact whole_of_same same_ldRef
  | isExotic => exact whole_of_same same_isExotic
  | sEmpty => exact whole_of_same same_sEmpty
  | sBits => exact whole_of_same same_sBits
  | sRefs => exact whole_of_same same_sRefs
  | hashBytes => exact whole_of_same (same_hashBytes c)
  | hashCell => exact whole_of_same (same_hashCell c)
  | chkSignU => exact whole_of_same (same_chkSignU c)
  | jmpRef => exact whole_of_same (same_transfer false (couples_pure rfl))
  | callRef => exact whole_of_same (same_transfer true (couples_pure rfl))
  | ret => exact whole_ret
  | ifJmpRef => exact whole_of_same (same_transfer false same_popNonzero)
  | ifNotJmpRef => exact whole_of_same (same_transfer false same_popZero)
  | ifCallRef => exact whole_of_same (same_transfer true same_popNonzero)
  | ifNotCallRef => exact whole_of_same (same_transfer true same_popZero)
  | throw => exact whole_of_same same_throw
  | ifElse => exact whole_of_same same_ifElse
  | ifRet => exact whole_ifRet
  | repeatInstr => exact whole_of_same same_repeatInstr
  | untilInstr => exact whole_of_same same_untilInstr

/-- **A step** from states that are alike. -/
theorem alike_step (c : Crypto) {s t : Interpreter} (h : L.R s t)
    (hend : t.pcBits ≥ t.totalBits ↔ s.pcBits ≥ s.totalBits) :
    Alike L.R L.G L.H L.Q (step c s) (step c t) := by
  by_cases hs : s.pcBits ≥ s.totalBits
  · rw [step_of_end hs, step_of_end (hend.mpr hs)]
    exact L.leaves s t h
  · rw [step_of_code hs, step_of_code fun ht => hs (hend.mp ht)]
    exact couples_same L.reads (fun _ => couples_same (couples_ofOption _ _) (alike_exec c)) s t h

end Likeness

end Onx.Vm
