import Onx.Vm.Returns

/-!
# Values stay well formed

Builders have two writers: of bits, which count them, and of bytes, which do not.  Both keep the
counted bits within the bytes, and the bytes within what a cell holds.

* `StackValue.WellFormed`   a builder that is a cell at any time, a slice within its cell;
* `Tidy`                    the stack is within its depth and has such values only;
* `tidy_step`               a step keeps a state tidy;
* `Reachable`               steps, and entries of the exception handler;
* `values_wellFormed`       **values are well formed wherever a run comes to**.
-/

namespace Onx.Vm
open Machine

structure Builder.WellFormed (b : Builder) : Prop where
  dataBytes_le : b.dataBytes.length ≤ 128
  references_le : b.references.length ≤ 4
  fits : b.Fits

structure Slice.WellFormed (slice : Slice) : Prop where
  bitOffset_le : slice.bitOffset ≤ 8 * slice.cell.dataBytes.length
  refOffset_le : slice.refOffset ≤ slice.cell.cellRefs.length

def StackValue.WellFormed : StackValue → Prop
  | .builder b => b.WellFormed
  | .slice s => s.WellFormed
  | _ => True

/-- the states of contract code, whatever their code and registers -/
structure Tidy (s : Interpreter) : Prop where
  stack_le : s.stack.length ≤ MAX_STACK_DEPTH
  values : ∀ v ∈ s.stack, v.WellFormed

/-! ## slices and builders -/

theorem appendBits_ok {b b' : Builder} {valBytes : Uint256} {widthBits : Nat}
    (h : Builder.appendBits valBytes widthBits b = .ok () b') :
    b.currentBitLen + widthBits ≤ 128 * 8 ∧ ∃ data,
      Builder.appendLoop valBytes widthBits b.currentBitLen widthBits b.dataBytes = some data
      ∧ b' = { b with dataBytes := data, currentBitLen := b.currentBitLen + widthBits } := by
  rw [appendBits_apply] at h
  split_ifs at h with hout
  push Not at hout
  cases hloop : Builder.appendLoop valBytes widthBits b.currentBitLen widthBits b.dataBytes with
  | none =>
    rw [hloop] at h
    cases h
  | some data =>
    rw [hloop] at h
    cases h
    exact ⟨hout.2, data, rfl, rfl⟩

theorem Builder.WellFormed.appendBits {b b' : Builder} {valBytes : Uint256} {widthBits : Nat}
    (hb : b.WellFormed) (h : Builder.appendBits valBytes widthBits b = .ok () b') :
    b'.WellFormed := by
  obtain ⟨ht, data, hdata, rfl⟩ := appendBits_ok h
  obtain ⟨data', hdata', hfit, hmax⟩ := appendLoop_some valBytes widthBits b.currentBitLen widthBits
    b.dataBytes (le_refl _) (by rw [Nat.sub_self]; exact hb.fits)
  rw [hdata] at hdata'
  cases hdata'
  have hle := hb.dataBytes_le
  refine ⟨?_, hb.references_le, hfit⟩
  show data.length ≤ 128
  omega

theorem readBits_ok {slice slice' : Slice} {widthBits : Nat} {a : Uint256}
    (h : Slice.readBits widthBits slice = .ok a slice') :
    widthBits ≤ slice.remainingBits
      ∧ slice' = { slice with bitOffset := slice.bitOffset + widthBits } := by
  rw [readBits_apply] at h
  split_ifs at h with hout
  push Not at hout
  cases hloop : Slice.readLoop slice.cell.dataBytes slice.bitOffset widthBits widthBits 0 with
  | none =>
    rw [hloop] at h
    cases h
  | some res =>
    rw [hloop] at h
    cases h
    exact ⟨hout.1, rfl⟩

theorem Slice.WellFormed.readBits {slice slice' : Slice} {widthBits : Nat} {a : Uint256}
    (hs : slice.WellFormed) (h : Slice.readBits widthBits slice = .ok a slice') :
    slice'.WellFormed := by
  obtain ⟨hle, rfl⟩ := readBits_ok h
  have hoffset := hs.bitOffset_le
  unfold Slice.remainingBits at hle
  refine ⟨?_, hs.refOffset_le⟩
  show slice.bitOffset + widthBits ≤ 8 * slice.cell.dataBytes.length
  omega

theorem Slice.WellFormed.nextRef {slice : Slice} (hs : slice.WellFormed)
    (hrefs : slice.remainingRefs ≠ 0) :
    Slice.WellFormed { slice with refOffset := slice.refOffset + 1 } := by
  unfold Slice.remainingRefs at hrefs
  refine ⟨hs.bitOffset_le, ?_⟩
  show slice.refOffset + 1 ≤ slice.cell.cellRefs.length
  omega

theorem Builder.WellFormed.addRef {b : Builder} (hb : b.WellFormed) (cell : Cell)
    (hroom : b.references.length < 4) :
    Builder.WellFormed { b with references := b.references ++ [cell] } := by
  refine ⟨hb.dataBytes_le, ?_, hb.fits⟩
  show (b.references ++ [cell]).length ≤ 4
  rw [List.length_append, List.length_singleton]
  exact hroom

theorem Builder.WellFormed.addBytes {b : Builder} (hb : b.WellFormed) {v : Bytes}
    (hroom : b.dataBytes.length + v.length ≤ 128) :
    Builder.WellFormed { b with dataBytes := b.dataBytes ++ v } := by
  have hfits : b.currentBitLen ≤ 8 * b.dataBytes.length := hb.fits
  refine ⟨?_, hb.references_le, ?_⟩
  · show (b.dataBytes ++ v).length ≤ 128
    rw [List.length_append]
    exact hroom
  · show b.currentBitLen ≤ 8 * (b.dataBytes ++ v).length
    rw [List.length_append]
    omega

/-! ## instructions -/

/-- nothing is said about where a program goes -/
def Anywhere (_ _ : Interpreter) : Prop := True

instance : Std.Refl Anywhere := ⟨fun _ => trivial⟩

instance : IsTrans Interpreter Anywhere := ⟨fun _ _ _ _ _ => trivial⟩

/-- a program that keeps the state tidy -/
abbrev Tidies {α : Type} (m : Instr α) (P : α → Prop) : Prop := Keeps True Tidy Anywhere m P

theorem tidies_code {g : Interpreter → Interpreter} (h : ∀ s, (g s).stack = s.stack) :
    Tidies (Prog.modify g) fun _ => True := by
  refine keeps_modify fun s hs => ⟨⟨?_, ?_⟩, trivial⟩
  · rw [h]
    exact hs.stack_le
  · rw [h]
    exact hs.values

theorem tidies_consumeGas (amount : Nat) : Tidies (consumeGas amount) fun _ => True := by
  intro s hs
  rw [consumeGas_apply]
  split_ifs
  · exact ⟨⟨hs.stack_le, hs.values⟩, trivial⟩
  · exact ⟨⟨hs.stack_le, hs.values⟩, trivial, trivial⟩

theorem tidies_pop : Tidies pop StackValue.WellFormed := by
  intro s hs
  rw [pop_apply]
  cases h : s.stack with
  | nil => exact ⟨hs, trivial⟩
  | cons v rest =>
    have hvalues : ∀ w ∈ v :: rest, w.WellFormed := h ▸ hs.values
    have hle : (v :: rest).length ≤ MAX_STACK_DEPTH := h ▸ hs.stack_le
    exact ⟨⟨(Nat.le_succ _).trans hle, fun w hw => hvalues w (List.mem_cons_of_mem _ hw)⟩, trivial,
      hvalues v List.mem_cons_self⟩

theorem tidies_push {v : StackValue} (hv : v.WellFormed) : Tidies (push v) fun _ => True := by
  intro s hs
  rw [push_apply]
  split_ifs with hfull
  · exact ⟨hs, trivial⟩
  · refine ⟨⟨Nat.not_le.mp hfull, ?_⟩, trivial, trivial⟩
    intro w hw
    rcases List.mem_cons.mp hw with rfl | hw
    · exact hv
    · exact hs.values w hw

theorem tidies_readUint8 : Tidies readUint8 fun _ => True := by
  intro s hs
  rw [readUint8_apply]
  cases byteAt s.currentCode s.pcBits with
  | none => exact ⟨hs, trivial⟩
  | some b => exact ⟨⟨hs.stack_le, hs.values⟩, trivial, trivial⟩

theorem tidies_jumpBy (offset : Byte) : Tidies (jumpBy offset) fun _ => True :=
  keeps_bind keeps_get fun _ _ => keeps_bind (P := fun _ => True)
    (keeps_ofOption fun _ _ => trivial) fun _ _ => tidies_code fun _ => rfl

theorem tidies_transferTo (refIdx : Nat) (call : Bool) :
    Tidies (transferTo refIdx call) fun _ => True := by
  intro s hs
  rw [transferTo_apply]
  cases s.codeRefs[refIdx]? with
  | none => exact ⟨hs, trivial⟩
  | some target =>
    cases call with
    | false => exact ⟨⟨hs.stack_le, hs.values⟩, trivial, trivial⟩
    | true => exact ⟨⟨hs.stack_le, hs.values⟩, trivial, trivial⟩

theorem tidies_returnToCaller : Tidies returnToCaller fun _ => True := by
  intro s hs
  rw [returnToCaller_apply]
  cases s.controlRegisters.c0 with
  | none => exact ⟨hs, trivial, trivial⟩
  | some k => exact ⟨⟨hs.stack_le, hs.values⟩, trivial, trivial⟩

theorem tidies_restack {g : Interpreter → List StackValue}
    (h : ∀ s, Tidy s → ∃ self, Tidy self ∧ (∀ v ∈ g s, v ∈ self.stack)
      ∧ (g s).length ≤ self.stack.length) :
    Tidies (Prog.modify fun s => { s with stack := g s }) fun _ => True := by
  refine keeps_modify fun s hs => ⟨?_, trivial⟩
  obtain ⟨self, hself, hmem, hle⟩ := h s hs
  exact ⟨hle.trans hself.stack_le, fun v hv => hself.values v (hmem v hv)⟩

/-- the logic of `Tidies` -/
def tidyLogic : Logic where
  lax := True
  Good := StackValue.WellFormed
  Seen := Tidy
  Part := fun m P => Tidies m P
  Last := fun m => Tidies m fun _ => True
  Whole := fun _ m => Tidies m fun _ => True
  good_integer := fun _ => trivial
  good_bytes := fun _ => trivial
  good_cell := fun _ => trivial
  good_newSlice := fun _ => ⟨Nat.zero_le _, Nat.zero_le _⟩
  good_readBits := fun hs h => Slice.WellFormed.readBits hs h
  good_nextRef := fun hs hrefs => Slice.WellFormed.nextRef hs hrefs
  good_newBuilder := ⟨Nat.zero_le _, Nat.zero_le _, Nat.le_refl 0⟩
  good_appendBits := fun hb h => Builder.WellFormed.appendBits hb h
  appendBits_panic := fun _ _ => trivial
  good_addRef := fun cell hb hroom => Builder.WellFormed.addRef hb cell hroom
  good_addBytes := fun hb hroom => Builder.WellFormed.addBytes hb hroom
  good_of_seen := Tidy.values
  part_bind := keeps_bind
  part_pure := keeps_pure
  part_raise := fun _ => keeps_raise
  part_panic := fun _ _ _ => trivial
  part_get := keeps_get
  part_pop := tidies_pop
  part_push := tidies_push
  part_restack := tidies_restack
  part_readUint8 := tidies_readUint8
  part_jumpBy := tidies_jumpBy
  last_part := fun h => keeps_mono h id fun _ _ => trivial
  last_bind := keeps_bind
  last_transferTo := tidies_transferTo
  last_returnToCaller := tidies_returnToCaller
  whole_charge := fun _ hm => keeps_bind (tidies_consumeGas _) fun _ _ => hm
  whole_before := fun hm hf => keeps_bind hm hf
  whole_goesOn := fun h => keeps_bind h fun _ _ => keeps_pure trivial

/-! ## runs -/

theorem tidies_leave : Tidies leave fun _ => True := by
  refine keeps_bind keeps_get fun self _ => ?_
  cases self.callStack with
  | nil => exact keeps_pure trivial
  | cons caller rest => exact keeps_bind (tidies_code fun _ => rfl) fun _ _ => keeps_pure trivial

/-- **A step keeps a state tidy**, whether it succeeds or not. -/
theorem tidies_step (c : Crypto) : Tidies (step c) fun _ => True := by
  intro s hs
  by_cases h : s.pcBits ≥ s.totalBits
  · rw [step_of_end h]
    exact tidies_leave s hs
  · rw [step_of_code h]
    refine keeps_bind tidies_readUint8 (fun _ _ => ?_) s hs
    exact keeps_bind (P := fun _ => True) (keeps_ofOption fun _ _ => trivial) fun op _ =>
      tidyLogic.whole_exec c op fun _ => trivial

/-- the number of an exception is one more value -/
theorem tidy_raised {kind : ExceptionKind} {s t : Interpreter} (hs : Tidy s)
    (h : raised kind s = .next t) : Tidy t := by
  cases hc2 : s.controlRegisters.c2 with
  | none =>
    unfold raised at h
    rw [hc2] at h
    cases h
  | some handler =>
    rw [raised_of_c2 hc2] at h
    split_ifs at h with hroom
    cases h
    refine ⟨hroom, fun v hv => ?_⟩
    rcases List.mem_cons.mp hv with rfl | hv
    · trivial
    · exact hs.values v hv

/-- the states that steps, and the entries of the exception handler after them, come to -/
inductive Reachable (c : Crypto) (start : Interpreter) : Interpreter → Prop where
  | start : Reachable c start start
  | step {s t} (hs : Reachable c start s) (h : again c s = .next t) : Reachable c start t
  | handler {s t u kind} (hs : Reachable c start s) (h : Vm.step c s = .err kind t)
      (hu : raised kind t = .next u) : Reachable c start u

theorem tidy_of_reachable {c : Crypto} {start s : Interpreter} (hstart : Tidy start)
    (h : Reachable c start s) : Tidy s := by
  induction h with
  | start => exact hstart
  | step _ h ih =>
    unfold again at h
    have hrun := tidies_step c _ ih
    split at h
    · rename_i hstep
      rw [hstep] at hrun
      cases h
      exact hrun.1
    · rename_i hstep
      rw [hstep] at hrun
      cases h
      exact hrun.1
    · cases h
  | handler _ h hu ih => exact tidy_raised ((tidies_step c).err ih h).1 hu

/-- **A well formed builder becomes a cell**, where the gas is paid. -/
theorem endC_succeeds (c : Crypto) {s : Interpreter} (hs : Tidy s) {b : Builder}
    {rest : List StackValue} (hop : opcodeAt s = some .endC) (hstack : s.stack = .builder b :: rest)
    (hgas : HasGas s 10) :
    ∃ cell t, step c s = .ok true t ∧ t.stack = .cell cell :: rest
      ∧ cell.dataBytes = b.dataBytes := by
  have hb : b.WellFormed := hs.values (.builder b) (hstack ▸ List.mem_cons_self)
  have hroom : ¬ rest.length ≥ MAX_STACK_DEPTH := by
    have hle := hs.stack_le
    rw [hstack, List.length_cons] at hle
    omega
  have hrefs : (b.references.map (Cell.hash c)).length ≤ 4 := by
    rw [List.length_map]
    exact hb.references_le
  have hcell : Cell.new b.dataBytes (b.references.map (Cell.hash c))
      = .ok ⟨b.dataBytes, _, false, hb.dataBytes_le, hrefs⟩ :=
    Cell.newWithSpecial_eq hb.dataBytes_le hrefs
  have hpop : popBuilder (pay (behindOpcode s) 10)
      = .ok b { pay (behindOpcode s) 10 with stack := rest } := by
    have hpop : pop (pay (behindOpcode s) 10)
        = .ok (.builder b) { pay (behindOpcode s) 10 with stack := rest } := by
      rw [pop_apply, show (pay (behindOpcode s) 10).stack = _ from hstack]
    unfold popBuilder
    rw [bind_ok hpop]
    rfl
  have hpay : consumeGas 10 (behindOpcode s) = .ok () (pay (behindOpcode s) 10) :=
    consumeGas_paid (Nat.not_lt.mpr hgas)
  have hend : endC c (behindOpcode s) = .ok () { pay (behindOpcode s) 10 with
      stack := .cell ⟨b.dataBytes, _, false, hb.dataBytes_le, hrefs⟩ :: rest } := by
    unfold endC
    rw [bind_ok hpay, bind_ok hpop]
    dsimp only
    rw [hcell]
    show push _ _ = _
    rw [push_apply]
    exact if_neg hroom
  exact ⟨_, _, (step_of_opcode hop).trans (bind_ok hend), rfl, rfl⟩

/-- **Values are well formed** in every state that a run from an empty stack comes to, and a
builder becomes a cell there. -/
theorem values_wellFormed (c : Crypto) (self : Interpreter) {s : Interpreter}
    (h : Reachable c { self with stack := [] } s) :
    s.stack.length ≤ 1023 ∧ (∀ v ∈ s.stack, v.WellFormed)
    ∧ ∀ b rest, opcodeAt s = some .endC → s.stack = .builder b :: rest → HasGas s 10 →
      ∃ cell t, step c s = .ok true t ∧ t.stack = .cell cell :: rest
        ∧ cell.dataBytes = b.dataBytes := by
  have htidy : Tidy s :=
    tidy_of_reachable ⟨Nat.zero_le _, fun _ hv => (List.not_mem_nil hv).elim⟩ h
  exact ⟨htidy.stack_le, htidy.values, fun b rest hop hstack hgas =>
    endC_succeeds c htidy hop hstack hgas⟩

/-- a builder, and its cell -/
def builderCode : Cell := ⟨[0x40, 0x41], [], false, Nat.le_of_ble_eq_true rfl, Nat.zero_le _⟩

/-- between the two instructions -/
def builderState : Interpreter :=
  { Interpreter.new builderCode emptyCell sampleMessage sampleContext with
    stack := [.builder Builder.default]
    pcBits := 8
    gasUsed := 10 }

theorem values_wellFormed_sample :
    (∀ v ∈ builderState.stack, v.WellFormed)
    ∧ ∃ cell t, step sampleCrypto builderState = .ok true t ∧ t.stack = [.cell cell] := by
  have hreach : Reachable sampleCrypto
      (Interpreter.new builderCode emptyCell sampleMessage sampleContext) builderState :=
    .step .start rfl
  obtain ⟨_, hvalues, hcell⟩ := values_wellFormed sampleCrypto
    (Interpreter.new builderCode emptyCell sampleMessage sampleContext) hreach
  obtain ⟨cell, t, ht, hstack, _⟩ := hcell Builder.default [] rfl rfl (Nat.le_of_ble_eq_true rfl)
  exact ⟨hvalues, cell, t, ht, hstack⟩

end Onx.Vm
