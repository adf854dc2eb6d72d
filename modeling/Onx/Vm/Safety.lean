import Onx.Vm.Steps

/-!
# What an instruction keeps and costs

* `Sound`          builders on the stack have their bits within their bytes, gas is within the
                   limit;
* `Along`          limit and exception handler stay, gas is not given back;
* `Spends`         as well, gas is spent, unless the limit is so high that the counter saturates;
* `costs_exec`     every instruction keeps `Sound`, moves along `Spends` where it succeeds, and does
                   not panic unless it is one of `Opcode.unchecked`;
* `turn_descends`  so a run ends: a turn spends gas or leaves a code cell.
-/

namespace Onx.Vm
open Machine

def StackValue.Sound : StackValue → Prop
  | .builder b => b.Fits
  | _ => True

structure Sound (s : Interpreter) : Prop where
  values : ∀ v ∈ s.stack, v.Sound
  gasUsed_le : s.gasUsed.toNat ≤ s.gasLimit.toNat

structure Along (s t : Interpreter) : Prop where
  gasLimit_eq : t.gasLimit = s.gasLimit
  c2_eq : t.controlRegisters.c2 = s.controlRegisters.c2
  gasUsed_le : s.gasUsed.toNat ≤ t.gasUsed.toNat

structure Spends (s t : Interpreter) : Prop where
  along : Along s t
  gasUsed_lt : s.gasLimit ≠ BitVec.allOnes 64 → s.gasUsed.toNat < t.gasUsed.toNat

theorem Along.trans {s t u : Interpreter} (h : Along s t) (h' : Along t u) : Along s u where
  gasLimit_eq := h'.gasLimit_eq.trans h.gasLimit_eq
  c2_eq := h'.c2_eq.trans h.c2_eq
  gasUsed_le := h.gasUsed_le.trans h'.gasUsed_le

instance : Std.Refl Along := ⟨fun _ => ⟨rfl, rfl, le_refl _⟩⟩

instance : IsTrans Interpreter Along := ⟨fun _ _ _ => Along.trans⟩

instance : Trans Spends Along Spends where
  trans h h' := ⟨h.along.trans h', fun hlim => (h.gasUsed_lt hlim).trans_le h'.gasUsed_le⟩

instance : Trans Along Spends Spends where
  trans h h' := ⟨h.trans h'.along,
    fun hlim => h.gasUsed_le.trans_lt (h'.gasUsed_lt (h.gasLimit_eq ▸ hlim))⟩

/-- a program that panics only if `p`, with results in `P` -/
abbrev Safe {α : Type} (p : Prop) (m : Instr α) (P : α → Prop) : Prop := Keeps p Sound Along m P

/-- a program that spends gas where it succeeds -/
abbrev Costs {α : Type} (p : Prop) (m : Instr α) : Prop := Climbs p Sound Along Spends m

section
variable {α : Type} {p : Prop}

/-! ## gas, stack and code -/

/-- stack, gas and handler are as they were -/
theorem safe_modify_code {g : Interpreter → Interpreter}
    (hstack : ∀ s, (g s).stack = s.stack) (hlimit : ∀ s, (g s).gasLimit = s.gasLimit)
    (hused : ∀ s, (g s).gasUsed = s.gasUsed)
    (hc2 : ∀ s, (g s).controlRegisters.c2 = s.controlRegisters.c2) :
    Safe p (Prog.modify g) (fun _ => True) := by
  refine keeps_modify fun s hs => ⟨⟨?_, ?_⟩, ⟨hlimit s, hc2 s, ?_⟩⟩
  · rw [hstack]
    exact hs.values
  · rw [hused, hlimit]
    exact hs.gasUsed_le
  · rw [hused]

theorem safe_modify_stack {g : Interpreter → List StackValue}
    (h : ∀ s, Sound s → ∀ v ∈ g s, v.Sound) :
    Safe p (Prog.modify fun s => { s with stack := g s }) (fun _ => True) :=
  keeps_modify fun s hs => ⟨⟨h s hs, hs.gasUsed_le⟩, ⟨rfl, rfl, le_refl _⟩⟩

theorem toNat_gasAfter {s : Interpreter} {amount : Nat}
    (h : gasAfter s amount ≤ s.gasLimit.toNat) :
    (BitVec.ofNat 64 (gasAfter s amount)).toNat = gasAfter s amount := by
  have hlimit : s.gasLimit.toNat < 2^64 := s.gasLimit.isLt
  rw [BitVec.toNat_ofNat, Nat.mod_eq_of_lt (h.trans_lt hlimit)]

theorem toNat_lt_of_ne_allOnes {x : Uint64} (h : x ≠ BitVec.allOnes 64) : x.toNat < 2^64 - 1 := by
  have hlt : x.toNat < 2^64 := x.isLt
  have hne : x.toNat ≠ 2^64 - 1 := by
    intro heq
    exact h (BitVec.eq_of_toNat_eq (heq.trans (BitVec.toNat_allOnes).symm))
  omega

theorem along_consumeGas {s : Interpreter} {amount : Nat}
    (h : gasAfter s amount ≤ s.gasLimit.toNat) :
    Along s { s with gasUsed := BitVec.ofNat 64 (gasAfter s amount) } where
  gasLimit_eq := rfl
  c2_eq := rfl
  gasUsed_le := by
    have hused : s.gasUsed.toNat < 2^64 := s.gasUsed.isLt
    show _ ≤ (BitVec.ofNat 64 (gasAfter s amount)).toNat
    rw [toNat_gasAfter h]
    unfold gasAfter
    omega

theorem safe_consumeGas (amount : Nat) : Safe p (consumeGas amount) (fun _ => True) := by
  intro s hs
  rw [consumeGas_apply]
  split_ifs with hout
  · exact ⟨⟨hs.values, le_refl _⟩, ⟨rfl, rfl, hs.gasUsed_le⟩⟩
  · have hin := Nat.not_lt.mp hout
    refine ⟨⟨hs.values, ?_⟩, along_consumeGas hin, trivial⟩
    show (BitVec.ofNat 64 (gasAfter s amount)).toNat ≤ _
    rw [toNat_gasAfter hin]
    exact hin

theorem costs_consumeGas {amount : Nat} (h : 0 < amount) : Costs p (consumeGas amount) where
  keeps := safe_consumeGas amount
  climbs := by
    intro s a t hs hok
    rw [consumeGas_apply] at hok
    split_ifs at hok with hout
    cases hok
    have hin := Nat.not_lt.mp hout
    refine ⟨along_consumeGas hin, fun hlimit => ?_⟩
    have hmax := toNat_lt_of_ne_allOnes hlimit
    show _ < (BitVec.ofNat 64 (gasAfter s amount)).toNat
    rw [toNat_gasAfter hin]
    unfold gasAfter at hin ⊢
    omega

/-- gas first -/
theorem costs_gas {amount : Nat} {m : Instr α} (h : 0 < amount)
    (hm : Safe p m (fun _ => True)) : Costs p (consumeGas amount >>= fun _ => m) :=
  climbs_bind_left (costs_consumeGas h) (fun _ => hm)

theorem safe_pop : Safe p pop StackValue.Sound := by
  intro s hs
  rw [pop_apply]
  cases h : s.stack with
  | nil => exact ⟨hs, Std.Refl.refl s⟩
  | cons v rest =>
    have hvalues : ∀ w ∈ v :: rest, w.Sound := h ▸ hs.values
    exact ⟨⟨fun w hw => hvalues w (List.mem_cons_of_mem _ hw), hs.gasUsed_le⟩,
      ⟨rfl, rfl, le_refl _⟩, hvalues v List.mem_cons_self⟩

theorem safe_push {v : StackValue} (hv : v.Sound) : Safe p (push v) (fun _ => True) := by
  intro s hs
  rw [push_apply]
  split_ifs
  · exact ⟨hs, Std.Refl.refl s⟩
  · refine ⟨⟨?_, hs.gasUsed_le⟩, ⟨rfl, rfl, le_refl _⟩, trivial⟩
    intro w hw
    rcases List.mem_cons.mp hw with rfl | hw
    · exact hv
    · exact hs.values w hw

theorem safe_readUint8 : Safe p readUint8 (fun _ => True) := by
  intro s hs
  rw [readUint8_apply]
  cases byteAt s.currentCode s.pcBits with
  | none => exact ⟨hs, Std.Refl.refl s⟩
  | some b => exact ⟨⟨hs.values, hs.gasUsed_le⟩, ⟨rfl, rfl, le_refl _⟩, trivial⟩

theorem safe_jumpBy (offset : Byte) : Safe p (jumpBy offset) (fun _ => True) := by
  refine keeps_bind keeps_get fun _ _ => ?_
  refine keeps_bind (P := fun _ => True) (keeps_ofOption fun _ _ => trivial) fun _ _ => ?_
  exact safe_modify_code (fun _ => rfl) (fun _ => rfl) (fun _ => rfl) (fun _ => rfl)

theorem safe_takeReturn (alternative : Bool) :
    Safe p (takeReturn alternative) (fun _ => True) := by
  refine keeps_bind keeps_get fun self _ => ?_
  refine keeps_bind (safe_modify_code (fun _ => rfl) (fun _ => rfl) (fun _ => rfl) fun s => ?_)
    fun _ _ => keeps_pure trivial
  cases alternative <;> rfl

theorem safe_returnToControlRegister (alternative : Bool) :
    Safe p (returnToControlRegister alternative) (fun _ => True) := by
  refine keeps_bind (safe_takeReturn alternative) fun taken _ => ?_
  cases taken with
  | none => exact keeps_pure trivial
  | some k =>
    exact keeps_bind (safe_modify_code (fun _ => rfl) (fun _ => rfl) (fun _ => rfl) (fun _ => rfl))
      fun _ _ => keeps_pure trivial

/-! ## control flow -/

theorem safe_transferTo (refIdx : Nat) (call : Bool) :
    Safe p (transferTo refIdx call) (fun _ => True) := by
  refine keeps_bind keeps_get fun self _ => keeps_bind keeps_failIf fun _ h => ?_
  rw [List.getElem?_eq_getElem (Nat.not_le.mp h), expect_some_bind]
  refine keeps_bind (keeps_onlyIf ?_) fun _ _ => ?_
  · exact safe_modify_code (fun _ => rfl) (fun _ => rfl) (fun _ => rfl) (fun _ => rfl)
  · exact safe_modify_code (fun _ => rfl) (fun _ => rfl) (fun _ => rfl) (fun _ => rfl)

theorem safe_returnToCaller : Safe p returnToCaller (fun _ => True) := by
  refine keeps_bind (safe_returnToControlRegister false) fun returned _ => ?_
  refine keeps_bind (keeps_onlyIf ?_) fun _ _ => keeps_pure trivial
  exact safe_modify_code (fun _ => rfl) (fun _ => rfl) (fun _ => rfl) (fun _ => rfl)

end

/-! ## one instruction -/

/-- the logic of `Safe` and `Costs` -/
def soundLogic (p : Prop) : Logic where
  lax := p
  Good := StackValue.Sound
  Seen := Sound
  Part := fun m P => Safe p m P
  Last := fun m => Safe p m fun _ => True
  Whole := fun _ m => Costs p m
  good_integer := fun _ => trivial
  good_bytes := fun _ => trivial
  good_cell := fun _ => trivial
  good_newSlice := fun _ => trivial
  good_readBits := fun _ _ => trivial
  good_nextRef := fun _ _ => trivial
  good_newBuilder := Nat.le_refl 0
  good_appendBits := by
    intro b b' valBytes widthBits hb h
    have hrun := appendBits_fits valBytes widthBits hb
    rw [h] at hrun
    exact hrun
  appendBits_panic := by
    intro b valBytes widthBits hb h
    have hrun := appendBits_fits valBytes widthBits hb
    rw [h] at hrun
    exact hrun.elim
  good_addRef := fun _ hb _ => hb
  good_addBytes := by
    intro b v hb _
    have hbits : b.currentBitLen ≤ 8 * b.dataBytes.length := hb
    show b.currentBitLen ≤ 8 * (b.dataBytes ++ v).length
    rw [List.length_append]
    omega
  good_of_seen := Sound.values
  part_bind := keeps_bind
  part_pure := keeps_pure
  part_raise := fun _ => keeps_raise
  part_panic := fun hp _ _ => hp
  part_get := keeps_get
  part_pop := safe_pop
  part_push := safe_push
  part_restack := by
    intro g h
    refine safe_modify_stack fun s hs v hv => ?_
    obtain ⟨self, hself, hmem, _⟩ := h s hs
    exact hself.values v (hmem v hv)
  part_readUint8 := safe_readUint8
  part_jumpBy := safe_jumpBy
  last_part := fun h => keeps_mono h id fun _ _ => trivial
  last_bind := keeps_bind
  last_transferTo := safe_transferTo
  last_returnToCaller := safe_returnToCaller
  whole_charge := costs_gas
  whole_before := climbs_bind_right
  whole_goesOn := fun h => climbs_bind_left h fun _ => keeps_pure trivial

/-- **What one instruction does**: it keeps the state sound, spends gas where it succeeds, and
panics only if its arithmetic is unchecked. -/
theorem costs_exec (c : Crypto) (op : Opcode) : Costs op.Unchecked (exec c op) :=
  (soundLogic op.Unchecked).whole_exec c op id

theorem safe_inRange {p : Prop} {width : Nat} {flavor : Byte} (result : Int) (hpos : 0 < width)
    (hle : width ≤ 128) (hp : flavor = 1 → width = 128 → p) :
    Safe p (inRange width flavor result) (fun _ => True) :=
  (soundLogic p).part_inRange result hpos hle hp

/-! ## runs -/

theorem costs_fetchAndExec (c : Crypto) : Costs True (fetchAndExec c) :=
  climbs_bind_right safe_readUint8 fun _ _ =>
    climbs_bind_right (P := fun _ => True) (keeps_ofOption fun _ _ => trivial)
      fun op _ => (costs_exec c op).mono fun _ => trivial

/-- the states of a run of contract code: no exception handler is installed -/
structure Running (limit : Uint64) (s : Interpreter) : Prop where
  sound : Sound s
  gasLimit_eq : s.gasLimit = limit
  c2_none : s.controlRegisters.c2 = none

theorem running_new (code data : Cell) (message : Message) (context : ExecutionContext) :
    Running context.gasLimit (Interpreter.new code data message context) where
  sound := ⟨fun _ hv => (List.not_mem_nil hv).elim, Nat.zero_le _⟩
  gasLimit_eq := rfl
  c2_none := rfl

/-- what is left of the gas, and then the callers, go down -/
def Descends (t s : Interpreter) : Prop :=
  Prod.Lex (· < ·) (· < ·) (t.gasLimit.toNat - t.gasUsed.toNat, t.callStack.length)
    (s.gasLimit.toNat - s.gasUsed.toNat, s.callStack.length)

theorem descends_wf : WellFounded Descends :=
  InvImage.wf _ (Prod.lex ⟨_, Nat.lt_wfRel.wf⟩ ⟨_, Nat.lt_wfRel.wf⟩).wf

theorem safe_leave {p : Prop} : Safe p leave (fun _ => True) := by
  refine keeps_bind keeps_get fun self _ => ?_
  cases self.callStack with
  | nil => exact keeps_pure trivial
  | cons caller rest =>
    exact keeps_bind (safe_modify_code (fun _ => rfl) (fun _ => rfl) (fun _ => rfl) (fun _ => rfl))
      fun _ _ => keeps_pure trivial

theorem safe_step (c : Crypto) : Safe True (step c) (fun _ => True) := by
  intro s hs
  by_cases h : s.pcBits ≥ s.totalBits
  · rw [step_of_end h]
    exact safe_leave s hs
  · rw [step_of_code h]
    exact (costs_fetchAndExec c).keeps s hs

theorem Running.along {limit : Uint64} {s t : Interpreter} (hs : Running limit s)
    (ht : Sound t) (h : Along s t) : Running limit t where
  sound := ht
  gasLimit_eq := h.gasLimit_eq.trans hs.gasLimit_eq
  c2_none := h.c2_eq.trans hs.c2_none

/-- a step that succeeds spends gas or goes back to a caller -/
theorem step_descends {c : Crypto} {limit : Uint64} {s t : Interpreter} (hs : Running limit s)
    (h : step c s = .ok true t) (hlimit : limit ≠ BitVec.allOnes 64) : Descends t s := by
  unfold Descends
  by_cases hend : s.pcBits ≥ s.totalBits
  · rw [step_of_end hend] at h
    rcases leave_ok h with ⟨_, code, pc, rest, hstack, rfl⟩ | ⟨hfalse, _⟩
    · rw [hstack]
      exact Prod.Lex.right _ (Nat.lt_succ_self _)
    · cases hfalse
  · rw [step_of_code hend] at h
    have hspends := (costs_fetchAndExec c).climbs s true t hs.sound h
    have hlt := hspends.gasUsed_lt (hs.gasLimit_eq ▸ hlimit)
    have hle := ((costs_fetchAndExec c).keeps.ok hs.sound h).1.gasUsed_le
    rw [hspends.along.gasLimit_eq] at hle ⊢
    exact Prod.Lex.left _ _ (by omega)

/-- **One turn** of a run of contract code. -/
theorem turn_next {c : Crypto} {limit : Uint64} {s t : Interpreter} (hs : Running limit s)
    (h : turn c s = .next t) : Running limit t ∧ (limit ≠ BitVec.allOnes 64 → Descends t s) := by
  unfold turn at h
  cases hstep : step c s with
  | ok b u =>
    rw [hstep] at h
    cases b with
    | true =>
      cases h
      obtain ⟨hsound, halong, _⟩ := (safe_step c).ok hs.sound hstep
      exact ⟨hs.along hsound halong, step_descends hs hstep⟩
    | false => cases h
  | err kind u =>
    -- without a handler the exception ends the run
    rw [hstep] at h
    have hc2 := ((safe_step c).err hs.sound hstep).2.c2_eq.trans hs.c2_none
    dsimp only [raised] at h
    rw [hc2] at h
    cases h
  | panic =>
    rw [hstep] at h
    cases h

/-- in every state of a run of contract code there is no handler, and gas is within the limit -/
theorem running_of_execute {c : Crypto} {n : Nat} {code data : Cell} {message : Message}
    {context : ExecutionContext} {t : Interpreter}
    (h : execute c n code data message context = .next t) : Running context.gasLimit t :=
  loop_inv (I := Running context.gasLimit) (fun _ _ hs ht => (turn_next hs ht).1)
    (running_new code data message context) h

/-- **Runs end** where the gas counter does not saturate below the limit. -/
theorem execute_ends (c : Crypto) (code data : Cell) (message : Message)
    {context : ExecutionContext} (hlimit : context.gasLimit ≠ BitVec.allOnes 64) :
    ∃ n, ∀ t, execute c n code data message context ≠ .next t :=
  loop_ends (I := Running context.gasLimit) descends_wf
    (fun _ _ hs ht => ⟨(turn_next hs ht).1, (turn_next hs ht).2 hlimit⟩)
    (running_new code data message context)

end Onx.Vm
