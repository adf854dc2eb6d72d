import Onx.Vm.CellSteps
import Onx.Vm.Confined

/-!
# Code within more code

Jumps are relative and an instruction reads nothing behind its operands, so code that calls nothing runs in
the middle of more code as it runs alone.  Only `MalformedCell` is not the same there: where the code reads or
jumps beyond its own bytes, there is more.

* `embedded`              the state in the middle of more code;
* `byteAt_embedded`, `jumpTarget_embedded`   the same bytes, and the same jumps;
* `inContext`             such states are alike;
* `turn_embedded`         one turn;
* `code_in_context`       **runs in the middle of more code**.
-/

namespace Onx.Vm
open Machine

/-- the state at the same place of its code, behind `before` -/
def embedded (code : Cell) (before : Bytes) (s : Interpreter) : Interpreter :=
  { s with currentCode := code, pcBits := 8 * before.length + s.pcBits }

/-- alone between two bytes of the code, and there in the middle of more code -/
structure Embeds (code : Cell) (before after : Bytes) (s t : Interpreter) : Prop where
  lone : Lone s
  code_eq : code.dataBytes = before ++ s.currentCode.dataBytes ++ after
  aligned : s.pcBits % 8 = 0
  within : s.pcBits ≤ s.totalBits
  eq : t = embedded code before s

/-! ## reading and jumping -/

section
variable {code : Cell} {before after : Bytes} {s : Interpreter}

/-- between two bytes the next byte is read -/
theorem byteAt_aligned {code : Cell} {i : Nat} : byteAt code (8 * i) = code.dataBytes[i]? := by
  have hmod : 8 * i % 8 = 0 := Nat.mul_mod_right 8 i
  have hdiv : 8 * i / 8 = i := Nat.mul_div_cancel_left i (by decide)
  unfold byteAt
  by_cases hend : 8 * i + 8 > code.dataBytes.length * 8
  · rw [if_pos hend, List.getElem?_eq_none (by omega)]
  · have hin : i < code.dataBytes.length := by omega
    rw [if_neg hend, hmod, hdiv, List.getElem?_eq_getElem hin]
    rfl

theorem length_code (hcode : code.dataBytes = before ++ s.currentCode.dataBytes ++ after) :
    code.dataBytes.length = before.length + s.currentCode.dataBytes.length + after.length := by
  rw [hcode, List.length_append, List.length_append]

theorem byteAt_embedded (hcode : code.dataBytes = before ++ s.currentCode.dataBytes ++ after)
    (haligned : s.pcBits % 8 = 0) {b : Byte} (h : byteAt s.currentCode s.pcBits = some b) :
    byteAt code (8 * before.length + s.pcBits) = some b := by
  obtain ⟨i, hi⟩ : ∃ i, s.pcBits = 8 * i := ⟨s.pcBits / 8, by omega⟩
  rw [hi, byteAt_aligned] at h
  have hin := (List.getElem?_eq_some_iff.mp h).1
  rw [hi, ← Nat.mul_add, byteAt_aligned, hcode, List.append_assoc, List.getElem?_append_right (by omega),
    List.getElem?_append_left (by omega), Nat.add_sub_cancel_left]
  exact h

theorem jumpTarget_embedded (hcode : code.dataBytes = before ++ s.currentCode.dataBytes ++ after)
    {offset : Byte} {target : Nat} (h : jumpTarget s s.pcBits offset = some target) :
    jumpTarget (embedded code before s) (embedded code before s).pcBits offset
      = some (8 * before.length + target) := by
  obtain ⟨htarget, _, hin⟩ := jumpTarget_eq_some_iff.mp h
  have hlen := length_code hcode
  have hbound : code.dataBytes.length ≤ 128 := code.data_le
  change target ≤ s.currentCode.dataBytes.length * 8 at hin
  refine jumpTarget_eq_some_iff.mpr ⟨?_, by omega, ?_⟩
  · show ((8 * before.length + s.pcBits : Nat) : Int) + offset.toInt * 8 = _
    push_cast
    omega
  · show 8 * before.length + target ≤ code.dataBytes.length * 8
    omega

end

/-! ## states that are alike -/

/-- where a read or a jump fails alone, there may be more code -/
def RunsOut (e : ExceptionKind) (s : Interpreter) : Prop := e = .malformedCell ∧ s.controlRegisters.c2 = none

/-- code alone and in the middle of more code -/
def inContext (code : Cell) (before after : Bytes) : Likeness where
  R := Embeds code before after
  Q := Both (Embeds code before after) Eq
  G := RunsOut
  H _ _ := False
  stacked := by
    rintro s _ ⟨hlone, hcode, haligned, hwithin, rfl⟩
    refine ⟨[], (List.append_nil _).symm, fun h => absurd rfl h, fun stack => ?_⟩
    rw [List.append_nil]
    exact ⟨⟨hlone.codeRefs, hlone.callStack, hlone.c0, hlone.c2⟩, hcode, haligned, hwithin, rfl⟩
  reads := by
    rintro s _ ⟨hlone, hcode, haligned, hwithin, rfl⟩
    rw [readUint8_apply, readUint8_apply]
    cases hbyte : byteAt s.currentCode s.pcBits with
    | none => exact .first ⟨rfl, hlone.c2⟩
    | some b =>
      have hsame : byteAt (embedded code before s).currentCode (embedded code before s).pcBits = some b :=
        byteAt_embedded hcode haligned hbyte
      rw [hsame]
      refine .ok ⟨rfl, ⟨hlone.codeRefs, hlone.callStack, hlone.c0, hlone.c2⟩, hcode, ?_,
        (pcBits_le_of_byteAt hbyte).1, rfl⟩
      show (s.pcBits + 8) % 8 = 0
      omega
  jumps := by
    rintro offset s _ ⟨hlone, hcode, haligned, hwithin, rfl⟩
    rw [jumpBy_apply, jumpBy_apply]
    cases hjump : jumpTarget s s.pcBits offset with
    | none => exact .first ⟨rfl, hlone.c2⟩
    | some target =>
      rw [jumpTarget_embedded hcode hjump]
      obtain ⟨htarget, _, hin⟩ := jumpTarget_eq_some_iff.mp hjump
      refine .ok ⟨rfl, ⟨hlone.codeRefs, hlone.callStack, hlone.c0, hlone.c2⟩, hcode, ?_, hin, rfl⟩
      show target % 8 = 0
      omega
  gas := by
    rintro amount s _ ⟨hlone, hcode, haligned, hwithin, rfl⟩
    rw [consumeGas_apply, consumeGas_apply]
    show Alike _ _ _ _ _ (if gasAfter s amount > s.gasLimit.toNat then _ else _)
    split_ifs
    · exact .err ⟨⟨hlone.codeRefs, hlone.callStack, hlone.c0, hlone.c2⟩, hcode, haligned, hwithin, rfl⟩
    · exact .ok ⟨rfl, ⟨hlone.codeRefs, hlone.callStack, hlone.c0, hlone.c2⟩, hcode, haligned, hwithin, rfl⟩
  transfers := by
    rintro refIdx call s _ ⟨hlone, hcode, haligned, hwithin, rfl⟩
    have hrefs : (embedded code before s).codeRefs = [] := hlone.codeRefs
    rw [transferTo_apply, transferTo_apply, hlone.codeRefs, hrefs]
    exact .err ⟨hlone, hcode, haligned, hwithin, rfl⟩
  returns := by
    rintro s _ ⟨hlone, hcode, haligned, hwithin, rfl⟩
    have hc0 : (embedded code before s).controlRegisters.c0 = none := hlone.c0
    rw [returnToCaller_apply, returnToCaller_apply, hlone.c0, hc0]
    exact .ok ⟨rfl, hlone, hcode, haligned, hwithin, rfl⟩
  leaves := by
    rintro s _ ⟨hlone, hcode, haligned, hwithin, rfl⟩
    have hcalls : (embedded code before s).callStack = [] := hlone.callStack
    unfold leave
    rw [get_bind, get_bind, hlone.callStack, hcalls]
    exact .ok ⟨rfl, hlone, hcode, haligned, hwithin, rfl⟩
  goes := fun h => ⟨rfl, h⟩

/-! ## turns and runs -/

section
variable {c : Crypto} {code : Cell} {before after : Bytes} {s t u : Interpreter} {r : ExecutionResult}

/-- the end of the code ends the run -/
theorem turn_of_end (hlone : Lone s) (hend : s.pcBits ≥ s.totalBits) :
    turn c s = .done (.success s.data s.outMessages s.gasUsed) := by
  unfold turn
  rw [step_of_end hend]
  unfold leave
  rw [get_bind, hlone.callStack]
  rfl

/-- what a turn does in the middle of more code -/
inductive TurnIn (code : Cell) (before after : Bytes) :
    Turn Interpreter ExecutionResult → Turn Interpreter ExecutionResult → Prop
  | next {s t : Interpreter} (h : Embeds code before after s t) : TurnIn code before after (.next s) (.next t)
  | done {r : ExecutionResult} : TurnIn code before after (.done r) (.done r)
  | panic : TurnIn code before after .panic .panic
  | runsOut {gasUsed : Uint64} {turn : Turn Interpreter ExecutionResult} :
    TurnIn code before after (.done (.exception .malformedCell gasUsed)) turn

/-- **A turn** before the end of the code. -/
theorem turn_embedded (h : Embeds code before after s t) (hcode : ¬ s.pcBits ≥ s.totalBits) :
    TurnIn code before after (turn c s) (turn c t) := by
  have hgoes : ¬ t.pcBits ≥ t.totalBits := by
    have hlen := length_code h.code_eq
    unfold Interpreter.totalBits at hcode ⊢
    rw [h.eq]
    show ¬ 8 * before.length + s.pcBits ≥ code.dataBytes.length * 8
    omega
  have halike := @Likeness.alike_step (inContext code before after) c s t h (iff_of_false hgoes hcode)
  unfold turn
  generalize step c s = r at halike
  generalize step c t = r' at halike
  cases halike with
  | @ok b s' b' t' hboth =>
    obtain ⟨rfl, hembeds⟩ := hboth
    cases b with
    | true => exact .next hembeds
    | false =>
      obtain rfl := hembeds.eq
      exact .done
  | @err e s' t' hembeds =>
    obtain rfl := hembeds.eq
    dsimp only
    rw [raised_of_none e hembeds.lone.c2, raised_of_none e (s := embedded code before s') hembeds.lone.c2]
    exact .done
  | panic => exact .panic
  | @first e s' r he =>
    obtain ⟨rfl, hc2⟩ := he
    dsimp only
    rw [raised_of_none _ hc2]
    exact .runsOut
  | second hno => exact absurd hno not_false

/-- **A run** that goes on. -/
theorem Embeds.run (h : Embeds code before after s t) {n : Nat} (hn : run c n s = .next u) :
    ∃ v, Vm.run c n t = .next v ∧ Embeds code before after u v := by
  have hturn : ∀ s t s', Embeds code before after s t → turn c s = .next s' →
      (fun _ => False) t ∨ ∃ t', turn c t = .next t' ∧ Embeds code before after s' t' := by
    intro s t s' h hnext
    have hcode : ¬ s.pcBits ≥ s.totalBits := by
      intro hend
      rw [turn_of_end h.lone hend] at hnext
      cases hnext
    have hin := @turn_embedded c _ _ _ _ _ h hcode
    rw [hnext] at hin
    generalize turn c t = r at hin
    cases hin with
    | next h' => exact .inr ⟨_, rfl, h'⟩
  rcases loops_alike hturn h hn with ⟨_, _, _, _, hno⟩ | hrun
  · exact absurd hno not_false
  · exact hrun

end

/-- **Code in the middle of more code** runs as it does alone, turn by turn.  Where it comes to its end, the
code behind it is next; where it ends before, or panics, it does the same there, unless it ends in
`MalformedCell`. -/
theorem code_in_context (c : Crypto) {code : Cell} {before after : Bytes} {s : Interpreter} (hlone : Lone s)
    (hcode : code.dataBytes = before ++ s.currentCode.dataBytes ++ after) (haligned : s.pcBits % 8 = 0)
    (hwithin : s.pcBits ≤ s.totalBits) {n : Nat} {u : Interpreter} (hn : run c n s = .next u) :
    run c n (embedded code before s) = .next (embedded code before u)
    ∧ (u.pcBits ≥ u.totalBits →
      (embedded code before u).pcBits = 8 * (before ++ s.currentCode.dataBytes).length)
    ∧ (¬ u.pcBits ≥ u.totalBits → ∀ r, turn c u = .done r → (∀ gasUsed, r ≠ .exception .malformedCell gasUsed) →
      run c (n + 1) (embedded code before s) = .done r)
    ∧ (turn c u = .panic → run c (n + 1) (embedded code before s) = .panic) := by
  have hembeds : Embeds code before after s (embedded code before s) := ⟨hlone, hcode, haligned, hwithin, rfl⟩
  obtain ⟨v, hv, hu⟩ := hembeds.run hn
  obtain rfl := hu.eq
  have hlast : run c (n + 1) (embedded code before s) = turn c (embedded code before u) := by
    unfold run at hv ⊢
    rw [loop_succ, hv]
  refine ⟨hv, fun hend => ?_, fun hgoes r hr hmalformed => ?_, fun hpanic => ?_⟩
  · have hlen := length_code hcode
    have hlen' := length_code hu.code_eq
    have hat : u.pcBits = u.currentCode.dataBytes.length * 8 := Nat.le_antisymm hu.within hend
    show 8 * before.length + u.pcBits = _
    rw [List.length_append]
    omega
  · have hin := @turn_embedded c _ _ _ _ _ hu hgoes
    rw [hr] at hin
    rw [hlast]
    generalize turn c (embedded code before u) = r' at hin ⊢
    cases hin with
    | done => rfl
    | runsOut => exact absurd rfl (hmalformed _)
  · have hgoes : ¬ u.pcBits ≥ u.totalBits := by
      intro hend
      rw [turn_of_end hu.lone hend] at hpanic
      cases hpanic
    have hin := @turn_embedded c _ _ _ _ _ hu hgoes
    rw [hpanic] at hin
    rw [hlast]
    generalize turn c (embedded code before u) = r' at hin ⊢
    cases hin with
    | panic => rfl

/-- code that makes a builder -/
def newBuilder : Interpreter := Interpreter.new (byteCell 0x40) emptyCell sampleMessage sampleContext

/-- the builder between `NOP` and `DROP` -/
def betweenCode : Cell := codeOf [0x00, 0x40, 0x01] (by decide)

/-- there the builder is made as well, and `DROP` is next -/
theorem code_in_context_sample :
    ∃ u, run sampleCrypto 1 (embedded betweenCode [0x00] newBuilder) = .next u ∧ u.pcBits = 16 := by
  have hrun : run sampleCrypto 1 newBuilder = .next (behind newBuilder 10 1 [.builder Builder.default]) := rfl
  have hcode : betweenCode.dataBytes = [0x00] ++ newBuilder.currentCode.dataBytes ++ [0x01] := rfl
  obtain ⟨hin, hend, _⟩ := code_in_context sampleCrypto (lone_new _ _ _ _) hcode rfl (Nat.zero_le _) hrun
  exact ⟨_, hin, hend (by decide)⟩

end Onx.Vm
