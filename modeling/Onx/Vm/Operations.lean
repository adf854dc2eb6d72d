import Onx.Vm.Values

/-!
# Operands and results

Most instructions take operands off the stack and then push results, or refuse the operands.  An
`Operation` is the kinds of the operands with a function from operands to the verdict.

* `Kind`, `popAll`         operands of given kinds; `takes` finds them on a stack;
* `Verdict`, `Meets`       what a program does with its operands;
* `Operation`              kinds and verdict;
* `Spoils`                 a program fails and leaves another stack than there was;
* `spoils_operation`       **when an operation spoils the stack**: operands are missing or of another
                           kind, or are refused, or the results do not fit;
* `SpoilsAs`               a program is an operation, or none, as far as the stack is concerned;
                           `spoilsAs_gas` and so on for what comes before the operands.
-/

namespace Onx.Vm
open Machine

/-! ## operands -/

inductive Kind where
  | any | integer | bytes | cell | slice | builder

abbrev Kind.Val : Kind → Type
  | .any => StackValue
  | .integer => Uint256
  | .bytes => Bytes
  | .cell => Cell
  | .slice => Slice
  | .builder => Builder

def Kind.cast : (kind : Kind) → StackValue → Option kind.Val
  | .any, v => some v
  | .integer, .integer x => some x
  | .bytes, .bytes v => some v
  | .cell, .cell x => some x
  | .slice, .slice s => some s
  | .builder, .builder b => some b
  | _, _ => none

def Kind.pop : (kind : Kind) → Instr kind.Val
  | .any => Vm.pop
  | .integer => popInteger
  | .bytes => popBytes
  | .cell => popCell
  | .slice => popSlice
  | .builder => popBuilder

theorem Kind.pop_apply (kind : Kind) (s : Interpreter) :
    kind.pop s = match s.stack with
      | [] => .err .malformedCell s
      | v :: rest =>
        match kind.cast v with
        | some x => .ok x { s with stack := rest }
        | none => .err .typeMismatch { s with stack := rest } := by
  cases hstack : s.stack with
  | nil =>
    have hpop : Vm.pop s = .err .malformedCell s := by rw [Vm.pop_apply, hstack]
    cases kind with
    | any => exact hpop
    | _ => exact bind_err hpop
  | cons v rest =>
    have hpop : Vm.pop s = .ok v { s with stack := rest } := by rw [Vm.pop_apply, hstack]
    cases kind with
    | any => exact hpop
    | _ =>
      refine (bind_ok hpop).trans ?_
      cases v <;> rfl

theorem Kind.pop_nil {kind : Kind} {s : Interpreter} (hs : s.stack = []) :
    kind.pop s = .err .malformedCell s := by
  rw [Kind.pop_apply, hs]

theorem Kind.pop_none {kind : Kind} {s : Interpreter} {v : StackValue} {below : List StackValue}
    (hs : s.stack = v :: below) (hx : kind.cast v = none) :
    kind.pop s = .err .typeMismatch { s with stack := below } := by
  rw [Kind.pop_apply, hs]
  dsimp only
  rw [hx]

theorem Kind.pop_some {kind : Kind} {s : Interpreter} {v : StackValue} {below : List StackValue}
    {x : kind.Val} (hs : s.stack = v :: below) (hx : kind.cast v = some x) :
    kind.pop s = .ok x { s with stack := below } := by
  rw [Kind.pop_apply, hs]
  dsimp only
  rw [hx]

/-- operands, the first from the top of the stack -/
def Vals : List Kind → Type
  | [] => Unit
  | kind :: kinds => kind.Val × Vals kinds

/-- the operands on a stack, and what is below them -/
def takes : (kinds : List Kind) → List StackValue → Option (Vals kinds × List StackValue)
  | [], stack => some ((), stack)
  | _ :: _, [] => none
  | kind :: kinds, v :: rest =>
    match kind.cast v, takes kinds rest with
    | some x, some (xs, rest) => some ((x, xs), rest)
    | _, _ => none

def popAll : (kinds : List Kind) → Instr (Vals kinds)
  | [] => pure ()
  | kind :: kinds => do
    let x ← kind.pop
    let xs ← popAll kinds
    pure (x, xs)

theorem popAll_takes {kinds : List Kind} {vs : Vals kinds} {rest : List StackValue} {s : Interpreter}
    (h : takes kinds s.stack = some (vs, rest)) :
    popAll kinds s = .ok vs { s with stack := rest } := by
  induction kinds generalizing s with
  | nil =>
    cases h
    rfl
  | cons kind kinds ih =>
    cases hstack : s.stack with
    | nil =>
      rw [hstack] at h
      cases h
    | cons v below =>
      rw [hstack] at h
      unfold takes at h
      cases hx : kind.cast v with
      | none =>
        rw [hx] at h
        cases h
      | some x =>
        cases hxs : takes kinds below with
        | none =>
          rw [hx, hxs] at h
          cases h
        | some r =>
          rw [hx, hxs] at h
          cases h
          have hrest : popAll kinds { s with stack := below } = .ok r.1 { s with stack := r.2 } :=
            ih hxs
          unfold popAll
          rw [bind_ok (Kind.pop_some hstack hx), bind_ok hrest]
          rfl

/-- where operands are missing or of another kind, something is taken off all the same -/
theorem popAll_not_takes {kinds : List Kind} {s : Interpreter} (h : takes kinds s.stack = none) :
    ∃ e rest, popAll kinds s = .err e { s with stack := rest }
      ∧ (rest.length < s.stack.length ∨ rest = [] ∧ s.stack = []) := by
  induction kinds generalizing s with
  | nil => cases h
  | cons kind kinds ih =>
    unfold popAll
    cases hstack : s.stack with
    | nil =>
      refine ⟨.malformedCell, [], ?_, Or.inr ⟨rfl, rfl⟩⟩
      rw [bind_err (Kind.pop_nil hstack), ← hstack]
    | cons v below =>
      cases hx : kind.cast v with
      | none =>
        exact ⟨.typeMismatch, below, bind_err (Kind.pop_none hstack hx), Or.inl (Nat.lt_succ_self _)⟩
      | some x =>
        have hbelow : takes kinds below = none := by
          rw [hstack] at h
          unfold takes at h
          rw [hx] at h
          cases hxs : takes kinds below with
          | none => rfl
          | some r =>
            rw [hxs] at h
            cases h
        obtain ⟨e, rest, hrest, hless⟩ := ih (s := { s with stack := below }) hbelow
        refine ⟨e, rest, ?_, Or.inl ?_⟩
        · rw [bind_ok (Kind.pop_some hstack hx), bind_err hrest]
        · rcases hless with hlt | ⟨hnil, _⟩
          · exact hlt.trans (Nat.lt_succ_self _)
          · rw [hnil]
            exact Nat.succ_pos _

theorem length_of_takes {kinds : List Kind} {vs : Vals kinds} {stack rest : List StackValue}
    (h : takes kinds stack = some (vs, rest)) : stack.length = rest.length + kinds.length := by
  induction kinds generalizing stack with
  | nil =>
    cases h
    rfl
  | cons kind kinds ih =>
    cases stack with
    | nil => cases h
    | cons v below =>
      unfold takes at h
      cases hx : kind.cast v with
      | none =>
        rw [hx] at h
        cases h
      | some x =>
        cases hxs : takes kinds below with
        | none =>
          rw [hx, hxs] at h
          cases h
        | some r =>
          rw [hx, hxs] at h
          cases h
          have hlen := ih hxs
          rw [List.length_cons, List.length_cons, hlen]
          rfl

/-! ## verdicts -/

inductive Verdict where
  | refuse
  | panic
  /-- results, the last of which comes to the top of the stack -/
  | push (values : List StackValue)

def Verdict.refuseIf (b : Prop) [Decidable b] (verdict : Verdict) : Verdict :=
  if b then .refuse else verdict

def Verdict.ofOption {α : Type} (o : Option α) (verdict : α → Verdict) : Verdict :=
  match o with
  | none => .refuse
  | some a => verdict a

def Verdict.expect {α : Type} (o : Option α) (verdict : α → Verdict) : Verdict :=
  match o with
  | none => .panic
  | some a => verdict a

/-- there is room for the results -/
def HasRoom (values stack : List StackValue) : Prop :=
  values = [] ∨ stack.length + values.length ≤ MAX_STACK_DEPTH

/-- as many of the results as there is room for -/
def filled (values stack : List StackValue) : List StackValue :=
  (values.take (MAX_STACK_DEPTH - stack.length)).reverse ++ stack

/-- a program does with a stack what a verdict says; where it goes on does not matter -/
def Meets {α : Type} (m : Instr α) (verdict : Verdict) (s : Interpreter) : Prop :=
  match verdict with
  | .refuse => ∃ e t, m s = .err e t ∧ t.stack = s.stack
  | .panic => m s = .panic
  | .push values => (HasRoom values s.stack → ∃ a t, m s = .ok a t)
      ∧ (¬ HasRoom values s.stack → ∃ e t, m s = .err e t ∧ t.stack = filled values s.stack)

section
variable {α β : Type} {m : Instr α} {f : α → Instr β} {e : ExceptionKind} {s : Interpreter}

theorem meets_of_ok (h : ∃ a t, m s = .ok a t) : Meets m (.push []) s :=
  ⟨fun _ => h, fun hroom => absurd (Or.inl rfl) hroom⟩

theorem meets_ok {t : Interpreter} {a : α} (h : m s = .ok a t) : Meets m (.push []) s :=
  meets_of_ok ⟨a, t, h⟩

theorem meets_raise : Meets (Prog.raise e : Instr α) .refuse s := ⟨e, s, rfl, rfl⟩

/-- one result after the other -/
theorem meets_push_then {v : StackValue} {values : List StackValue}
    (h : ∀ t, Meets m (.push values) t) : Meets (push v >>= fun _ => m) (.push (v :: values)) s := by
  by_cases hfull : s.stack.length ≥ MAX_STACK_DEPTH
  · have hpush : push v s = .err .malformedCell s := by rw [push_apply, if_pos hfull]
    have hnone : ¬ HasRoom (v :: values) s.stack := by
      rintro (hnil | hle)
      · cases hnil
      · rw [List.length_cons] at hle
        omega
    refine ⟨fun hroom => absurd hroom hnone, fun _ => ⟨.malformedCell, s, bind_err hpush, ?_⟩⟩
    unfold filled
    rw [Nat.sub_eq_zero_of_le hfull]
    rfl
  · have hpush : push v s = .ok () { s with stack := v :: s.stack } := by
      rw [push_apply, if_neg hfull]
    have hroom : HasRoom (v :: values) s.stack ↔ HasRoom values (v :: s.stack) := by
      unfold HasRoom
      rw [List.length_cons, List.length_cons]
      constructor
      · rintro (hnil | hle)
        · cases hnil
        · exact Or.inr (by omega)
      · rintro (rfl | hle)
        · exact Or.inr (Nat.not_le.mp hfull)
        · exact Or.inr (by omega)
    have hfilled : filled (v :: values) s.stack = filled values (v :: s.stack) := by
      unfold filled
      have hsub : MAX_STACK_DEPTH - s.stack.length
          = MAX_STACK_DEPTH - (v :: s.stack).length + 1 := by
        rw [List.length_cons]
        omega
      rw [hsub, List.take_succ_cons, List.reverse_cons, List.append_assoc]
      rfl
    obtain ⟨hok, herr⟩ := h { s with stack := v :: s.stack }
    refine ⟨fun hfits => ?_, fun hnone => ?_⟩
    · rw [bind_ok hpush]
      exact hok (hroom.mp hfits)
    · obtain ⟨e, t, hrun, hstack⟩ := herr fun hfits => hnone (hroom.mpr hfits)
      exact ⟨e, t, (bind_ok hpush).trans hrun, hstack.trans hfilled.symm⟩

theorem meets_push {v : StackValue} : Meets (push v) (.push [v]) s := by
  have heq : push v = push v >>= fun _ => (pure () : Instr Unit) := by
    funext s
    rw [bind_apply]
    cases push v s <;> rfl
  rw [heq]
  exact meets_push_then fun t => meets_ok rfl

theorem meets_ofOption {o : Option α} {verdict : α → Verdict}
    (h : ∀ a, o = some a → Meets (f a) (verdict a) s) :
    Meets (Prog.ofOption e o >>= f) (.ofOption o verdict) s := by
  cases o with
  | none => exact ⟨e, s, rfl, rfl⟩
  | some a => exact h a rfl

theorem meets_expect {o : Option α} {verdict : α → Verdict}
    (h : ∀ a, o = some a → Meets (f a) (verdict a) s) :
    Meets (Prog.expect o >>= f) (.expect o verdict) s := by
  cases o with
  | none => rfl
  | some a => exact h a rfl

theorem meets_failIf {b : Prop} [Decidable b] {f : Unit → Instr α} {verdict : Verdict}
    (h : Meets (f ()) verdict s) : Meets (Prog.failIf b e >>= f) (.refuseIf b verdict) s := by
  unfold Verdict.refuseIf
  split_ifs with hb
  · exact ⟨e, s, bind_err (failIf_pos hb _ _), rfl⟩
  · unfold Meets at h ⊢
    rw [bind_ok (failIf_neg hb _ _)]
    exact h

theorem meets_gas {amount : Nat} {f : Unit → Instr α} {verdict : Verdict}
    (h : Meets (f ()) verdict (pay s amount)) :
    Meets (consumeGas amount >>= f) (.refuseIf (gasAfter s amount > s.gasLimit.toNat) verdict) s := by
  unfold Verdict.refuseIf
  split_ifs with hout
  · exact ⟨.outOfGas, _, bind_err (consumeGas_out hout), rfl⟩
  · unfold Meets at h ⊢
    rw [bind_ok (consumeGas_paid hout)]
    exact h

end

/-! ## operations -/

structure Operation where
  kinds : List Kind
  kinds_ne : kinds ≠ []
  verdict : Vals kinds → Verdict

/-- a program fails, with another stack than `stack` -/
def SpoilsFrom {α : Type} (stack : List StackValue) (m : Instr α) (s : Interpreter) : Prop :=
  ∃ e t, m s = .err e t ∧ t.stack ≠ stack

/-- operands are off the stack, and not all results are on it instead -/
def Verdict.Spoils (stack rest : List StackValue) : Verdict → Prop
  | .refuse => True
  | .panic => False
  | .push values => ¬ HasRoom values rest ∧ filled values rest ≠ stack

/-- operands are missing or of another kind, or are refused, or the results do not fit -/
def Operation.Spoils (o : Operation) (stack : List StackValue) : Prop :=
  match takes o.kinds stack with
  | none => True
  | some (vs, rest) => (o.verdict vs).Spoils stack rest

/-- **When an operation spoils the stack.** -/
theorem spoils_operation (o : Operation) {α : Type} {tail : Vals o.kinds → Instr α}
    {s : Interpreter} (h : ∀ vs rest, Meets (tail vs) (o.verdict vs) { s with stack := rest }) :
    SpoilsFrom s.stack (popAll o.kinds >>= tail) s ↔ s.stack ≠ [] ∧ o.Spoils s.stack := by
  unfold SpoilsFrom Operation.Spoils
  cases htakes : takes o.kinds s.stack with
  | none =>
    obtain ⟨e, rest, hpop, hless⟩ := popAll_not_takes htakes
    rw [bind_err hpop]
    rcases hless with hlt | ⟨hrest, hnil⟩
    · refine iff_of_true ⟨e, _, rfl, ?_⟩ ⟨?_, trivial⟩
      · exact fun heq => absurd hlt (Nat.not_lt.mpr (congrArg List.length heq).ge)
      · exact fun hnil => Nat.not_lt_zero _ (hnil ▸ hlt)
    · refine iff_of_false ?_ fun h => h.1 hnil
      rintro ⟨e', t, heq, hne⟩
      cases heq
      exact hne (hrest.trans hnil.symm)
  | some r =>
    obtain ⟨vs, rest⟩ := r
    have hlen := length_of_takes htakes
    have hpos : 0 < o.kinds.length := List.length_pos_iff.mpr o.kinds_ne
    have hne : s.stack ≠ [] := fun hnil => by
      rw [hnil, List.length_nil] at hlen
      omega
    have hrest : rest ≠ s.stack := fun heq => by
      rw [heq] at hlen
      omega
    rw [bind_ok (popAll_takes htakes), and_iff_right hne]
    have hmeets := h vs rest
    unfold Meets at hmeets
    dsimp only
    cases hverdict : o.verdict vs with
    | refuse =>
      rw [hverdict] at hmeets
      obtain ⟨e, t, hrun, hstack⟩ := hmeets
      exact iff_of_true ⟨e, t, hrun, fun heq => hrest (hstack.symm.trans heq)⟩ trivial
    | panic =>
      rw [hverdict] at hmeets
      refine iff_of_false ?_ id
      rintro ⟨e, t, hrun, _⟩
      rw [hmeets] at hrun
      cases hrun
    | push values =>
      rw [hverdict] at hmeets
      by_cases hroom : HasRoom values rest
      · obtain ⟨a, t, hrun⟩ := hmeets.1 hroom
        refine iff_of_false ?_ fun h => h.1 hroom
        rintro ⟨e, u, herr, _⟩
        rw [hrun] at herr
        cases herr
      · obtain ⟨e, t, hrun, hstack⟩ := hmeets.2 hroom
        constructor
        · rintro ⟨e', u, herr, hspoilt⟩
          rw [hrun] at herr
          cases herr
          exact ⟨hroom, fun heq => hspoilt (hstack.trans heq)⟩
        · rintro ⟨_, hspoilt⟩
          exact ⟨e, t, hrun, fun heq => hspoilt (hstack.symm.trans heq)⟩

/-! ## what comes before the operands -/

/-- a program spoils the stack where the operation does that comes of its gas and immediates -/
def SpoilsAs {α : Type} (m : Instr α) (o : Option Operation) (s : Interpreter) : Prop :=
  SpoilsFrom s.stack m s ↔ ∃ op, o = some op ∧ s.stack ≠ [] ∧ op.Spoils s.stack

section
variable {α β : Type} {m : Instr α} {f : α → Instr β} {o : Option Operation} {s u : Interpreter}

theorem spoilsAs_operation (op : Operation) (tail : Vals op.kinds → Instr α)
    (hm : m = popAll op.kinds >>= tail)
    (h : ∀ vs rest, Meets (tail vs) (op.verdict vs) { s with stack := rest }) :
    SpoilsAs m (some op) s := by
  unfold SpoilsAs
  rw [hm, spoils_operation op h]
  simp

theorem spoilsAs_none (h : ∀ e t, m s = .err e t → t.stack = s.stack) : SpoilsAs m none s := by
  refine iff_of_false ?_ ?_
  · rintro ⟨e, t, herr, hne⟩
    exact hne (h e t herr)
  · rintro ⟨op, hop, _⟩
    cases hop

theorem spoilsAs_ok {a : α} (hm : m s = .ok a u) (hstack : u.stack = s.stack)
    (h : SpoilsAs (f a) o u) : SpoilsAs (m >>= f) o s := by
  unfold SpoilsAs SpoilsFrom at h ⊢
  rw [bind_ok hm, ← hstack]
  exact h

theorem spoilsAs_err {e : ExceptionKind} (hm : m s = .err e u) (hstack : u.stack = s.stack) :
    SpoilsAs (m >>= f) none s := by
  refine spoilsAs_none fun e' t ht => ?_
  rw [bind_err hm] at ht
  cases ht
  exact hstack

/-- the operation comes of a program that has the gas -/
def afterGas (s : Interpreter) (amount : Nat) (o : Option Operation) : Option Operation :=
  if gasAfter s amount > s.gasLimit.toNat then none else o

theorem spoilsAs_gas {amount : Nat} (h : SpoilsAs m o (pay s amount)) :
    SpoilsAs (consumeGas amount >>= fun _ => m) (afterGas s amount o) s := by
  unfold afterGas
  split_ifs with hout
  · exact spoilsAs_err (consumeGas_out hout) rfl
  · exact spoilsAs_ok (consumeGas_paid hout) rfl h

theorem spoilsAs_readUint8 {f : Byte → Instr α} {o : Byte → Option Operation}
    (h : ∀ b, SpoilsAs (f b) (o b) { s with pcBits := s.pcBits + 8 }) :
    SpoilsAs (readUint8 >>= f) ((byteAt s.currentCode s.pcBits).bind o) s := by
  cases hb : byteAt s.currentCode s.pcBits with
  | none =>
    have herr : readUint8 s = .err .malformedCell s := by rw [readUint8_apply, hb]
    exact spoilsAs_err herr rfl
  | some b =>
    have hok : readUint8 s = .ok b { s with pcBits := s.pcBits + 8 } := by
      rw [readUint8_apply, hb]
    exact spoilsAs_ok hok rfl (h b)

theorem readUint16_bind {f : Uint16 → Instr α} :
    (readUint16 >>= f) = readUint8 >>= fun high => readUint8 >>= fun low => f (high ++ low) := by
  unfold readUint16
  rw [bind_bind]
  simp only [bind_bind, pure_bind_eq]

/-- a width and a byte behind it, which two thirds of the instructions with immediates have -/
theorem spoilsAs_immediates {f : Uint16 → Byte → Instr α} {o : Uint16 × Byte → Option Operation}
    (h : ∀ width flavor, SpoilsAs (f width flavor) (o (width, flavor))
      { s with pcBits := s.pcBits + 8 + 8 + 8 }) :
    SpoilsAs (readUint16 >>= fun width => readUint8 >>= f width)
      ((immediates s.currentCode s.pcBits).bind o) s := by
  have hbind : (immediates s.currentCode s.pcBits).bind o
      = (byteAt s.currentCode s.pcBits).bind fun high =>
        (byteAt s.currentCode (s.pcBits + 8)).bind fun low =>
        (byteAt s.currentCode (s.pcBits + 8 + 8)).bind fun flavor => o (high ++ low, flavor) := by
    unfold immediates
    cases byteAt s.currentCode s.pcBits with
    | none => rfl
    | some high =>
      cases byteAt s.currentCode (s.pcBits + 8) with
      | none => rfl
      | some low => cases byteAt s.currentCode (s.pcBits + 8 + 8) <;> rfl
  rw [readUint16_bind, hbind]
  exact spoilsAs_readUint8 fun high => spoilsAs_readUint8 fun low => spoilsAs_readUint8 fun flavor =>
    h (high ++ low) flavor

theorem spoilsAs_failIf {b : Prop} [Decidable b] {e : ExceptionKind} {f : Unit → Instr α}
    (h : SpoilsAs (f ()) o s) : SpoilsAs (Prog.failIf b e >>= f) (if b then none else o) s := by
  split_ifs with hb
  · exact spoilsAs_err (failIf_pos hb _ _) rfl
  · exact spoilsAs_ok (failIf_neg hb _ _) rfl h

theorem spoilsAs_get {f : Interpreter → Instr α} (h : SpoilsAs (f s) o s) :
    SpoilsAs (Prog.get >>= f) o s := spoilsAs_ok (show Prog.get s = .ok s s from rfl) rfl h

theorem spoilsFrom_goesOn {m : Instr Unit} {stack : List StackValue} :
    SpoilsFrom stack (goesOn m) s ↔ SpoilsFrom stack m s := by
  unfold SpoilsFrom goesOn
  rw [bind_apply]
  cases m s with
  | ok a t =>
    refine iff_of_false ?_ ?_
    · rintro ⟨e, u, hu, _⟩
      cases hu
    · rintro ⟨e, u, hu, _⟩
      cases hu
  | err e t =>
    constructor
    · rintro ⟨e', u, hu, hne⟩
      cases hu
      exact ⟨e, t, rfl, hne⟩
    · rintro ⟨e', u, hu, hne⟩
      cases hu
      exact ⟨e, t, rfl, hne⟩
  | panic =>
    refine iff_of_false ?_ ?_
    · rintro ⟨e, u, hu, _⟩
      cases hu
    · rintro ⟨e, u, hu, _⟩
      cases hu

theorem spoilsAs_goesOn {m : Instr Unit} (h : SpoilsAs m o s) : SpoilsAs (goesOn m) o s :=
  spoilsFrom_goesOn.trans h

/-! ## one, two and three operands -/

def Operation.one (kind : Kind) (verdict : kind.Val → Verdict) : Operation :=
  ⟨[kind], List.cons_ne_nil _ _, fun vs => verdict vs.1⟩

def Operation.two (kind kind' : Kind) (verdict : kind.Val → kind'.Val → Verdict) : Operation :=
  ⟨[kind, kind'], List.cons_ne_nil _ _, fun vs => verdict vs.1 vs.2.1⟩

def Operation.three (kind kind' kind'' : Kind)
    (verdict : kind.Val → kind'.Val → kind''.Val → Verdict) : Operation :=
  ⟨[kind, kind', kind''], List.cons_ne_nil _ _, fun vs => verdict vs.1 vs.2.1 vs.2.2.1⟩

theorem popAll_cons_bind {kind : Kind} {kinds : List Kind} {f : Vals (kind :: kinds) → Instr α} :
    (popAll (kind :: kinds) >>= f) = kind.pop >>= fun x => popAll kinds >>= fun xs => f (x, xs) := by
  have hpop : popAll (kind :: kinds)
      = kind.pop >>= fun x => popAll kinds >>= fun xs => pure (x, xs) := rfl
  rw [hpop]
  exact bind_bind.trans (congrArg (kind.pop >>= ·) (funext fun x => bind_bind))

theorem spoilsAs_one {k : Kind} {f : k.Val → Instr α} {verdict : k.Val → Verdict}
    (h : ∀ x rest, Meets (f x) (verdict x) { s with stack := rest }) :
    SpoilsAs (k.pop >>= f) (some (.one k verdict)) s := by
  refine spoilsAs_operation (.one k verdict) (fun vs => f vs.1) ?_ fun vs => h vs.1
  exact (popAll_cons_bind (f := fun vs : Vals [k] => f vs.1)).symm

theorem spoilsAs_two {k l : Kind} {f : k.Val → l.Val → Instr α} {verdict : k.Val → l.Val → Verdict}
    (h : ∀ x y rest, Meets (f x y) (verdict x y) { s with stack := rest }) :
    SpoilsAs (k.pop >>= fun x => l.pop >>= f x) (some (.two k l verdict)) s := by
  refine spoilsAs_operation (.two k l verdict) (fun vs => f vs.1 vs.2.1) ?_
    fun vs => h vs.1 vs.2.1
  refine Eq.symm ((popAll_cons_bind (f := fun vs : Vals [k, l] => f vs.1 vs.2.1)).trans ?_)
  exact congrArg (k.pop >>= ·) (funext fun x =>
    popAll_cons_bind (f := fun vs : Vals [l] => f x vs.1))

theorem spoilsAs_three {k l p : Kind} {f : k.Val → l.Val → p.Val → Instr α}
    {verdict : k.Val → l.Val → p.Val → Verdict}
    (h : ∀ x y z rest, Meets (f x y z) (verdict x y z) { s with stack := rest }) :
    SpoilsAs (k.pop >>= fun x => l.pop >>= fun y => p.pop >>= f x y)
      (some (.three k l p verdict)) s := by
  refine spoilsAs_operation (.three k l p verdict) (fun vs => f vs.1 vs.2.1 vs.2.2.1) ?_
    fun vs => h vs.1 vs.2.1 vs.2.2.1
  refine Eq.symm ((popAll_cons_bind (f := fun vs : Vals [k, l, p] => f vs.1 vs.2.1 vs.2.2.1)).trans
    ?_)
  refine congrArg (k.pop >>= ·) (funext fun x => ?_)
  refine (popAll_cons_bind (f := fun vs : Vals [l, p] => f x vs.1 vs.2.1)).trans ?_
  exact congrArg (l.pop >>= ·) (funext fun y =>
    popAll_cons_bind (f := fun vs : Vals [p] => f x y vs.1))

theorem popI128_bind {f : Int → Instr α} :
    (popI128 >>= f) = Kind.integer.pop >>= fun x => f (toI128 x) := by
  show ((popInteger >>= fun bytes => pure (toI128 bytes)) >>= f) = popInteger >>= _
  rw [bind_bind]
  rfl

/-- two integers, the second on top -/
def Operation.integers (verdict : Int → Int → Verdict) : Operation :=
  .two .integer .integer fun y x => verdict (toI128 x) (toI128 y)

theorem spoilsAs_integers {f : Int → Int → Instr α} {verdict : Int → Int → Verdict}
    (h : ∀ a b rest, Meets (f a b) (verdict a b) { s with stack := rest }) :
    SpoilsAs (popI128 >>= fun b => popI128 >>= fun a => f a b) (some (.integers verdict)) s := by
  simp only [popI128_bind]
  exact spoilsAs_two fun y x rest => h (toI128 x) (toI128 y) rest

end

end Onx.Vm
