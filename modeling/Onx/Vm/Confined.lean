import Onx.Vm.Likeness

/-!
# What contract code cannot do

Nothing fills the list of code references, no instruction writes the data or a message, and only a call puts a
caller on the call stack.  So contract code never leaves its cell, and an execution that succeeds returns the
data that it was given, and no messages.

* `Lone`               nothing to call, no caller and no handler, as `Interpreter::new` starts;
* `Confined`           the state with the code, the data and the messages that it started with;
* `confines`           such states are alike with themselves, so that each instruction keeps to them;
* `Confined.turn`      one turn;
* `execute_confined`   **executions of contract code**.
-/

namespace Onx.Vm
open Machine

/-- code that has nothing to call, no caller and no handler -/
structure Lone (s : Interpreter) : Prop where
  codeRefs : s.codeRefs = []
  callStack : s.callStack = []
  c0 : s.controlRegisters.c0 = none
  c2 : s.controlRegisters.c2 = none

structure Confined (code data : Cell) (outMessages : List Message) (s : Interpreter) : Prop where
  lone : Lone s
  code_eq : s.currentCode = code
  data_eq : s.data = data
  outMessages_eq : s.outMessages = outMessages

theorem lone_new (code data : Cell) (message : Message) (context : ExecutionContext) :
    Lone (Interpreter.new code data message context) := ⟨rfl, rfl, rfl, rfl⟩

/-- only stack, position and gas are new -/
theorem Confined.keeps {code data : Cell} {outMessages : List Message} {s : Interpreter}
    (h : Confined code data outMessages s) (stack : List StackValue) (pcBits : Nat) (gasUsed : Uint64) :
    Confined code data outMessages { s with stack := stack, pcBits := pcBits, gasUsed := gasUsed } :=
  ⟨⟨h.lone.codeRefs, h.lone.callStack, h.lone.c0, h.lone.c2⟩, h.code_eq, h.data_eq, h.outMessages_eq⟩

/-! ## instructions -/

section
variable {code data : Cell} {outMessages : List Message}

/-- a confined state, beside itself -/
def Beside (code data : Cell) (outMessages : List Message) (s t : Interpreter) : Prop :=
  t = s ∧ Confined code data outMessages s

theorem placed_beside : Placed (Beside code data outMessages) := by
  rintro s _ ⟨rfl, h⟩
  exact ⟨rfl, rfl, fun pcBits => ⟨rfl, h.keeps _ pcBits _⟩⟩

def confines (code data : Cell) (outMessages : List Message) : Likeness where
  R := Beside code data outMessages
  Q := Both (Beside code data outMessages) Eq
  G _ _ := False
  H _ _ := False
  stacked := by
    rintro s _ ⟨rfl, h⟩
    refine ⟨[], (List.append_nil _).symm, fun hne => absurd rfl hne, fun stack => ?_⟩
    rw [List.append_nil]
    exact ⟨rfl, h.keeps stack _ _⟩
  reads := placed_beside.reads
  jumps := placed_beside.jumps
  gas := by
    rintro amount s _ ⟨rfl, h⟩
    rw [consumeGas_apply]
    split_ifs
    · exact .err ⟨rfl, h.keeps _ _ _⟩
    · exact .ok ⟨rfl, rfl, h.keeps _ _ _⟩
  transfers := by
    rintro refIdx call s _ ⟨rfl, h⟩
    rw [transferTo_apply, h.lone.codeRefs]
    exact .err ⟨rfl, h⟩
  returns := by
    rintro s _ ⟨rfl, h⟩
    rw [returnToCaller_apply, h.lone.c0]
    exact .ok ⟨rfl, rfl, h⟩
  leaves := by
    rintro s _ ⟨rfl, h⟩
    unfold leave
    rw [get_bind, h.lone.callStack]
    exact .ok ⟨rfl, rfl, h⟩
  goes := fun h => ⟨rfl, h⟩

/-! ## turns and runs -/

variable {c : Crypto} {s t : Interpreter}

theorem raised_of_none (e : ExceptionKind) (hc2 : s.controlRegisters.c2 = none) :
    raised e s = .done (.exception e s.gasUsed) := by
  unfold raised
  rw [hc2]

/-- what a turn of confined code does -/
theorem Confined.turn (h : Confined code data outMessages s) :
    (∀ t, turn c s = .next t → Confined code data outMessages t)
    ∧ ∀ newData out gasUsed, turn c s = .done (.success newData out gasUsed) → newData = data ∧ out = outMessages := by
  have halike := @Likeness.alike_step (confines code data outMessages) c s s ⟨rfl, h⟩ Iff.rfl
  unfold Vm.turn
  generalize step c s = r at halike
  cases halike with
  | @ok b s' _ _ hboth =>
    obtain ⟨_, _, h'⟩ := hboth
    cases b with
    | true =>
      refine ⟨fun t ht => ?_, fun _ _ _ hdone => ?_⟩
      · cases ht
        exact h'
      · cases hdone
    | false =>
      refine ⟨fun t ht => ?_, fun _ _ _ hdone => ?_⟩
      · cases ht
      · cases hdone
        exact ⟨h'.data_eq, h'.outMessages_eq⟩
  | @err e s' _ hbeside =>
    dsimp only
    rw [raised_of_none e hbeside.2.lone.c2]
    refine ⟨fun t ht => ?_, fun _ _ _ hdone => ?_⟩
    · cases ht
    · cases hdone
  | panic =>
    refine ⟨fun t ht => ?_, fun _ _ _ hdone => ?_⟩
    · cases ht
    · cases hdone
  | first hno => exact absurd hno not_false
  | second hno => exact absurd hno not_false

/-- **A run** of confined code. -/
theorem Confined.run (h : Confined code data outMessages s) {n : Nat} (hn : run c n s = .next t) :
    Confined code data outMessages t :=
  loop_inv (fun _ t hs ht => (Confined.turn hs).1 t ht) h hn

end

/-- **Executions of contract code** never leave its cell, and those that succeed return the data that they were
given, and no messages. -/
theorem execute_confined (c : Crypto) (code data : Cell) (message : Message) (context : ExecutionContext) (n : Nat) :
    (∀ s, execute c n code data message context = .next s → Confined code data [] s)
    ∧ ∀ newData outMessages gasUsed,
      execute c n code data message context = .done (.success newData outMessages gasUsed) →
      newData = data ∧ outMessages = [] := by
  have hnew : Confined code data [] (Interpreter.new code data message context) :=
    ⟨lone_new code data message context, rfl, rfl, rfl⟩
  refine ⟨fun s hs => Confined.run hnew hs, fun newData outMessages gasUsed hdone => ?_⟩
  obtain ⟨k, t, ht, hlast⟩ := loop_done hdone
  exact (Confined.turn (Confined.run hnew ht)).2 newData outMessages gasUsed hlast

end Onx.Vm
