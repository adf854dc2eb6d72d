import Mathlib.Logic.Basic

/-!
# Runs of a step function

A system is a total function `step : σ → ε → σ` from a state and an event to the next state.
`run` folds it over a list of events, and `Along P` says that every step of the run meets `P`
(a guard of the environment, or a condition under which a property is claimed).

* `Along.inv`        what every step under `P` preserves holds at the end of a run;
* `along_append`     runs can be cut at any point;
* `along_iff_split`  a condition along a run, read step by step;
* `Along.mono`       a weaker condition;
* `holds_iff_along`  a property that a step keeps exactly when it meets the condition holds at the
                     end of a run exactly when it held at the start and all steps meet it.
-/

namespace Runs
variable {σ ε : Type}

def run (step : σ → ε → σ) (s : σ) (es : List ε) : σ := es.foldl step s

/-- every step of the run of `es` from `s` meets `P` -/
def Along (step : σ → ε → σ) (P : σ → ε → Prop) : σ → List ε → Prop
  | _, [] => True
  | s, e :: es => P s e ∧ Along step P (step s e) es

variable {step : σ → ε → σ} {P Q : σ → ε → Prop}

@[simp] theorem run_nil (s : σ) : run step s [] = s := rfl

@[simp] theorem run_cons (s : σ) (e : ε) (es : List ε) :
    run step s (e :: es) = run step (step s e) es := rfl

theorem run_append (s : σ) (es fs : List ε) :
    run step s (es ++ fs) = run step (run step s es) fs := List.foldl_append

theorem run_concat (s : σ) (es : List ε) (e : ε) :
    run step s (es ++ [e]) = step (run step s es) e := by
  rw [run_append]
  rfl

@[simp] theorem along_nil (s : σ) : Along step P s [] := trivial

theorem along_cons {s : σ} {e : ε} {es : List ε} :
    Along step P s (e :: es) ↔ P s e ∧ Along step P (step s e) es := Iff.rfl

instance instDecidableAlong [∀ s e, Decidable (P s e)] :
    ∀ (s : σ) (es : List ε), Decidable (Along step P s es)
  | _, [] => isTrue trivial
  | s, e :: es => @instDecidableAnd _ _ _ (instDecidableAlong (step s e) es)

theorem along_append {s : σ} {es fs : List ε} :
    Along step P s (es ++ fs) ↔ Along step P s es ∧ Along step P (run step s es) fs := by
  induction es generalizing s with
  | nil => simp
  | cons e es ih =>
    show P s e ∧ Along step P (step s e) (es ++ fs) ↔ _
    rw [ih, ← and_assoc]
    rfl

/-- what holds along a run holds of each of its steps -/
theorem along_iff_split {s : σ} {es : List ε} :
    Along step P s es ↔ ∀ pre e post, es = pre ++ e :: post → P (run step s pre) e := by
  constructor
  · intro ha pre e post hes
    rw [hes] at ha
    exact (along_append.mp ha).2.1
  · intro h
    induction es generalizing s with
    | nil => trivial
    | cons e es ih =>
      refine ⟨h [] e es rfl, ih fun pre f post hes => ?_⟩
      exact h (e :: pre) f post (by rw [hes, List.cons_append])

theorem along_congr (h : ∀ s e, P s e ↔ Q s e) {s : σ} {es : List ε} :
    Along step P s es ↔ Along step Q s es := by
  induction es generalizing s with
  | nil => exact Iff.rfl
  | cons e es ih => exact and_congr (h s e) ih

theorem Along.mono (h : ∀ s e, P s e → Q s e) {s : σ} {es : List ε} (ha : Along step P s es) :
    Along step Q s es := by
  induction es generalizing s with
  | nil => trivial
  | cons e es ih => exact ⟨h s e ha.1, ih ha.2⟩

/-- **The invariant rule.**  What every step that meets `P` preserves is preserved by a run
all of whose steps meet `P`. -/
theorem Along.inv {I : σ → Prop} (hstep : ∀ s e, I s → P s e → I (step s e)) {s : σ}
    {es : List ε} (hs : I s) (ha : Along step P s es) : I (run step s es) := by
  induction es generalizing s with
  | nil => exact hs
  | cons e es ih => exact ih (hstep s e hs ha.1) ha.2

/-- the invariant rule without a condition on the steps -/
theorem run_inv {I : σ → Prop} (hstep : ∀ s e, I s → I (step s e)) {s : σ} (es : List ε)
    (hs : I s) : I (run step s es) := by
  induction es generalizing s with
  | nil => exact hs
  | cons e es ih => exact ih (hstep s e hs)

theorem holds_iff_along {I J : σ → Prop} (hstep : ∀ s e, I s → I (step s e))
    (hJ : ∀ s e, I s → (J (step s e) ↔ J s ∧ P s e)) {s : σ} (es : List ε) (hs : I s) :
    J (run step s es) ↔ J s ∧ Along step P s es := by
  induction es generalizing s with
  | nil => simp
  | cons e es ih => rw [run_cons, ih (hstep s e hs), hJ s e hs, along_cons, and_assoc]

end Runs
