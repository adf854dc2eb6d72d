import Onx.Lib.Machine

/-!
# Two programs side by side

`Couples R G H m m' Q`: from states related by `R`, two programs end alike, with results related by `Q`,
unless the first raises an exception in `G`, or the second one in `H`.

* `Alike`             two results;
* `alike_bind`        **sequences end alike** if both parts do;
* `couples_get`       what the programs do with the states they read; `alike_guard` a check of them;
* `loops_alike`       **two loops** come to related states, or the second is stopped;
* `loop_map`          **a loop on images** of the states.
-/

namespace Machine
open Prog

variable {σ τ ε α α' β β' ρ : Type}

/-- the results of two programs: alike, or one of them has given up -/
inductive Alike (R : σ → τ → Prop) (G : ε → σ → Prop) (H : ε → τ → Prop)
    (Q : α → σ → β → τ → Prop) : Res σ ε α → Res τ ε β → Prop
  | ok {a s b t} (h : Q a s b t) : Alike R G H Q (.ok a s) (.ok b t)
  | err {e s t} (h : R s t) : Alike R G H Q (.err e s) (.err e t)
  | panic : Alike R G H Q .panic .panic
  | first {e s r} (h : G e s) : Alike R G H Q (.err e s) r
  | second {e t r} (h : H e t) : Alike R G H Q r (.err e t)

/-- values related by `V`, in related states -/
def Both (R : σ → τ → Prop) (V : α → β → Prop) (a : α) (s : σ) (b : β) (t : τ) : Prop := V a b ∧ R s t

def Couples (R : σ → τ → Prop) (G : ε → σ → Prop) (H : ε → τ → Prop) (m : Prog σ ε α)
    (m' : Prog τ ε β) (Q : α → σ → β → τ → Prop) : Prop :=
  ∀ s t, R s t → Alike R G H Q (m s) (m' t)

section
variable {R : σ → τ → Prop} {G : ε → σ → Prop} {H : ε → τ → Prop} {V : α → α' → Prop}
  {Q Q' : β → σ → β' → τ → Prop} {m : Prog σ ε α} {m' : Prog τ ε α'} {f : α → Prog σ ε β}
  {f' : α' → Prog τ ε β'} {s : σ} {t : τ}

/-- **The rule for sequences.** -/
theorem alike_bind (hm : Alike R G H (Both R V) (m s) (m' t))
    (hf : ∀ a b, V a b → Couples R G H (f a) (f' b) Q) :
    Alike R G H Q ((m >>= f) s) ((m' >>= f') t) := by
  rw [bind_apply, bind_apply]
  generalize m s = r at hm
  generalize m' t = r' at hm
  cases hm with
  | ok h => exact hf _ _ h.1 _ _ h.2
  | err h => exact .err h
  | panic => exact .panic
  | first h => exact .first h
  | second h => exact .second h

theorem couples_bind (hm : Couples R G H m m' (Both R V))
    (hf : ∀ a b, V a b → Couples R G H (f a) (f' b) Q) : Couples R G H (m >>= f) (m' >>= f') Q :=
  fun s t h => alike_bind (hm s t h) hf

/-- values that are the same -/
theorem couples_same {f : α → Prog σ ε β} {f' : α → Prog τ ε β'} {m' : Prog τ ε α}
    (hm : Couples R G H m m' (Both R Eq)) (hf : ∀ a, Couples R G H (f a) (f' a) Q) :
    Couples R G H (m >>= f) (m' >>= f') Q :=
  couples_bind hm fun a _ h => h ▸ hf a

/-- what the programs do with the states they read -/
theorem couples_get {f : σ → Prog σ ε β} {f' : τ → Prog τ ε β'}
    (hf : ∀ s t, R s t → Couples R G H (f s) (f' t) Q) :
    Couples R G H (Prog.get >>= f) (Prog.get >>= f') Q := fun s t h => hf s t h s t h

theorem couples_pure {a : α} {b : α'} (h : V a b) :
    Couples R G H (pure a : Prog σ ε α) (pure b) (Both R V) := fun _ _ hR => .ok ⟨h, hR⟩

theorem couples_raise {Q : α → σ → α' → τ → Prop} (e : ε) :
    Couples R G H (raise e : Prog σ ε α) (raise e) Q := fun _ _ hR => .err hR

theorem couples_panic {Q : α → σ → α' → τ → Prop} :
    Couples R G H (panic : Prog σ ε α) (panic : Prog τ ε α') Q := fun _ _ _ => .panic

theorem couples_modify {g : σ → σ} {g' : τ → τ} (h : ∀ s t, R s t → R (g s) (g' t)) :
    Couples R G H (modify g : Prog σ ε Unit) (modify g') (Both R Eq) :=
  fun s t hR => .ok ⟨rfl, h s t hR⟩

theorem couples_ofOption (e : ε) (o : Option α) :
    Couples R G H (ofOption e o : Prog σ ε α) (ofOption e o) (Both R Eq) := by
  cases o with
  | none => exact couples_raise e
  | some a => exact couples_pure rfl

theorem couples_expect (o : Option α) :
    Couples R G H (expect o : Prog σ ε α) (expect o) (Both R Eq) := by
  cases o with
  | none => exact couples_panic
  | some a => exact couples_pure rfl

theorem couples_failIf (b : Prop) [Decidable b] (e : ε) :
    Couples R G H (failIf b e : Prog σ ε Unit) (failIf b e) (Both R Eq) := by
  unfold failIf
  split_ifs
  · exact couples_raise e
  · exact couples_pure rfl

/-- what each program checks of its own state -/
theorem alike_guard {p p' : Prop} [Decidable p] [Decidable p'] {e : ε} {f : Unit → Prog σ ε β}
    {f' : Unit → Prog τ ε β'} (h : R s t) (himp : p' → p) (hG : p → ¬ p' → G e s)
    (hf : ¬ p → Alike R G H Q (f () s) (f' () t)) :
    Alike R G H Q ((failIf p e >>= f) s) ((failIf p' e >>= f') t) := by
  by_cases hp : p
  · rw [bind_err (failIf_pos hp e s)]
    by_cases hp' : p'
    · rw [bind_err (failIf_pos hp' e t)]
      exact .err h
    · exact .first (hG hp hp')
  · rw [bind_ok (failIf_neg hp e s), bind_ok (failIf_neg (fun hp' => hp (himp hp')) e t)]
    exact hf hp

theorem couples_onlyIf (b : Prop) [Decidable b] {m : Prog σ ε Unit} {m' : Prog τ ε Unit}
    (h : Couples R G H m m' (Both R Eq)) :
    Couples R G H (onlyIf b m) (onlyIf b m') (Both R Eq) := by
  unfold onlyIf
  split_ifs
  · exact h
  · exact couples_pure rfl

/-- the same program on the same local value -/
theorem couples_onLocal {ι : Type} (l : Prog ι ε α) (i : ι) :
    Couples R G H (onLocal l i : Prog σ ε (α × ι)) (onLocal l i) (Both R Eq) := by
  intro s t h
  unfold onLocal
  cases l i with
  | ok a j => exact .ok ⟨rfl, h⟩
  | err e j => exact .err h
  | panic => exact .panic

end

/-! ## loops -/

section
variable {ρ' : Type} {first : σ → Turn σ ρ} {second : τ → Turn τ ρ'} {R : σ → τ → Prop} {s t : σ} {u : τ}

/-- **Two loops** come to related states, as long as no turn comes to `Stops`. -/
theorem loops_alike {Stops : τ → Prop}
    (hturn : ∀ s t s', R s t → first s = .next s' → Stops t ∨ ∃ t', second t = .next t' ∧ R s' t')
    (h : R s u) {n : Nat} (hn : loop first n s = .next t) :
    (∃ k v, k < n ∧ loop second k u = .next v ∧ Stops v) ∨ ∃ v, loop second n u = .next v ∧ R t v := by
  induction n generalizing t with
  | zero =>
    cases hn
    exact .inr ⟨u, rfl, h⟩
  | succ n ih =>
    rw [loop_succ] at hn
    cases hprev : loop first n s with
    | next w =>
      rw [hprev] at hn
      rcases ih hprev with ⟨k, v, hk, hv⟩ | ⟨v, hv, hR⟩
      · exact .inl ⟨k, v, Nat.lt_succ_of_lt hk, hv⟩
      · rcases hturn w v t hR hn with hstop | ⟨t', ht', hR'⟩
        · exact .inl ⟨n, v, Nat.lt_succ_self n, hv, hstop⟩
        · refine .inr ⟨t', ?_, hR'⟩
          rw [loop_succ, hv]
          exact ht'
    | done r =>
      rw [hprev] at hn
      cases hn
    | panic =>
      rw [hprev] at hn
      cases hn

/-- the state in which a loop returns -/
theorem loop_done {r : ρ} {n : Nat} (h : loop first n s = .done r) :
    ∃ k t, loop first k s = .next t ∧ first t = .done r := by
  induction n with
  | zero => cases h
  | succ n ih =>
    rw [loop_succ] at h
    cases hn : loop first n s with
    | next t =>
      rw [hn] at h
      exact ⟨n, t, hn, h⟩
    | done r' =>
      rw [hn] at h
      cases h
      exact ih hn
    | panic =>
      rw [hn] at h
      cases h

theorem not_next_of_done {r : ρ} {n : Nat} (h : loop first n s = .done r) (t : σ) : loop first n s ≠ .next t := by
  rw [h]
  rintro ⟨⟩

theorem loop_succ_of_last {r : ρ} {n : Nat} (h : loop first n s = .next t) (ht : first t = .done r) :
    loop first (n + 1) s = .done r := by
  rw [loop_succ, h]
  exact ht

/-- the same turn, with the image of the state that it goes on with -/
def Turn.map (f : σ → τ) : Turn σ ρ → Turn τ ρ
  | .next s => .next (f s)
  | .done r => .done r
  | .panic => .panic

/-- **A loop on images** of the states does the same, if it does in each state that it comes to. -/
theorem loop_map {turn : σ → Turn σ ρ} {turn' : τ → Turn τ ρ} {f : σ → τ}
    (hturn : ∀ n t, loop turn n s = .next t → loop turn' n (f s) = .next (f t) →
      turn' (f t) = (turn t).map f) (n : Nat) :
    loop turn' n (f s) = (loop turn n s).map f := by
  induction n with
  | zero => rfl
  | succ n ih =>
    rw [loop_succ, loop_succ, ih]
    cases hn : loop turn n s with
    | next t =>
      rw [hn] at ih
      exact hturn n t hn ih
    | done r => rfl
    | panic => rfl

end

end Machine
