import Mathlib.Order.WellFounded

/-!
# Programs with a state, exceptions and panics

`Prog σ ε α` runs on a state and returns a value, raises an exception, both with the state they
leave, or panics.

* `Keeps p I R m P`  from states in `I`, `m` panics only if `p`, stays in `I`, moves along `R`, and
                     returns values in `P`; with rules for each combinator (`keeps_bind` and so on);
* `Climbs p I R S m` as well, where it returns, it moves along `S`;
* `Moves R E m P`    a program moves along `R`, with values in `P` and exceptions in `E`;
* `bind_panic`       a sequence panics in its first part, or after it;
* `calls_refine`     calls answer as a function of a simpler state does, if each call does;
* `loop`             turns one after the other: `loop_ends` by a well-founded relation,
                     `returns_iff`: a loop returns if and only if no turn panics and it ends;
                     `panics_iff`, `loop_forever`.
-/

namespace Machine
variable {σ τ ε α β ρ : Type}

inductive Res (σ ε α : Type) where
  | ok (a : α) (s : σ)
  | err (e : ε) (s : σ)
  | panic

def Prog (σ ε α : Type) : Type := σ → Res σ ε α

namespace Prog

instance : Monad (Prog σ ε) where
  pure a := fun s => .ok a s
  bind m f := fun s =>
    match m s with
    | .ok a s' => f a s'
    | .err e s' => .err e s'
    | .panic => .panic

def get : Prog σ ε σ := fun s => .ok s s

def modify (f : σ → σ) : Prog σ ε Unit := fun s => .ok () (f s)

def raise (e : ε) : Prog σ ε α := fun s => .err e s

def panic : Prog σ ε α := fun _ => .panic

/-- `ok_or(e)?` -/
def ofOption (e : ε) : Option α → Prog σ ε α
  | some a => pure a
  | none => raise e

def ofExcept : Except ε α → Prog σ ε α
  | .ok a => pure a
  | .error e => raise e

/-- `unwrap`, and what panics without being asked to: arithmetic out of range, an index -/
def expect : Option α → Prog σ ε α
  | some a => pure a
  | none => panic

def failIf (b : Prop) [Decidable b] (e : ε) : Prog σ ε Unit := if b then raise e else pure ()

def onlyIf (b : Prop) [Decidable b] (m : Prog σ ε Unit) : Prog σ ε Unit :=
  if b then m else pure ()

/-- a program that changes a local value -/
def onLocal (m : Prog τ ε α) (t : τ) : Prog σ ε (α × τ) := fun s =>
  match m t with
  | .ok a t' => .ok (a, t') s
  | .err e _ => .err e s
  | .panic => .panic

end Prog

open Prog

/-! ## results -/

section
variable {m : Prog σ ε α} {f : α → Prog σ ε β} {s s' : σ} {a : α} {e : ε}

theorem bind_apply : (m >>= f) s = match m s with
    | .ok a s' => f a s'
    | .err e s' => .err e s'
    | .panic => .panic := rfl

theorem bind_bind {γ : Type} {g : β → Prog σ ε γ} :
    (m >>= f) >>= g = m >>= fun a => f a >>= g := by
  funext s
  rw [bind_apply, bind_apply, bind_apply]
  cases m s <;> rfl

theorem get_bind (f : σ → Prog σ ε β) (s : σ) : ((get : Prog σ ε σ) >>= f) s = f s s := rfl

theorem bind_ok (h : m s = .ok a s') : (m >>= f) s = f a s' := by
  rw [bind_apply, h]

theorem bind_err (h : m s = .err e s') : (m >>= f) s = .err e s' := by
  rw [bind_apply, h]

/-- both parts of a sequence that succeeds do -/
theorem bind_eq_ok {b : β} :
    (m >>= f) s = .ok b s' ↔ ∃ a t, m s = .ok a t ∧ f a t = .ok b s' := by
  rw [bind_apply]
  cases m s with
  | ok a t => exact ⟨fun h => ⟨a, t, rfl, h⟩, fun ⟨_, _, heq, h⟩ => by cases heq; exact h⟩
  | err e t => exact iff_of_false nofun nofun
  | panic => exact iff_of_false nofun nofun

/-- **A sequence panics** in its first part, or in the second after it. -/
theorem bind_panic : (m >>= f) s = .panic ↔ m s = .panic ∨ ∃ a s', m s = .ok a s' ∧
    f a s' = .panic := by
  rw [bind_apply]
  cases h : m s with
  | ok a s' =>
    constructor
    · exact fun hf => Or.inr ⟨a, s', rfl, hf⟩
    · rintro (h' | ⟨a', t, heq, hf⟩)
      · cases h'
      · cases heq
        exact hf
  | err e s' =>
    constructor
    · exact fun h' => nomatch h'
    · rintro (h' | ⟨_, _, heq, _⟩)
      · cases h'
      · cases heq
  | panic => exact ⟨fun _ => Or.inl rfl, fun _ => rfl⟩

theorem failIf_pos {b : Prop} [Decidable b] (h : b) (e : ε) (s : σ) :
    (failIf b e : Prog σ ε Unit) s = .err e s := by
  unfold failIf
  rw [if_pos h]
  rfl

theorem failIf_neg {b : Prop} [Decidable b] (h : ¬ b) (e : ε) (s : σ) :
    (failIf b e : Prog σ ε Unit) s = .ok () s := by
  unfold failIf
  rw [if_neg h]
  rfl

theorem failIf_bind_panic {b : Prop} [Decidable b] {f : Unit → Prog σ ε β} :
    (failIf b e >>= f) s = .panic ↔ ¬ b ∧ f () s = .panic := by
  by_cases h : b
  · rw [bind_err (failIf_pos h e s)]
    exact ⟨fun h' => (nomatch h'), fun h' => absurd h h'.1⟩
  · rw [bind_ok (failIf_neg h e s)]
    exact ⟨fun h' => ⟨h, h'⟩, fun h' => h'.2⟩

theorem failIf_bind_eq_ok {p : Prop} [Decidable p] {b : β} {f : Unit → Prog σ ε β} :
    (failIf p e >>= f) s = .ok b s' ↔ ¬ p ∧ f () s = .ok b s' := by
  by_cases h : p
  · rw [bind_err (failIf_pos h e s)]
    exact iff_of_false nofun fun h' => h'.1 h
  · rw [bind_ok (failIf_neg h e s), and_iff_right h]

theorem expect_bind_panic {o : Option α} :
    (expect o >>= f) s = .panic ↔ o = none ∨ ∃ a, o = some a ∧ f a s = .panic := by
  cases o with
  | none => exact ⟨fun _ => Or.inl rfl, fun _ => rfl⟩
  | some a =>
    constructor
    · exact fun h => Or.inr ⟨a, rfl, h⟩
    · rintro (h | ⟨a', ha, h⟩)
      · cases h
      · cases ha
        exact h

theorem onLocal_eq (m : Prog τ ε α) (t : τ) : (onLocal m t : Prog σ ε (α × τ)) = match m t with
    | .ok a t' => pure (a, t')
    | .err e _ => raise e
    | .panic => panic := by
  funext s
  unfold onLocal
  cases m t <;> rfl

theorem onLocal_bind_eq_ok {l : Prog τ ε α} {t : τ} {b : β} {f : α × τ → Prog σ ε β} :
    (onLocal l t >>= f) s = .ok b s' ↔ ∃ a t', l t = .ok a t' ∧ f (a, t') s = .ok b s' := by
  rw [onLocal_eq]
  cases l t with
  | ok a t' => exact ⟨fun h => ⟨a, t', rfl, h⟩, fun ⟨_, _, heq, h⟩ => by cases heq; exact h⟩
  | err e t' => exact iff_of_false nofun nofun
  | panic => exact iff_of_false nofun nofun

theorem pure_bind_eq : ((pure a : Prog σ ε α) >>= f) = f a := rfl

theorem ofOption_some_bind : (ofOption e (some a) >>= f) = f a := rfl

theorem expect_some_bind : (expect (some a) >>= f) = f a := rfl

end

/-! ## invariants -/

/-- from states in `I` a program panics only if `p`, stays in `I`, moves along `R` and returns
values in `P` -/
def Keeps (p : Prop) (I : σ → Prop) (R : σ → σ → Prop) (m : Prog σ ε α) (P : α → Prop) : Prop :=
  ∀ s, I s → match m s with
    | .ok a s' => I s' ∧ R s s' ∧ P a
    | .err _ s' => I s' ∧ R s s'
    | .panic => p

section
variable {p : Prop} {I : σ → Prop} {R : σ → σ → Prop} {m : Prog σ ε α} {f : α → Prog σ ε β}
  {P : α → Prop} {Q : β → Prop} {s s' : σ} {a : α} {e : ε}

theorem Keeps.ok (h : Keeps p I R m P) (hs : I s) (hm : m s = .ok a s') :
    I s' ∧ R s s' ∧ P a := by
  have hrun := h s hs
  rw [hm] at hrun
  exact hrun

theorem Keeps.err (h : Keeps p I R m P) (hs : I s) (hm : m s = .err e s') : I s' ∧ R s s' := by
  have hrun := h s hs
  rw [hm] at hrun
  exact hrun

theorem Keeps.panic (h : Keeps p I R m P) (hs : I s) (hm : m s = .panic) : p := by
  have hrun := h s hs
  rw [hm] at hrun
  exact hrun

/-- **The rule for sequences.** -/
theorem keeps_bind [IsTrans σ R] (hm : Keeps p I R m P) (hf : ∀ a, P a → Keeps p I R (f a) Q) :
    Keeps p I R (m >>= f) Q := by
  intro s hs
  rw [bind_apply]
  cases h : m s with
  | ok a s' =>
    obtain ⟨hs', hR, ha⟩ := hm.ok hs h
    have hrun := hf a ha s' hs'
    dsimp only
    cases h' : f a s' with
    | ok b t =>
      rw [h'] at hrun
      exact ⟨hrun.1, IsTrans.trans _ _ _ hR hrun.2.1, hrun.2.2⟩
    | err e t =>
      rw [h'] at hrun
      exact ⟨hrun.1, IsTrans.trans _ _ _ hR hrun.2⟩
    | panic =>
      rw [h'] at hrun
      exact hrun
  | err e s' => exact hm.err hs h
  | panic => exact hm.panic hs h

theorem keeps_mono {p' : Prop} {P' : α → Prop} (hm : Keeps p I R m P) (hp : p → p')
    (h : ∀ a, P a → P' a) : Keeps p' I R m P' := by
  intro s hs
  have hrun := hm s hs
  cases hr : m s with
  | ok a s' =>
    rw [hr] at hrun
    exact ⟨hrun.1, hrun.2.1, h a hrun.2.2⟩
  | err e s' =>
    rw [hr] at hrun
    exact hrun
  | panic =>
    rw [hr] at hrun
    exact hp hrun

theorem keeps_modify {g : σ → σ} (h : ∀ s, I s → I (g s) ∧ R s (g s)) :
    Keeps p I R (modify g : Prog σ ε Unit) (fun _ => True) :=
  fun s hs => ⟨(h s hs).1, (h s hs).2, trivial⟩

section
variable [Std.Refl R]

theorem keeps_pure (ha : P a) : Keeps p I R (pure a : Prog σ ε α) P :=
  fun s hs => ⟨hs, Std.Refl.refl s, ha⟩

theorem keeps_get : Keeps p I R (get : Prog σ ε σ) I :=
  fun s hs => ⟨hs, Std.Refl.refl s, hs⟩

theorem keeps_raise : Keeps p I R (raise e : Prog σ ε α) P :=
  fun s hs => ⟨hs, Std.Refl.refl s⟩

theorem keeps_ofOption {o : Option α} (h : ∀ a, o = some a → P a) :
    Keeps p I R (ofOption e o : Prog σ ε α) P := by
  cases o with
  | none => exact keeps_raise
  | some a => exact keeps_pure (h a rfl)

theorem keeps_failIf {b : Prop} [Decidable b] :
    Keeps p I R (failIf b e : Prog σ ε Unit) (fun _ => ¬ b) := by
  unfold failIf
  split_ifs with h
  · exact keeps_raise
  · exact keeps_pure h

theorem keeps_onlyIf {b : Prop} [Decidable b] {m : Prog σ ε Unit}
    (hm : Keeps p I R m (fun _ => True)) :
    Keeps p I R (onlyIf b m : Prog σ ε Unit) (fun _ => True) := by
  unfold onlyIf
  split_ifs
  · exact hm
  · exact keeps_pure trivial

end

/-- a program that keeps `I` and `R`, and moves along `S` where it returns -/
structure Climbs (p : Prop) (I : σ → Prop) (R S : σ → σ → Prop) (m : Prog σ ε α) : Prop where
  keeps : Keeps p I R m (fun _ => True)
  climbs : ∀ s a t, I s → m s = .ok a t → S s t

section
variable {S : σ → σ → Prop}

theorem Climbs.mono {p' : Prop} (h : Climbs p I R S m) (hp : p → p') : Climbs p' I R S m :=
  ⟨keeps_mono h.keeps hp (fun _ _ => trivial), h.climbs⟩

variable [IsTrans σ R]

/-- the first part climbs -/
theorem climbs_bind_left [Trans S R S] (hm : Climbs p I R S m)
    (hf : ∀ a, Keeps p I R (f a) (fun _ => True)) : Climbs p I R S (m >>= f) where
  keeps := keeps_bind hm.keeps (fun a _ => hf a)
  climbs := by
    intro s b t hs hok
    rw [bind_apply] at hok
    cases h : m s with
    | ok a u =>
      rw [h] at hok
      exact Trans.trans (hm.climbs s a u hs h) ((hf a).ok (hm.keeps.ok hs h).1 hok).2.1
    | err e u =>
      rw [h] at hok
      cases hok
    | panic =>
      rw [h] at hok
      cases hok

/-- the second part climbs -/
theorem climbs_bind_right [Trans R S S] (hm : Keeps p I R m P)
    (hf : ∀ a, P a → Climbs p I R S (f a)) : Climbs p I R S (m >>= f) where
  keeps := keeps_bind hm (fun a ha => (hf a ha).keeps)
  climbs := by
    intro s b t hs hok
    rw [bind_apply] at hok
    cases h : m s with
    | ok a u =>
      rw [h] at hok
      obtain ⟨hu, hR, ha⟩ := hm.ok hs h
      exact Trans.trans hR ((hf a ha).climbs u b t hu hok)
    | err e u =>
      rw [h] at hok
      cases hok
    | panic =>
      rw [h] at hok
      cases hok

end

end

/-- a program that moves along `R`, returns values in `P` and raises exceptions in `E` -/
def Moves (R : σ → σ → Prop) (E : ε → Prop) (m : Prog σ ε α) (P : α → Prop) : Prop :=
  ∀ s, match m s with
    | .ok a t => R s t ∧ P a
    | .err e t => R s t ∧ E e
    | .panic => True

section
variable {R : σ → σ → Prop} {E : ε → Prop} {m : Prog σ ε α} {f : α → Prog σ ε β} {P : α → Prop}
  {Q : β → Prop} {s t : σ} {a : α} {e : ε}

theorem Moves.ok (h : Moves R E m P) (hm : m s = .ok a t) : R s t ∧ P a := by
  have hrun := h s
  rw [hm] at hrun
  exact hrun

theorem Moves.err (h : Moves R E m P) (hm : m s = .err e t) : R s t ∧ E e := by
  have hrun := h s
  rw [hm] at hrun
  exact hrun

/-- **The rule for sequences**, with their exceptions. -/
theorem moves_bind [IsTrans σ R] (hm : Moves R E m P) (hf : ∀ a, P a → Moves R E (f a) Q) :
    Moves R E (m >>= f) Q := by
  intro s
  rw [bind_apply]
  cases h : m s with
  | ok a u =>
    obtain ⟨hsu, ha⟩ := hm.ok h
    dsimp only
    cases h' : f a u with
    | ok b t =>
      obtain ⟨hut, hb⟩ := (hf a ha).ok h'
      exact ⟨IsTrans.trans _ _ _ hsu hut, hb⟩
    | err e t =>
      obtain ⟨hut, he⟩ := (hf a ha).err h'
      exact ⟨IsTrans.trans _ _ _ hsu hut, he⟩
    | panic => trivial
  | err e u => exact hm.err h
  | panic => trivial

theorem moves_panic : Moves R E (panic : Prog σ ε α) P := fun _ => trivial

theorem moves_modify {g : σ → σ} (h : ∀ s, R s (g s)) :
    Moves R E (modify g : Prog σ ε Unit) fun _ => True := fun s => ⟨h s, trivial⟩

variable [Std.Refl R]

theorem moves_pure (ha : P a) : Moves R E (pure a : Prog σ ε α) P := fun s => ⟨Std.Refl.refl s, ha⟩

theorem moves_get : Moves R E (get : Prog σ ε σ) fun _ => True :=
  fun s => ⟨Std.Refl.refl s, trivial⟩

theorem moves_raise (he : E e) : Moves R E (raise e : Prog σ ε α) P :=
  fun s => ⟨Std.Refl.refl s, he⟩

end

/-! ## calls -/

section
variable {κ : Type}

/-- one call after the other, with their answers -/
def calls (call : κ → Prog σ ε α) : List κ → Prog σ ε (List α)
  | [] => pure []
  | e :: es => do
    let a ← call e
    let as ← calls call es
    pure (a :: as)

/-- what a function of the calls answers, and the state it leaves -/
def answers (f : κ → τ → α × τ) : List κ → τ → List α × τ
  | [], t => ([], t)
  | e :: es, t => ((f e t).1 :: (answers f es (f e t).2).1, (answers f es (f e t).2).2)

/-- **A component refines a function of its calls** if each call does. -/
theorem calls_refine {call : κ → Prog σ ε α} {f : κ → τ → α × τ} {Rel : σ → τ → Prop}
    (hcall : ∀ e s t, Rel s t → ∃ s', call e s = .ok (f e t).1 s' ∧ Rel s' (f e t).2)
    (es : List κ) {s : σ} {t : τ} (h : Rel s t) :
    ∃ s', calls call es s = .ok (answers f es t).1 s' ∧ Rel s' (answers f es t).2 := by
  induction es generalizing s t with
  | nil => exact ⟨s, rfl, h⟩
  | cons e es ih =>
    obtain ⟨u, hu, hrel⟩ := hcall e s t h
    obtain ⟨s', hs', hrel'⟩ := ih hrel
    refine ⟨s', ?_, hrel'⟩
    unfold calls
    rw [bind_ok hu, bind_ok hs']
    rfl

end

/-! ## loops -/

inductive Turn (σ ρ : Type) where
  | next (s : σ)
  | done (r : ρ)
  | panic

def Turn.isPanic : Turn σ ρ → Bool
  | .panic => true
  | _ => false

theorem Turn.eq_panic {t : Turn σ ρ} (h : t.isPanic = true) : t = .panic := by
  cases t with
  | panic => rfl
  | _ => cases h

/-- the result, once there is one -/
def Turn.result : Turn σ ρ → Option ρ
  | .done r => some r
  | _ => none

theorem Turn.eq_done {t : Turn σ ρ} {r : ρ} (h : t.result = some r) : t = .done r := by
  cases t with
  | done r' => exact congrArg Turn.done (Option.some.inj h)
  | _ => cases h

/-- at most `n` turns; `next` if it has not ended by then -/
def loop (turn : σ → Turn σ ρ) : Nat → σ → Turn σ ρ
  | 0, s => .next s
  | n + 1, s =>
    match turn s with
    | .next s' => loop turn n s'
    | .done r => .done r
    | .panic => .panic

section
variable {turn : σ → Turn σ ρ} {s t : σ} {n : Nat}

theorem loop_succ_of_next (h : turn s = .next t) : loop turn (n + 1) s = loop turn n t := by
  show (match turn s with | .next s' => _ | .done r => _ | .panic => _) = _
  rw [h]

/-- the last turn of a loop that goes on -/
theorem loop_succ : loop turn (n + 1) s = match loop turn n s with
    | .next t => turn t
    | .done r => .done r
    | .panic => .panic := by
  induction n generalizing s with
  | zero =>
    show (match turn s with | .next s' => _ | .done r => _ | .panic => _) = turn s
    cases turn s <;> rfl
  | succ n ih =>
    cases h : turn s with
    | next t => rw [loop_succ_of_next h, ih, loop_succ_of_next h]
    | done r =>
      have hall : ∀ k, loop turn (k + 1) s = .done r := by
        intro k
        show (match turn s with | .next s' => _ | .done r => _ | .panic => _) = _
        rw [h]
      rw [hall, hall]
    | panic =>
      have hall : ∀ k, loop turn (k + 1) s = .panic := by
        intro k
        show (match turn s with | .next s' => _ | .done r => _ | .panic => _) = _
        rw [h]
      rw [hall, hall]

/-- what every turn keeps holds in every state reached -/
theorem loop_inv {I : σ → Prop} (hstep : ∀ s t, I s → turn s = .next t → I t) (hs : I s)
    (h : loop turn n s = .next t) : I t := by
  induction n generalizing t with
  | zero =>
    cases h
    exact hs
  | succ n ih =>
    rw [loop_succ] at h
    cases hn : loop turn n s with
    | next u =>
      rw [hn] at h
      exact hstep u t (ih hn) h
    | done r =>
      rw [hn] at h
      cases h
    | panic =>
      rw [hn] at h
      cases h

/-- **A loop ends** if its turns descend along a well-founded relation. -/
theorem loop_ends {I : σ → Prop} {r : σ → σ → Prop} (hwf : WellFounded r)
    (hstep : ∀ s t, I s → turn s = .next t → I t ∧ r t s) (hs : I s) :
    ∃ n, ∀ t, loop turn n s ≠ .next t := by
  induction s using hwf.induction with
  | _ s ih =>
    cases h : turn s with
    | next t =>
      obtain ⟨ht, hr⟩ := hstep s t hs h
      obtain ⟨n, hn⟩ := ih t hr ht
      refine ⟨n + 1, fun u => ?_⟩
      rw [loop_succ_of_next h]
      exact hn u
    | done r =>
      refine ⟨1, fun u hu => ?_⟩
      rw [loop_succ] at hu
      change turn s = _ at hu
      rw [h] at hu
      cases hu
    | panic =>
      refine ⟨1, fun u hu => ?_⟩
      rw [loop_succ] at hu
      change turn s = _ at hu
      rw [h] at hu
      cases hu

theorem loop_add_of_next {k : Nat} (h : loop turn n s = .next t) :
    loop turn (n + k) s = loop turn k t := by
  induction k with
  | zero => exact h
  | succ k ih => rw [← Nat.add_assoc, loop_succ, loop_succ, ih]

/-- a loop that comes to a loop that ends -/
theorem loop_ends_of_next (h : loop turn n s = .next t) (hends : ∃ k, ∀ u, loop turn k t ≠ .next u) :
    ∃ k, ∀ u, loop turn k s ≠ .next u := by
  obtain ⟨k, hk⟩ := hends
  refine ⟨n + k, fun u hu => hk u ?_⟩
  rw [← loop_add_of_next h]
  exact hu

/-- **A loop goes on** for ever where every turn comes to another state of the kind. -/
theorem loop_forever {I : σ → Prop} (hstep : ∀ s, I s → ∃ t, turn s = .next t ∧ I t) (hs : I s)
    (n : Nat) : ∃ t, loop turn n s = .next t ∧ I t := by
  induction n with
  | zero => exact ⟨s, rfl, hs⟩
  | succ n ih =>
    obtain ⟨t, ht, hI⟩ := ih
    obtain ⟨u, hu, hI'⟩ := hstep t hI
    refine ⟨u, ?_, hI'⟩
    rw [loop_succ, ht]
    exact hu

/-- a loop that has ended stays as it is -/
theorem loop_stays {k : Nat} (hn : ∀ t, loop turn n s ≠ .next t) :
    loop turn (n + k) s = loop turn n s := by
  induction k with
  | zero => rfl
  | succ k ih =>
    rw [← Nat.add_assoc, loop_succ, ih]
    cases h : loop turn n s with
    | next t => exact absurd h (hn t)
    | done r => rfl
    | panic => rfl

/-- a loop that comes to a loop that goes on -/
theorem loop_forever_of_next (h : loop turn n s = .next t)
    (hforever : ∀ k, ∃ u, loop turn k t = .next u) (k : Nat) : ∃ u, loop turn k s = .next u := by
  by_contra hend
  have hk : ∀ u, loop turn k s ≠ .next u := fun u hu => hend ⟨u, hu⟩
  obtain ⟨u, hu⟩ := hforever k
  rw [← loop_add_of_next h, Nat.add_comm, loop_stays hk] at hu
  exact hk u hu

/-- a loop returns one value -/
theorem loop_done_unique {m : Nat} {r r' : ρ} (h : loop turn n s = .done r)
    (h' : loop turn m s = .done r') : r = r' := by
  have hstays : ∀ {k x}, loop turn k s = .done x → ∀ t, loop turn k s ≠ .next t := by
    intro k x hk t ht
    rw [hk] at ht
    cases ht
  have hsum := (loop_stays (k:=m) (hstays h)).symm.trans
    ((congrArg (loop turn · s) (Nat.add_comm n m)).trans (loop_stays (k:=n) (hstays h')))
  rw [h, h'] at hsum
  cases hsum
  rfl

/-- the rest of a loop returns the same -/
theorem returns_of_loop {r : ρ} (h : loop turn n s = .next t) :
    (∃ k, loop turn k s = .done r) ↔ ∃ k, loop turn k t = .done r := by
  constructor
  · rintro ⟨k, hk⟩
    have hend : ∀ u, loop turn k s ≠ .next u := by
      intro u hu
      rw [hk] at hu
      cases hu
    refine ⟨k, ?_⟩
    rw [← loop_add_of_next h, Nat.add_comm, loop_stays hend, hk]
  · rintro ⟨k, hk⟩
    exact ⟨n + k, (loop_add_of_next h).trans hk⟩

theorem returns_of_next {r : ρ} (h : turn s = .next t) :
    (∃ k, loop turn k s = .done r) ↔ ∃ k, loop turn k t = .done r :=
  returns_of_loop (n:=1) (loop_succ_of_next h)

theorem returns_of_done {r r' : ρ} (h : turn s = .done r') :
    (∃ k, loop turn k s = .done r) ↔ r' = r := by
  have hone : loop turn 1 s = .done r' := by
    show (match turn s with | .next s' => _ | .done r => _ | .panic => _) = _
    rw [h]
  constructor
  · rintro ⟨k, hk⟩
    exact loop_done_unique hone hk
  · rintro rfl
    exact ⟨1, hone⟩

/-- **A loop panics** if and only if a turn in a state it reaches does. -/
theorem panics_iff : (∃ n, loop turn n s = .panic)
    ↔ ∃ n t, loop turn n s = .next t ∧ turn t = .panic := by
  constructor
  · rintro ⟨n, hn⟩
    induction n with
    | zero => cases hn
    | succ n ih =>
      rw [loop_succ] at hn
      cases h : loop turn n s with
      | next t =>
        rw [h] at hn
        exact ⟨n, t, h, hn⟩
      | done r =>
        rw [h] at hn
        cases hn
      | panic => exact ih h
  · rintro ⟨n, t, ht, hp⟩
    refine ⟨n + 1, ?_⟩
    rw [loop_succ, ht]
    exact hp

/-- **A loop returns** if and only if no turn in a state it reaches panics, and it ends. -/
theorem returns_iff : (∃ n r, loop turn n s = .done r)
    ↔ (∀ n t, loop turn n s = .next t → turn t ≠ .panic) ∧ ∃ n, ∀ t, loop turn n s ≠ .next t := by
  constructor
  · rintro ⟨n, r, hdone⟩
    have hn : ∀ t, loop turn n s ≠ .next t := by
      intro t ht
      rw [hdone] at ht
      cases ht
    refine ⟨fun k t ht hp => ?_, n, hn⟩
    -- the turn that panics would come before or after the end
    have hpanic : loop turn (k + 1) s = .panic := by
      rw [loop_succ, ht]
      exact hp
    have hkn : loop turn (k + 1 + n) s = .panic := by
      rw [loop_stays, hpanic]
      intro u hu
      rw [hpanic] at hu
      cases hu
    rw [Nat.add_comm, loop_stays hn, hdone] at hkn
    cases hkn
  · rintro ⟨hsafe, n, hn⟩
    -- the first number of turns after which the loop does not go on
    induction n with
    | zero => exact absurd rfl (hn s)
    | succ n ih =>
      cases h : loop turn n s with
      | next t =>
        cases ht : turn t with
        | next u =>
          refine absurd ?_ (hn u)
          rw [loop_succ, h]
          exact ht
        | done r =>
          refine ⟨n + 1, r, ?_⟩
          rw [loop_succ, h]
          exact ht
        | panic => exact absurd ht (hsafe n t h)
      | done r => exact ⟨n, r, h⟩
      | panic =>
        refine ih fun t ht => ?_
        rw [h] at ht
        cases ht

end

end Machine
