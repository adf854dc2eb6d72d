import Mathlib.Data.Finset.Card
import Mathlib.Logic.Relation

/-!
# Depth-first traversal with a marked set

`visit act n x` marks `x`, acts on it and visits the successors that the action returns, unless
`x` is marked already.  The action threads a state, and may fail.  Fuel bounds the depth.

* `Reach next`       reachability in the graph of a successor function;
* `Sound`            an invariant of the marked nodes and the state, under which the action
                     returns the successors of that graph;
* `visit_spec`       a traversal marks what it can reach, and all of it;
* `visit_fail`       it fails only where the action fails on a reachable node;
* `visit_ne_fuel`    more fuel than unmarked nodes is enough;
* `check`            the search for a cycle, with the nodes on the way and the nodes done apart;
* `check_ok`         it passes where no descent is infinite;
* `check_acc`        and only there;
* `check_ne_fuel`    fuel above the number of nodes with successors is enough, cycles or not;
* `acc_of_acyclic`   in a graph with finitely many edges, where no cycle is within reach;
* `acc_changed_iff`  when new successors of one node close a cycle.
-/

namespace Dfs
variable {α σ ε : Type} [DecidableEq α]

inductive Halt (ε : Type) where
  | fuel
  | fail (e : ε)

/-- visit the nodes of a list in turn -/
def each (f : α → List α × σ → Except (Halt ε) (List α × σ)) :
    List α → List α × σ → Except (Halt ε) (List α × σ)
  | [], s => .ok s
  | x :: xs, s =>
    match f x s with
    | .error e => .error e
    | .ok s' => each f xs s'

def visit (act : α → σ → Except ε (List α × σ)) :
    Nat → α → List α × σ → Except (Halt ε) (List α × σ)
  | 0, _, _ => .error .fuel
  | n + 1, x, (seen, s) =>
    if x ∈ seen then .ok (seen, s)
    else match act x s with
    | .error e => .error (.fail e)
    | .ok (next, s') => each (visit act n) next (x :: seen, s')

/-! ## reachability -/

section
variable (next : α → List α)

def Reach : α → α → Prop := Relation.ReflTransGen (fun a b => b ∈ next a)

omit [DecidableEq α]

theorem Reach.refl (x : α) : Reach next x x := Relation.ReflTransGen.refl

variable {next}

theorem Reach.trans {x y z : α} (h : Reach next x y) (h' : Reach next y z) : Reach next x z :=
  Relation.ReflTransGen.trans h h'

theorem Reach.step {x y z : α} (h : Reach next x y) (hz : z ∈ next y) : Reach next x z :=
  Relation.ReflTransGen.tail h hz

theorem Reach.head {x y z : α} (hy : y ∈ next x) (h : Reach next y z) : Reach next x z :=
  Relation.ReflTransGen.head hy h

/-- a set that is closed under successors holds all that its members reach -/
theorem Reach.mem_closed {P : α → Prop} (hP : ∀ x, P x → ∀ y ∈ next x, P y) {x y : α} (hx : P x)
    (h : Reach next x y) : P y := by
  induction h with
  | refl => exact hx
  | tail _ hstep ih => exact hP _ ih _ hstep

/-- graphs that agree on what `x` reaches reach the same from `x` -/
theorem reach_congr {next' : α → List α} {x : α}
    (h : ∀ y, Reach next x y → next' y = next y) (y : α) : Reach next' x y ↔ Reach next x y := by
  constructor
  · intro hr
    induction hr with
    | refl => exact Reach.refl _ _
    | tail _ hstep ih => exact ih.step (by rwa [← h _ ih])
  · intro hr
    induction hr with
    | refl => exact Reach.refl _ _
    | @tail b d hb hstep ih =>
      refine ih.step ?_
      rw [h b hb]
      exact hstep

end

/-! ## traversals -/

/-- `I` holds of the marked nodes and the state, and the action keeps it -/
structure Sound (act : α → σ → Except ε (List α × σ)) (next : α → List α)
    (I : List α → σ → Prop) : Prop where
  step : ∀ seen s x cs s', I seen s → x ∉ seen → act x s = .ok (cs, s') →
    cs = next x ∧ I (x :: seen) s'

section
variable {act : α → σ → Except ε (List α × σ)} {next : α → List α} {I : List α → σ → Prop}

/-- what a traversal adds to the marked nodes -/
structure Marks (next : α → List α) (R : α → Prop) (seen seen' : List α) : Prop where
  mono : ∀ y ∈ seen, y ∈ seen'
  roots : ∀ y, R y → y ∈ seen'
  reach : ∀ y ∈ seen', y ∉ seen → ∃ r, R r ∧ Reach next r y
  closed : ∀ y ∈ seen', y ∉ seen → ∀ z ∈ next y, z ∈ seen'

omit [DecidableEq α] in
/-- a traversal of a list, from traversals of its members -/
theorem each_spec {f : α → List α × σ → Except (Halt ε) (List α × σ)}
    (hf : ∀ x seen s seen' s', I seen s → f x (seen, s) = .ok (seen', s') →
      I seen' s' ∧ Marks next (· = x) seen seen') :
    ∀ xs seen s seen' s', I seen s → each f xs (seen, s) = .ok (seen', s') →
      I seen' s' ∧ Marks next (· ∈ xs) seen seen' := by
  intro xs
  induction xs with
  | nil =>
    intro seen s seen' s' hI h
    cases h
    exact ⟨hI, fun _ h => h, (fun _ h => nomatch h), fun y hy hn => absurd hy hn,
      fun y hy hn => absurd hy hn⟩
  | cons x xs ih =>
    intro seen s seen' s' hI h
    unfold each at h
    cases hx : f x (seen, s) with
    | error e =>
      rw [hx] at h
      cases h
    | ok r =>
      obtain ⟨mid, t⟩ := r
      rw [hx] at h
      obtain ⟨hI1, hm1⟩ := hf x seen s mid t hI hx
      obtain ⟨hI2, hm2⟩ := ih mid t seen' s' hI1 h
      refine ⟨hI2, ⟨fun y hy => hm2.mono y (hm1.mono y hy), ?_, ?_, ?_⟩⟩
      · intro y hy
        rcases List.mem_cons.mp hy with rfl | hy
        · exact hm2.mono y (hm1.roots y rfl)
        · exact hm2.roots y hy
      · intro y hy hn
        by_cases hmid : y ∈ mid
        · obtain ⟨r, rfl, hr⟩ := hm1.reach y hmid hn
          exact ⟨r, List.mem_cons_self, hr⟩
        · obtain ⟨r, hr, hreach⟩ := hm2.reach y hy hmid
          exact ⟨r, List.mem_cons_of_mem _ hr, hreach⟩
      · intro y hy hn z hz
        by_cases hmid : y ∈ mid
        · exact hm2.mono z (hm1.closed y hmid hn z hz)
        · exact hm2.closed y hy hmid z hz

/-- **A traversal marks what it can reach.**  The marks are new successors of the root, closed
under the edges of every node marked on the way. -/
theorem visit_spec (h : Sound act next I) : ∀ n x seen s seen' s', I seen s →
    visit act n x (seen, s) = .ok (seen', s') → I seen' s' ∧ Marks next (· = x) seen seen' := by
  intro n
  induction n with
  | zero =>
    intro x seen s seen' s' _ hv
    cases hv
  | succ n ih =>
    intro x seen s seen' s' hI hv
    unfold visit at hv
    split_ifs at hv with hx
    · cases hv
      refine ⟨hI, fun _ h => h, ?_, fun y hy hn => absurd hy hn, fun y hy hn => absurd hy hn⟩
      rintro y rfl
      exact hx
    · cases ha : act x s with
      | error e =>
        rw [ha] at hv
        cases hv
      | ok r =>
        obtain ⟨cs, t⟩ := r
        rw [ha] at hv
        obtain ⟨rfl, hI1⟩ := h.step seen s x cs t hI hx ha
        obtain ⟨hI2, hm⟩ := each_spec (fun y => ih y) (next x) (x :: seen) t seen' s' hI1 hv
        have hmem : x ∈ seen' := hm.mono x List.mem_cons_self
        refine ⟨hI2, fun y hy => hm.mono y (List.mem_cons_of_mem _ hy), ?_, ?_, ?_⟩
        · rintro y rfl
          exact hmem
        · intro y hy hn
          by_cases hyx : y = x
          · exact ⟨x, rfl, hyx ▸ Reach.refl next y⟩
          · obtain ⟨r, hr, hreach⟩ := hm.reach y hy (by simp [hyx, hn])
            exact ⟨x, rfl, Reach.head hr hreach⟩
        · intro y hy hn z hz
          by_cases hyx : y = x
          · rw [hyx] at hz
            exact hm.roots z hz
          · exact hm.closed y hy (by simp [hyx, hn]) z hz

/-- from nothing marked, the marked nodes are the reachable ones -/
theorem visit_reach (h : Sound act next I) {n : Nat} {x : α} {s s' : σ} {seen' : List α}
    (hI : I [] s) (hv : visit act n x ([], s) = .ok (seen', s')) :
    I seen' s' ∧ ∀ y, y ∈ seen' ↔ Reach next x y := by
  obtain ⟨hI', hm⟩ := visit_spec h n x [] s seen' s' hI hv
  refine ⟨hI', fun y => ⟨fun hy => ?_, fun hr => ?_⟩⟩
  · obtain ⟨r, rfl, hr⟩ := hm.reach y hy List.not_mem_nil
    exact hr
  · exact hr.mem_closed (P := (· ∈ seen')) (fun z hz w hw => hm.closed z hz List.not_mem_nil w hw)
      (hm.roots x rfl)

omit [DecidableEq α] in
/-- a list is left at one of its members, in a state like the others -/
theorem each_error {f : α → List α × σ → Except (Halt ε) (List α × σ)} {o : Halt ε}
    {J : List α → σ → Prop}
    (hf : ∀ x seen s seen' s', J seen s → f x (seen, s) = .ok (seen', s') → J seen' s') :
    ∀ xs seen s, J seen s → each f xs (seen, s) = .error o →
      ∃ x ∈ xs, ∃ seen' s', J seen' s' ∧ f x (seen', s') = .error o := by
  intro xs
  induction xs with
  | nil =>
    intro seen s _ h
    cases h
  | cons x xs ih =>
    intro seen s hJ h
    unfold each at h
    cases hx : f x (seen, s) with
    | error e =>
      rw [hx] at h
      cases h
      exact ⟨x, List.mem_cons_self, seen, s, hJ, hx⟩
    | ok r =>
      obtain ⟨mid, t⟩ := r
      rw [hx] at h
      obtain ⟨y, hy, rest⟩ := ih mid t (hf x seen s mid t hJ hx) h
      exact ⟨y, List.mem_cons_of_mem _ hy, rest⟩

/-- **A traversal fails only where the action fails on a node within reach.** -/
theorem visit_fail (h : Sound act next I) {e : ε} : ∀ n x seen s, I seen s →
    visit act n x (seen, s) = .error (.fail e) →
      ∃ seen' s' y, I seen' s' ∧ y ∉ seen' ∧ Reach next x y ∧ act y s' = .error e := by
  intro n
  induction n with
  | zero =>
    intro x seen s _ hv
    cases hv
  | succ n ih =>
    intro x seen s hI hv
    unfold visit at hv
    split_ifs at hv with hx
    cases ha : act x s with
    | error e' =>
      rw [ha] at hv
      cases hv
      exact ⟨seen, s, x, hI, hx, Reach.refl next x, ha⟩
    | ok r =>
      obtain ⟨cs, t⟩ := r
      rw [ha] at hv
      obtain ⟨rfl, hI1⟩ := h.step seen s x cs t hI hx ha
      obtain ⟨y, hy, seen', s', hI', hfail⟩ := each_error (J := I)
        (fun y seen s seen' s' hIs hok => (visit_spec h n y seen s seen' s' hIs hok).1)
        (next x) (x :: seen) t hI1 hv
      obtain ⟨seen2, s2, z, hI2, hz, hreach, hact⟩ := ih y seen' s' hI' hfail
      exact ⟨seen2, s2, z, hI2, hz, Reach.head hy hreach, hact⟩

/-- **Fuel above the number of unmarked nodes is enough.**  `U` holds every node on which the
action succeeds. -/
theorem visit_ne_fuel (h : Sound act next I) {U : Finset α}
    (hU : ∀ seen s x r, I seen s → x ∉ seen → act x s = .ok r → x ∈ U) : ∀ n x seen s, I seen s →
    (U.filter (· ∉ seen)).card < n → visit act n x (seen, s) ≠ .error .fuel := by
  intro n
  induction n with
  | zero =>
    intro x seen s _ hc
    exact absurd hc (Nat.not_lt_zero _)
  | succ n ih =>
    intro x seen s hI hc hv
    unfold visit at hv
    split_ifs at hv with hx
    cases ha : act x s with
    | error e' =>
      rw [ha] at hv
      cases hv
    | ok r =>
      obtain ⟨cs, t⟩ := r
      have hxU := hU seen s x _ hI hx ha
      rw [ha] at hv
      obtain ⟨rfl, hI1⟩ := h.step seen s x cs t hI hx ha
      -- marking `x` uses up one of the unmarked nodes, and later marks only help
      have hless : (U.filter (· ∉ x :: seen)).card < n := by
        have hsub : U.filter (· ∉ x :: seen) ⊂ U.filter (· ∉ seen) := by
          rw [Finset.ssubset_iff_of_subset]
          · exact ⟨x, by simp [hxU, hx], by simp⟩
          · intro y hy
            simp only [Finset.mem_filter, List.mem_cons, not_or] at hy ⊢
            exact ⟨hy.1, hy.2.2⟩
        have hlt := Finset.card_lt_card hsub
        omega
      obtain ⟨y, _, seen', s', ⟨hI', hmono⟩, hfail⟩ := each_error
        (J := fun seen' s' => I seen' s' ∧ ∀ z ∈ x :: seen, z ∈ seen')
        (fun y seen1 s1 seen2 s2 hJ hok => by
          obtain ⟨hI2, hm⟩ := visit_spec h n y seen1 s1 seen2 s2 hJ.1 hok
          exact ⟨hI2, fun z hz => hm.mono z (hJ.2 z hz)⟩)
        (next x) (x :: seen) t ⟨hI1, fun _ hz => hz⟩ hv
      refine ih y seen' s' hI' (lt_of_le_of_lt (Finset.card_le_card ?_) hless) hfail
      intro z hz
      simp only [Finset.mem_filter] at hz ⊢
      exact ⟨hz.1, fun hmem => hz.2 (hmono z hmem)⟩

end

/-! ## cycles -/

/-- visit `x` and its successors; a node met again on the way down closes a cycle -/
def check (next : α → List α) (e : ε) :
    Nat → α → List α × List α → Except (Halt ε) (List α × List α)
  | 0, _, _ => .error .fuel
  | n + 1, x, (visiting, visited) =>
    if x ∈ visiting then .error (.fail e)
    else if x ∈ visited then .ok (visiting, visited)
    else match each (check next e n) (next x) (x :: visiting, visited) with
    | .error o => .error o
    | .ok (visiting', visited') => .ok (visiting'.erase x, x :: visited')

/-- no node that `x` reaches is below itself -/
def Acyclic (next : α → List α) (x : α) : Prop :=
  ∀ y, Reach next x y → ¬ Relation.TransGen (fun a b => b ∈ next a) y y

section
variable {next : α → List α} {e : ε}

omit [DecidableEq α] in
/-- a well-founded node is not below itself -/
theorem not_below_self {x : α} (h : Acc (fun a b => a ∈ next b) x) :
    ¬ Relation.TransGen (fun a b => b ∈ next a) x x := by
  have hacc := h.transGen
  induction hacc with
  | intro y _ ih =>
    intro hy
    have hswap : Relation.TransGen (fun a b => a ∈ next b) y y := Relation.transGen_swap.mpr hy
    exact ih y hswap (h.inv_of_transGen hswap) hy

/-- a node on the way is one of `U` less to come -/
theorem filter_visiting_ssubset {U : Finset α} {x : α} {visiting : List α} (hxU : x ∈ U)
    (hx : x ∉ visiting) : U.filter (· ∉ x :: visiting) ⊂ U.filter (· ∉ visiting) := by
  rw [Finset.ssubset_iff_of_subset]
  · exact ⟨x, by simp [hxU, hx], by simp⟩
  · intro y hy
    simp only [Finset.mem_filter, List.mem_cons, not_or] at hy ⊢
    exact ⟨hy.1, hy.2.2⟩

/-- **A node from which every descent ends passes the check**, and leaves the way as it was.
`U` holds every node with a successor. -/
theorem check_ok {U : Finset α} (hU : ∀ x, next x ≠ [] → x ∈ U) : ∀ n x visiting visited,
    Acc (fun a b => a ∈ next b) x →
    (∀ y ∈ visiting, Relation.TransGen (fun a b => b ∈ next a) y x) →
    (U.filter (· ∉ visiting)).card < n →
    ∃ visited', check next e n x (visiting, visited) = .ok (visiting, visited') := by
  intro n
  induction n with
  | zero =>
    intro x visiting visited _ _ hc
    exact absurd hc (Nat.not_lt_zero _)
  | succ n ih =>
    intro x visiting visited hacc hway hc
    have hnot : x ∉ visiting := fun hx => not_below_self hacc (hway x hx)
    unfold check
    rw [if_neg hnot]
    by_cases hdone : x ∈ visited
    · exact ⟨visited, if_pos hdone⟩
    rw [if_neg hdone]
    -- the successors in turn, with `x` on the way
    have hloop : ∀ xs, (∀ y ∈ xs, y ∈ next x) → ∀ visited, ∃ visited',
        each (check next e n) xs (x :: visiting, visited) = .ok (x :: visiting, visited') := by
      intro xs
      induction xs with
      | nil =>
        intro _ visited
        exact ⟨visited, rfl⟩
      | cons y ys ihs =>
        intro hsub visited
        have hy : y ∈ next x := hsub y List.mem_cons_self
        have hxU : x ∈ U := hU x (List.ne_nil_of_mem hy)
        have hless : (U.filter (· ∉ x :: visiting)).card < n := by
          have hlt := Finset.card_lt_card (filter_visiting_ssubset hxU hnot)
          omega
        have hway' : ∀ z ∈ x :: visiting, Relation.TransGen (fun a b => b ∈ next a) z y := by
          intro z hz
          rcases List.mem_cons.mp hz with rfl | hz
          · exact Relation.TransGen.single hy
          · exact Relation.TransGen.tail (hway z hz) hy
        obtain ⟨mid, hmid⟩ := ih y (x :: visiting) visited (hacc.inv hy) hway' hless
        obtain ⟨last, hlast⟩ := ihs (fun z hz => hsub z (List.mem_cons_of_mem _ hz)) mid
        refine ⟨last, ?_⟩
        unfold each
        rw [hmid]
        exact hlast
    obtain ⟨visited', hv⟩ := hloop (next x) (fun _ hy => hy) visited
    rw [hv]
    exact ⟨x :: visited', by simp⟩

omit [DecidableEq α] in
theorem acyclic_of_acc {x : α} (h : Acc (fun a b => a ∈ next b) x) : Acyclic next x := by
  intro y hy
  have hacc := hy.mem_closed (P := Acc (fun a b => a ∈ next b)) (fun _ hz _ hw => hz.inv hw) h
  exact not_below_self hacc

omit [DecidableEq α] in
/-- what holds of each member of a list that is visited -/
theorem each_forall {f : α → List α × σ → Except (Halt ε) (List α × σ)}
    {J : List α → σ → Prop} {P : α → Prop} (hf : ∀ x seen s seen' s', J seen s →
      f x (seen, s) = .ok (seen', s') → P x ∧ J seen' s') :
    ∀ xs seen s seen' s', J seen s → each f xs (seen, s) = .ok (seen', s') →
      (∀ x ∈ xs, P x) ∧ J seen' s' := by
  intro xs
  induction xs with
  | nil =>
    intro seen s seen' s' hJ h
    cases h
    exact ⟨(fun _ hx => nomatch hx), hJ⟩
  | cons x xs ih =>
    intro seen s seen' s' hJ h
    unfold each at h
    cases hx : f x (seen, s) with
    | error o =>
      rw [hx] at h
      cases h
    | ok r =>
      obtain ⟨mid, t⟩ := r
      rw [hx] at h
      obtain ⟨hPx, hJ1⟩ := hf x seen s mid t hJ hx
      obtain ⟨hPxs, hJ2⟩ := ih mid t seen' s' hJ1 h
      exact ⟨List.forall_mem_cons.mpr ⟨hPx, hPxs⟩, hJ2⟩

/-- **A node that passes the check has no infinite descent below it**, like the nodes done. -/
theorem check_acc : ∀ n x visiting visited visiting' visited',
    (∀ y ∈ visited, Acc (fun a b => a ∈ next b) y) →
    check next e n x (visiting, visited) = .ok (visiting', visited') →
    Acc (fun a b => a ∈ next b) x ∧ ∀ y ∈ visited', Acc (fun a b => a ∈ next b) y := by
  intro n
  induction n with
  | zero =>
    intro x visiting visited visiting' visited' _ h
    cases h
  | succ n ih =>
    intro x visiting visited visiting' visited' hdone h
    unfold check at h
    split_ifs at h with hway hx
    · cases h
      exact ⟨hdone x hx, hdone⟩
    · cases heach : each (check next e n) (next x) (x :: visiting, visited) with
      | error o =>
        rw [heach] at h
        cases h
      | ok r =>
        obtain ⟨mid, done⟩ := r
        rw [heach] at h
        cases h
        obtain ⟨hnext, hdone'⟩ := each_forall
          (J := fun _ done => ∀ y ∈ done, Acc (fun a b => a ∈ next b) y)
          (fun y seen s seen' s' hJ hok => ih y seen s seen' s' hJ hok)
          (next x) (x :: visiting) visited mid done hdone heach
        have hacc : Acc (fun a b => a ∈ next b) x := Acc.intro x hnext
        exact ⟨hacc, List.forall_mem_cons.mpr ⟨hacc, hdone'⟩⟩

/-- the way is left as it was found -/
theorem check_visiting : ∀ n x visiting visited visiting' visited',
    check next e n x (visiting, visited) = .ok (visiting', visited') → visiting' = visiting := by
  intro n
  induction n with
  | zero =>
    intro x visiting visited visiting' visited' h
    cases h
  | succ n ih =>
    intro x visiting visited visiting' visited' h
    unfold check at h
    split_ifs at h
    · cases h
      rfl
    · cases heach : each (check next e n) (next x) (x :: visiting, visited) with
      | error o =>
        rw [heach] at h
        cases h
      | ok r =>
        obtain ⟨mid, done⟩ := r
        rw [heach] at h
        cases h
        obtain ⟨_, hmid⟩ := each_forall (P := fun _ => True) (J := fun seen _ => seen = x :: visiting)
          (fun y seen s seen' s' hJ hok => ⟨trivial, (ih y seen s seen' s' hok).trans hJ⟩)
          (next x) (x :: visiting) visited mid done rfl heach
        rw [hmid, List.erase_cons_head]

/-- it fails with the error it was given -/
theorem check_fail {e' : ε} : ∀ n x visiting visited,
    check next e n x (visiting, visited) = .error (.fail e') → e' = e := by
  intro n
  induction n with
  | zero =>
    intro x visiting visited h
    cases h
  | succ n ih =>
    intro x visiting visited h
    unfold check at h
    split_ifs at h
    · cases h
      rfl
    · cases heach : each (check next e n) (next x) (x :: visiting, visited) with
      | error o =>
        rw [heach] at h
        cases h
        obtain ⟨y, _, seen', s', _, hfail⟩ := each_error (J := fun _ _ => True)
          (fun _ _ _ _ _ _ _ => trivial) (next x) (x :: visiting) visited trivial heach
        exact ih y seen' s' hfail
      | ok r =>
        obtain ⟨mid, done⟩ := r
        rw [heach] at h
        cases h

/-- **Fuel above the number of nodes with successors is enough**, also where there are cycles: the
nodes on the way are different, and each but the last has a successor. -/
theorem check_ne_fuel {U : Finset α} (hU : ∀ x, next x ≠ [] → x ∈ U) : ∀ n x visiting visited,
    (U.filter (· ∉ visiting)).card < n → check next e n x (visiting, visited) ≠ .error .fuel := by
  intro n
  induction n with
  | zero =>
    intro x visiting visited hc
    exact absurd hc (Nat.not_lt_zero _)
  | succ n ih =>
    intro x visiting visited hc h
    unfold check at h
    split_ifs at h with hway hdone
    · cases h
    · cases heach : each (check next e n) (next x) (x :: visiting, visited) with
      | ok r =>
        obtain ⟨mid, done⟩ := r
        rw [heach] at h
        cases h
      | error o =>
        rw [heach] at h
        cases h
        obtain ⟨y, hy, seen', s', rfl, hfail⟩ := each_error
          (J := fun seen _ => seen = x :: visiting)
          (fun y seen s seen' s' hJ hok => (check_visiting n y seen s seen' s' hok).trans hJ)
          (next x) (x :: visiting) visited rfl heach
        have hxU : x ∈ U := hU x (List.ne_nil_of_mem hy)
        have hless := Finset.card_lt_card (filter_visiting_ssubset hxU hway)
        exact ih y (x :: visiting) s' (by omega) hfail

omit [DecidableEq α] in
/-- `U` holds every node with a successor; the nodes of `U` below a node get fewer on the way -/
theorem acc_of_acyclic {U : Finset α} (hU : ∀ x, next x ≠ [] → x ∈ U) {x : α}
    (h : Acyclic next x) : Acc (fun a b => a ∈ next b) x := by
  classical
  induction hn : (U.filter (Relation.TransGen (fun a b => b ∈ next a) x)).card
    using Nat.strong_induction_on generalizing x with
  | _ n ih =>
    refine Acc.intro x fun y hy => ?_
    have hbelow : Acyclic next y := fun z hz => h z (Reach.head hy hz)
    by_cases hyU : y ∈ U
    · refine ih _ ?_ hbelow rfl
      rw [← hn]
      refine Finset.card_lt_card ((Finset.ssubset_iff_of_subset ?_).mpr ⟨y, ?_, ?_⟩)
      · intro z hz
        simp only [Finset.mem_filter] at hz ⊢
        exact ⟨hz.1, Relation.TransGen.head hy hz.2⟩
      · simp only [Finset.mem_filter]
        exact ⟨hyU, Relation.TransGen.single hy⟩
      · simp only [Finset.mem_filter, not_and]
        exact fun _ => hbelow y (Reach.refl next y)
    · have hleaf : next y = [] := by_contra fun hne => hyU (hU y hne)
      refine Acc.intro y fun z hz => ?_
      rw [hleaf] at hz
      cases hz

end

/-! ## one node with new successors -/

section
variable {next next' : α → List α} {h : α} (hagree : ∀ x, x ≠ h → next' x = next x)
include hagree
omit [DecidableEq α]

/-- up to the first visit of the node the paths are the same -/
theorem Reach.changed {x : α} (hx : Reach next x h) : Reach next' x h := by
  classical
  refine Relation.ReflTransGen.head_induction_on hx (Reach.refl next' h) ?_
  intro y z hstep _ ih
  by_cases hy : y = h
  · rw [hy]
    exact Reach.refl next' h
  · rw [← hagree y hy] at hstep
    exact Reach.head hstep ih

/-- a descent that does not come to the node is the same -/
theorem acc_changed_of_not_reach {x : α} (hx : Acc (fun a b => a ∈ next b) x)
    (hnot : ¬ Reach next x h) : Acc (fun a b => a ∈ next' b) x := by
  induction hx with
  | intro x _ ih =>
    refine Acc.intro x fun y hy => ?_
    have hne : x ≠ h := fun heq => hnot (heq ▸ Reach.refl next x)
    rw [hagree x hne] at hy
    exact ih y hy fun hr => hnot (Reach.head hy hr)

/-- a descent that comes to the node ends if the descents from there do -/
theorem acc_changed {x : α} (hx : Acc (fun a b => a ∈ next b) x)
    (hh : Acc (fun a b => a ∈ next' b) h) : Acc (fun a b => a ∈ next' b) x := by
  classical
  induction hx with
  | intro x _ ih =>
    by_cases hxh : x = h
    · exact hxh ▸ hh
    · refine Acc.intro x fun y hy => ?_
      rw [hagree x hxh] at hy
      exact ih y hy

/-- **New successors of a node within reach close a cycle** exactly if one of them reaches the node,
or a cycle. -/
theorem acc_changed_iff {x : α} (hx : Acc (fun a b => a ∈ next b) x) :
    Acc (fun a b => a ∈ next' b) x ↔
      (Reach next x h → ∀ y ∈ next' h, ¬ Reach next y h ∧ Acc (fun a b => a ∈ next b) y) := by
  constructor
  · intro hx' hr y hy
    have hh : Acc (fun a b => a ∈ next' b) h :=
      (hr.changed hagree).mem_closed (P := Acc (fun a b => a ∈ next' b))
        (fun _ hz _ hw => hz.inv hw) hx'
    have hnot : ¬ Reach next' y h := fun hback =>
      not_below_self hh (Relation.TransGen.head' hy hback)
    exact ⟨fun hback => hnot (hback.changed hagree),
      acc_changed_of_not_reach (fun z hz => (hagree z hz).symm) (hh.inv hy) hnot⟩
  · intro hnew
    by_cases hr : Reach next x h
    · refine acc_changed hagree hx (Acc.intro h fun y hy => ?_)
      obtain ⟨hnot, hy'⟩ := hnew hr y hy
      exact acc_changed_of_not_reach hagree hy' hnot
    · exact acc_changed_of_not_reach hagree hx hr

end

end Dfs
