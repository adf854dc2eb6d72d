import Onx.Sharding.Pipeline
import Onx.Lib.Runs

/-!
# Dynamic sharding partitions and conserves

Splits and merges of the active shards of a workchain, in any order, from one state of its root shard.

* `Conserved`           what holds of the active shards: they partition the account identifiers, and
                        hold the accounts and pending messages of the initial state, each where it
                        belongs;
* `apply_cases`         what one transition does to the active shards, up to their order;
* `sharding_conserves`  after every run.
-/

namespace Onx.Sharding

/-- split an active shard, or merge one with another of the rest -/
inductive Transition where
  | split (i : Nat)
  | merge (i j : Nat)

/-- an accepted transition replaces its inputs by its outputs, another one changes nothing -/
def Transition.apply (c : Crypto) (active : List ShardState) : Transition → List ShardState
  | .split i =>
    match active[i]? with
    | none => active
    | some s =>
      match splitShardState c s with
      | .error _ => active
      | .ok (left, right) => left :: right :: active.eraseIdx i
  | .merge i j =>
    match active[i]?, (active.eraseIdx i)[j]? with
    | some first, some second =>
      match mergeShardStates c first second with
      | .error _ => active
      | .ok s => s :: (active.eraseIdx i).eraseIdx j
    | _, _ => active

/-- the account belongs to the shard of this state -/
def ShardState.contains (s : ShardState) (a : AccountId) : Bool :=
  match s.shard.containsAccount a with
  | .ok b => b
  | .error _ => false

/-- the active shards partition the accounts and conserve the initial state -/
structure Conserved (initial : ShardState) (active : List ShardState) : Prop where
  /-- every identifier belongs to exactly one active shard -/
  one : ∀ a, active.countP (fun s => s.contains a) = 1
  accounts : (active.flatMap (fun s => s.accounts.entries)).Perm initial.accounts.entries
  messages : (active.flatMap ShardState.pendingMessages).Perm initial.pendingMessages
  /-- accounts and messages are in the shard that contains them -/
  home : ∀ s ∈ active, (∀ a ∈ s.accounts.keys, s.contains a = true)
    ∧ ∀ m ∈ s.pendingMessages, s.contains m.destAddress.accountId = true
  owned : initial.validateOwnership = .ok () → ∀ s ∈ active, s.validateOwnership = .ok ()
  /-- a state with messages for other workchains cannot be split -/
  stuck : initial.validateOwnership ≠ .ok () → active = [initial]

/-! ## one transition -/

section
variable {c : Crypto} {w : WorkchainIdent}

theorem perm_of_getElem? {α : Type} {l : List α} {i : Nat} {x : α} (h : l[i]? = some x) :
    l.Perm (x :: l.eraseIdx i) := by
  obtain ⟨hi, rfl⟩ := List.getElem?_eq_some_iff.mp h
  exact (List.getElem_cons_eraseIdx_perm hi).symm

theorem apply_cases (active : List ShardState) (t : Transition) :
    t.apply c active = active
    ∨ (∃ s l r rest, active.Perm (s :: rest) ∧ splitShardState c s = .ok (l, r)
      ∧ t.apply c active = l :: r :: rest)
    ∨ ∃ a b s rest, active.Perm (a :: b :: rest) ∧ mergeShardStates c a b = .ok s
      ∧ t.apply c active = s :: rest := by
  cases t with
  | split i =>
    unfold Transition.apply
    cases hi : active[i]? with
    | none => simp [hi]
    | some s =>
      cases hs : splitShardState c s with
      | error e => simp [hi, hs]
      | ok lr => exact Or.inr (Or.inl ⟨s, lr.1, lr.2, _, perm_of_getElem? hi, hs, by simp [hi, hs]⟩)
  | merge i j =>
    unfold Transition.apply
    cases hi : active[i]? with
    | none => simp [hi]
    | some a =>
      cases hj : (active.eraseIdx i)[j]? with
      | none => simp [hi, hj]
      | some b =>
        cases hm : mergeShardStates c a b with
        | error e => simp [hi, hj, hm]
        | ok s =>
          refine Or.inr (Or.inr ⟨a, b, s, (active.eraseIdx i).eraseIdx j, ?_, hm, by simp [hi, hj, hm]⟩)
          exact (perm_of_getElem? hi).trans ((perm_of_getElem? hj).cons a)

theorem contains_eq {p : BitPrefix} {s : ShardState} (h : Owns w p s) (a : AccountId) :
    s.contains a = covered p a := by
  unfold ShardState.contains
  rw [h.shard, containsAccount_covered h.len]

/-- the invariant of a run from a state that holds its own accounts and messages -/
structure Split (w : WorkchainIdent) (initial : ShardState) (active : List ShardState) : Prop where
  owns : ∀ s ∈ active, ∃ p, Owns w p s
  one : ∀ a, active.countP (fun s => s.contains a) = 1
  accounts : (active.flatMap (fun s => s.accounts.entries)).Perm initial.accounts.entries
  messages : (active.flatMap ShardState.pendingMessages).Perm initial.pendingMessages

theorem Split.perm {initial : ShardState} {active active' : List ShardState}
    (h : Split w initial active) (hp : active.Perm active') : Split w initial active' where
  owns s hs := h.owns s (hp.mem_iff.mpr hs)
  one a := (hp.countP_eq _).symm.trans (h.one a)
  accounts := (hp.flatMap_right _).symm.trans h.accounts
  messages := (hp.flatMap_right _).symm.trans h.messages

/-- two shards in the place of one that hold the same together -/
theorem Split.replace {initial a b s : ShardState} {rest : List ShardState} {p q r : BitPrefix}
    (ha : Owns w p a) (hb : Owns w q b) (hs : Owns w r s)
    (hcov : ∀ x, (covered p x).toNat + (covered q x).toNat = (covered r x).toNat)
    (hacc : (a.accounts.entries ++ b.accounts.entries).Perm s.accounts.entries)
    (hmsg : (a.pendingMessages ++ b.pendingMessages).Perm s.pendingMessages) :
    Split w initial (a :: b :: rest) ↔ Split w initial (s :: rest) := by
  have hone : ∀ x, (a :: b :: rest).countP (fun t => t.contains x)
      = (s :: rest).countP (fun t => t.contains x) := by
    intro x
    have h := hcov x
    simp only [List.countP_cons, contains_eq ha, contains_eq hb, contains_eq hs]
    cases hp : covered p x <;> cases hq : covered q x <;> cases hr : covered r x <;>
      simp [hp, hq, hr] at h ⊢
  have hentries : ((a :: b :: rest).flatMap (fun t => t.accounts.entries)).Perm
      ((s :: rest).flatMap (fun t => t.accounts.entries)) := by
    simp only [List.flatMap_cons, ← List.append_assoc]
    exact hacc.append_right _
  have hpending : ((a :: b :: rest).flatMap ShardState.pendingMessages).Perm
      ((s :: rest).flatMap ShardState.pendingMessages) := by
    simp only [List.flatMap_cons, ← List.append_assoc]
    exact hmsg.append_right _
  constructor
  · intro h
    refine ⟨fun t ht => ?_, fun x => (hone x).symm.trans (h.one x), hentries.symm.trans h.accounts,
      hpending.symm.trans h.messages⟩
    rcases List.mem_cons.mp ht with rfl | ht
    · exact ⟨r, hs⟩
    · exact h.owns t (List.mem_cons_of_mem _ (List.mem_cons_of_mem _ ht))
  · intro h
    refine ⟨fun t ht => ?_, fun x => (hone x).trans (h.one x), hentries.trans h.accounts,
      hpending.trans h.messages⟩
    rcases List.mem_cons.mp ht with rfl | ht
    · exact ⟨p, ha⟩
    rcases List.mem_cons.mp ht with rfl | ht
    · exact ⟨q, hb⟩
    · exact h.owns t (List.mem_cons_of_mem _ ht)

theorem covered_children (p : BitPrefix) (hlen : p.len < 60) (b : Bool) (a : AccountId) :
    (covered (p.child b) a).toNat + (covered (p.child (!b)) a).toNat = (covered p a).toNat := by
  rw [covered_child (by omega), covered_child (by omega)]
  cases covered p a <;> cases a.id.toNat.testBit (256 - 1 - p.len) <;> cases b <;> rfl

/-- what a prefix covers falls to one of its children -/
theorem perm_filter_children {α : Type} {p : BitPrefix} (hlen : p.len < 60) (f : α → AccountId)
    (l : List α) (h : ∀ x ∈ l, covered p (f x) = true) :
    (l.filter (fun x => covered (p.child false) (f x))
      ++ l.filter (fun x => covered (p.child true) (f x))).Perm l := by
  have hother : l.filter (fun x => covered (p.child true) (f x))
      = l.filter (fun x => !covered (p.child false) (f x)) := by
    refine List.filter_congr fun x hx => ?_
    have hcov := covered_not_child (p:=p) (by omega) false (f x)
    rw [h x hx, Bool.true_and] at hcov
    exact hcov
  rw [hother]
  exact List.filter_append_perm (fun x => covered (p.child false) (f x)) l

theorem perm_parts_accounts {p : BitPrefix} {s : ShardState} (hlen : p.len < 60) (h : Owns w p s) :
    ((part c w s (p.child false)).accounts.entries ++ (part c w s (p.child true)).accounts.entries).Perm
      s.accounts.entries :=
  perm_filter_children hlen Prod.fst s.accounts.entries fun e he =>
    h.accounts e.1 (List.mem_map_of_mem he)

theorem perm_sortMessages (ms : List Message) : (sortMessages c ms).Perm ms :=
  List.perm_insertionSort _ _

theorem perm_parts_messages {p : BitPrefix} {s : ShardState} (hlen : p.len < 60) (h : Owns w p s) :
    ((part c w s (p.child false)).pendingMessages
      ++ (part c w s (p.child true)).pendingMessages).Perm s.pendingMessages := by
  refine ((perm_sortMessages _).append (perm_sortMessages _)).trans ?_
  exact perm_filter_children hlen (fun m : Message => m.destAddress.accountId) s.pendingMessages
    fun m hm => (h.messages m hm).2

/-- **A transition keeps the invariant.** -/
theorem Split.apply {initial : ShardState} {active : List ShardState} (t : Transition)
    (h : Split w initial active) : Split w initial (t.apply c active) := by
  rcases apply_cases (c := c) active t with hsame | ⟨s, l, r, rest, hp, hs, happ⟩ |
    ⟨a, b, s, rest, hp, hm, happ⟩
  · rwa [hsame]
  · obtain ⟨w', p, hlen, hown, rfl, rfl⟩ := splitShardState_iff.mp hs
    obtain ⟨q, hq⟩ := h.owns s (hp.mem_iff.mpr List.mem_cons_self)
    have hw : w' = w := congrArg ShardIdent.workchainId (hown.shard.symm.trans hq.shard)
    rw [hw] at hown happ
    rw [happ]
    exact (Split.replace (owns_part hown hlen false) (owns_part hown hlen true) hown
      (covered_children p hlen false) (perm_parts_accounts hlen hown)
      (perm_parts_messages hlen hown)).mpr (h.perm hp)
  · obtain ⟨w', p, d, hlen, ha, hb, rfl⟩ := mergeShardStates_iff.mp hm
    obtain ⟨q, hq⟩ := h.owns a (hp.mem_iff.mpr List.mem_cons_self)
    have hw : w' = w := congrArg ShardIdent.workchainId (ha.shard.symm.trans hq.shard)
    rw [hw] at ha hb happ
    rw [happ]
    exact (Split.replace ha hb (owns_joined hlen ha hb) (covered_children p hlen d)
      (perm_joined_accounts hlen ha hb).symm (perm_sortMessages _).symm).mp (h.perm hp)

/-! ## runs -/

theorem owns_root (initial : ShardState) (hroot : initial.shard = ShardIdent.root w) :
    initial.validateOwnership = .ok () ↔ Owns w BitPrefix.root initial :=
  validateOwnership_iff (Nat.zero_le _) hroot

theorem covered_root (a : AccountId) : covered BitPrefix.root a = true :=
  decide_eq_true (BitPrefix.covers_root a.id.isLt)

theorem contains_root {initial : ShardState} (hroot : initial.shard = ShardIdent.root w)
    (a : AccountId) : initial.contains a = true := by
  unfold ShardState.contains
  rw [hroot, ShardIdent.root_eq, containsAccount_covered (Nat.zero_le _), covered_root]

/-- a single state that holds foreign messages stays as it is -/
theorem apply_stuck {initial : ShardState} (hval : initial.validateOwnership ≠ .ok ())
    (t : Transition) : t.apply c [initial] = [initial] := by
  rcases apply_cases (c := c) [initial] t with hsame | ⟨s, l, r, rest, hp, hs, _⟩ |
    ⟨a, b, s, rest, hp, _, _⟩
  · exact hsame
  · exfalso
    have hmem : s = initial := List.mem_singleton.mp (hp.mem_iff.mpr List.mem_cons_self)
    obtain ⟨w', p, hlen, hown, _⟩ := splitShardState_iff.mp hs
    rw [hmem] at hown
    exact hval ((validateOwnership_iff hown.len hown.shard).mpr hown)
  · have hlen := hp.length_eq
    simp at hlen

end

/-- **Dynamic sharding partitions and conserves**: after any run of splits and merges from a state of
the root shard. -/
theorem sharding_conserves (c : Crypto) (w : WorkchainIdent) (accounts : OrdMap AccountId AccountState)
    (messages : List Message) (ts : List Transition) :
    Conserved ⟨.root w, accounts, messages⟩
      (Runs.run (Transition.apply c) [⟨.root w, accounts, messages⟩] ts) := by
  by_cases hval : (ShardState.mk (.root w) accounts messages).validateOwnership = .ok ()
  · have hown := (owns_root (w:=w) _ rfl).mp hval
    have hinit : Split w ⟨.root w, accounts, messages⟩ [⟨.root w, accounts, messages⟩] := by
      refine ⟨fun s hs => ?_, fun a => ?_, by simp, by simp⟩
      · rw [List.mem_singleton.mp hs]
        exact ⟨_, hown⟩
      · simp [contains_root (w:=w)]
    have h := Runs.run_inv (I := Split w ⟨.root w, accounts, messages⟩)
      (fun _ t h => h.apply (c:=c) t) ts hinit
    refine ⟨h.one, h.accounts, h.messages, fun s hs => ?_, fun _ s hs => ?_, fun hno => absurd hval hno⟩
    · obtain ⟨p, hp⟩ := h.owns s hs
      refine ⟨fun a ha => ?_, fun m hm => ?_⟩
      · rw [contains_eq hp]
        exact hp.accounts a ha
      · rw [contains_eq hp]
        exact (hp.messages m hm).2
    · obtain ⟨p, hp⟩ := h.owns s hs
      exact (validateOwnership_iff hp.len hp.shard).mpr hp
  · have h := Runs.run_inv (I := fun active => active = [ShardState.mk (.root w) accounts messages])
      (fun active t h => by rw [h]; exact apply_stuck (c:=c) hval t) ts rfl
    rw [h]
    refine ⟨fun a => by simp [contains_root (w:=w)], by simp, by simp, fun s hs => ?_,
      fun hok => absurd hok hval, fun _ => rfl⟩
    rw [List.mem_singleton.mp hs]
    exact ⟨fun a _ => contains_root (w:=w) rfl a, fun m _ => contains_root (w:=w) rfl _⟩

end Onx.Sharding
