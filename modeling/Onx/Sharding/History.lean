import Onx.Sharding.Inverse

/-!
# The history of splits and merges is forgotten

Whatever splits and merges led to an active shard, it holds what its prefix covers of the initial state.  So
two runs that lead to the same shards lead to the same states, up to the order of a queue that no transition
has touched.

* `restricted`                              what a shard holds of a state;
* `Restricted`                              the same, with its messages in whatever order;
* `restricted_part`, `restricted_joined`    a split and a merge keep to it;
* `settled_run`                             every state of every run;
* `history_forgotten`                       **the states are a function of the shards**.
-/

namespace Onx.Sharding

/-- the account belongs to the shard -/
def inShard (shard : ShardIdent) (a : AccountId) : Bool :=
  match shard.containsAccount a with
  | .ok b => b
  | .error _ => false

/-- what belongs to a shard, with the queue in canonical order -/
def restricted (c : Crypto) (initial : ShardState) (shard : ShardIdent) : ShardState where
  shard := shard
  accounts := initial.accounts.filterKeys (inShard shard)
  pendingMessages := sortMessages c
    (initial.pendingMessages.filter fun m => inShard shard m.destAddress.accountId)

/-- a state that holds what its shard covers -/
structure Restricted (initial s : ShardState) : Prop where
  accounts_eq : s.accounts = initial.accounts.filterKeys (inShard s.shard)
  messages_perm : s.pendingMessages.Perm
    (initial.pendingMessages.filter fun m => inShard s.shard m.destAddress.accountId)

section
variable {c : Crypto} {w : WorkchainIdent} {initial s a b : ShardState} {p : BitPrefix}

theorem Owns.inShard_eq (h : Owns w p s) : inShard s.shard = covered p := by
  funext x
  unfold inShard
  rw [h.shard, containsAccount_covered h.len]

theorem covered_of_child (hlen : p.len < 60) {d : Bool} {x : AccountId} (h : covered (p.child d) x = true) :
    covered p x = true := by
  rw [covered_child (by omega), Bool.and_eq_true] at h
  exact h.1

/-- what a child covers, of what its parent covers -/
theorem filter_child {α : Type} (hlen : p.len < 60) (d : Bool) (f : α → AccountId) (l : List α) :
    (l.filter fun x => covered p (f x)).filter (fun x => covered (p.child d) (f x))
      = l.filter fun x => covered (p.child d) (f x) := by
  rw [List.filter_filter]
  refine List.filter_congr fun x _ => ?_
  cases h : covered (p.child d) (f x) with
  | false => rfl
  | true =>
    rw [covered_of_child hlen h]
    rfl

/-- what both children cover -/
theorem perm_filter_both {α : Type} (hlen : p.len < 60) (d : Bool) (f : α → AccountId) (l : List α) :
    ((l.filter fun x => covered (p.child d) (f x)) ++ l.filter fun x => covered (p.child (!d)) (f x)).Perm
      (l.filter fun x => covered p (f x)) := by
  have h := perm_filter_children hlen f (l.filter fun x => covered p (f x)) fun x hx => (List.mem_filter.mp hx).2
  rw [filter_child hlen, filter_child hlen] at h
  cases d with
  | false => exact h
  | true => exact List.perm_append_comm.trans h

/-! ## a split and a merge -/

theorem restricted_part (hlen : p.len < 60) (hown : Owns w p s) (h : Restricted initial s) (d : Bool) :
    Restricted initial (part c w s (p.child d)) := by
  have hin := hown.inShard_eq
  have hin' := (owns_part (c := c) hown hlen d).inShard_eq
  obtain ⟨haccounts, hmessages⟩ := h
  rw [hin] at haccounts hmessages
  refine ⟨?_, ?_⟩
  · rw [hin']
    show s.accounts.filterKeys _ = _
    rw [haccounts]
    exact OrdMap.ext_perm (List.Perm.of_eq (filter_child hlen d Prod.fst initial.accounts.entries))
  · rw [hin', ← filter_child hlen]
    exact (perm_sortMessages _).trans (hmessages.filter _)

theorem restricted_joined {d : Bool} (hlen : p.len < 60) (hown : Owns w (p.child d) a)
    (hown' : Owns w (p.child (!d)) b) (ha : Restricted initial a) (hb : Restricted initial b) :
    Restricted initial (joined c w p a b) := by
  have hin := (owns_joined (c := c) hlen hown hown').inShard_eq
  obtain ⟨haccounts, hmessages⟩ := ha
  obtain ⟨haccounts', hmessages'⟩ := hb
  rw [hown.inShard_eq] at haccounts hmessages
  rw [hown'.inShard_eq] at haccounts' hmessages'
  refine ⟨?_, ?_⟩
  · rw [hin]
    refine OrdMap.ext_perm ((perm_joined_accounts hlen hown hown').trans ?_)
    rw [haccounts, haccounts']
    exact perm_filter_both hlen d Prod.fst initial.accounts.entries
  · rw [hin]
    refine (perm_sortMessages _).trans ((hmessages.append hmessages').trans ?_)
    exact perm_filter_both hlen d (fun m : Message => m.destAddress.accountId) initial.pendingMessages

/-! ## runs -/

theorem sortMessages_sortMessages (ms : List Message) :
    sortMessages c (sortMessages c ms) = sortMessages c ms :=
  List.Pairwise.insertionSort_eq (KeySort.pairwise_sort ms)

/-- an active state, with its queue in canonical order unless it is the initial one -/
structure Settled (c : Crypto) (initial s : ShardState) : Prop where
  restricted : Restricted initial s
  ordered : s = initial ∨ s.sorted c = s

theorem ordered_of_sorted {shard : ShardIdent} {accounts : OrdMap AccountId AccountState} {ms : List Message} :
    ShardState.sorted c ⟨shard, accounts, sortMessages c ms⟩ = ⟨shard, accounts, sortMessages c ms⟩ :=
  congrArg (ShardState.mk shard accounts) (sortMessages_sortMessages ms)

/-- **A transition keeps to what the shards cover.** -/
theorem settled_apply {active : List ShardState} (t : Transition) (h : ∀ s ∈ active, Settled c initial s) :
    ∀ s ∈ t.apply c active, Settled c initial s := by
  rcases apply_cases (c := c) active t with hsame | ⟨s, l, r, rest, hp, hs, happ⟩ |
    ⟨a, b, s, rest, hp, hm, happ⟩
  · rwa [hsame]
  · obtain ⟨w, p, hlen, hown, rfl, rfl⟩ := splitShardState_iff.mp hs
    have hin := h s (hp.mem_iff.mpr List.mem_cons_self)
    have hpart : ∀ d, Settled c initial (part c w s (p.child d)) := fun d =>
      ⟨restricted_part hlen hown hin.restricted d, .inr ordered_of_sorted⟩
    rw [happ]
    intro t ht
    rcases List.mem_cons.mp ht with rfl | ht
    · exact hpart false
    rcases List.mem_cons.mp ht with rfl | ht
    · exact hpart true
    · exact h t (hp.mem_iff.mpr (List.mem_cons_of_mem _ ht))
  · obtain ⟨w, p, d, hlen, hown, hown', rfl⟩ := mergeShardStates_iff.mp hm
    have hin := h a (hp.mem_iff.mpr List.mem_cons_self)
    have hin' := h b (hp.mem_iff.mpr (List.mem_cons_of_mem _ List.mem_cons_self))
    rw [happ]
    intro t ht
    rcases List.mem_cons.mp ht with rfl | ht
    · exact ⟨restricted_joined hlen hown hown' hin.restricted hin'.restricted, .inr ordered_of_sorted⟩
    · exact h t (hp.mem_iff.mpr (List.mem_cons_of_mem _ (List.mem_cons_of_mem _ ht)))

theorem restricted_root (accounts : OrdMap AccountId AccountState) (messages : List Message) :
    Restricted ⟨.root w, accounts, messages⟩ ⟨.root w, accounts, messages⟩ := by
  have hin : inShard (.root w) = fun _ => true := by
    funext x
    unfold inShard
    rw [ShardIdent.root_eq, containsAccount_covered (Nat.zero_le _), covered_root]
  refine ⟨?_, ?_⟩
  · rw [hin]
    exact OrdMap.ext_perm (List.Perm.of_eq (List.filter_eq_self.mpr fun _ _ => rfl).symm)
  · rw [hin]
    exact List.Perm.of_eq (List.filter_eq_self.mpr fun _ _ => rfl).symm

theorem settled_run (accounts : OrdMap AccountId AccountState) (messages : List Message) (ts : List Transition) :
    ∀ s ∈ Runs.run (Transition.apply c) [⟨.root w, accounts, messages⟩] ts,
      Settled c ⟨.root w, accounts, messages⟩ s := by
  refine Runs.run_inv (I := fun active => ∀ s ∈ active, Settled c ⟨.root w, accounts, messages⟩ s)
    (fun _ t h => settled_apply t h) ts fun s hs => ?_
  rw [List.mem_singleton.mp hs]
  exact ⟨restricted_root accounts messages, .inl rfl⟩

theorem Restricted.sorted_eq (h : Restricted initial s) (hd : DistinctHashes c initial.pendingMessages) :
    s.sorted c = restricted c initial s.shard := by
  unfold ShardState.sorted restricted
  rw [h.accounts_eq, sortMessages_congr (hd.subset fun m hm => ?_) h.messages_perm]
  exact (List.mem_filter.mp (h.messages_perm.mem_iff.mp hm)).1

end

/-- **The history of splits and merges is forgotten.** After any run from a state of the root shard, in which no
two messages share a hash, every active state is what its shard covers of the initial state, with its queue in
order if there was any transition; so runs that lead to the same shards lead to the same states. -/
theorem history_forgotten (c : Crypto) (w : WorkchainIdent) (accounts : OrdMap AccountId AccountState)
    (messages : List Message) (hd : DistinctHashes c messages) (ts us : List Transition) :
    (∀ s ∈ Runs.run (Transition.apply c) [⟨.root w, accounts, messages⟩] ts,
      s.sorted c = restricted c ⟨.root w, accounts, messages⟩ s.shard
      ∧ (s = ⟨.root w, accounts, messages⟩ ∨ s.sorted c = s))
    ∧ (((Runs.run (Transition.apply c) [⟨.root w, accounts, messages⟩] ts).map ShardState.shard).Perm
        ((Runs.run (Transition.apply c) [⟨.root w, accounts, messages⟩] us).map ShardState.shard) →
      ((Runs.run (Transition.apply c) [⟨.root w, accounts, messages⟩] ts).map (ShardState.sorted c)).Perm
        ((Runs.run (Transition.apply c) [⟨.root w, accounts, messages⟩] us).map (ShardState.sorted c))) := by
  have hrun : ∀ ts, (Runs.run (Transition.apply c) [⟨.root w, accounts, messages⟩] ts).map (ShardState.sorted c)
      = ((Runs.run (Transition.apply c) [⟨.root w, accounts, messages⟩] ts).map ShardState.shard).map
        (restricted c ⟨.root w, accounts, messages⟩) := by
    intro ts
    rw [List.map_map]
    exact List.map_congr_left fun s hs => (settled_run accounts messages ts s hs).restricted.sorted_eq hd
  refine ⟨fun s hs => ?_, fun hshards => ?_⟩
  · have h := settled_run accounts messages ts s hs
    exact ⟨h.restricted.sorted_eq hd, h.ordered⟩
  · rw [hrun ts, hrun us]
    exact hshards.map _

/-- a split, and a split whose first child was split and merged again -/
theorem history_forgotten_sample :
    ((Runs.run (Transition.apply sampleCrypto)
        [⟨.root WorkchainIdent.BASIC, sampleState.accounts, sampleState.pendingMessages⟩]
        [.split 0]).map (ShardState.sorted sampleCrypto)).Perm
      ((Runs.run (Transition.apply sampleCrypto)
        [⟨.root WorkchainIdent.BASIC, sampleState.accounts, sampleState.pendingMessages⟩]
        [.split 0, .split 0, .merge 0 0]).map (ShardState.sorted sampleCrypto)) :=
  (history_forgotten sampleCrypto WorkchainIdent.BASIC sampleState.accounts sampleState.pendingMessages
    (by decide +kernel) [.split 0] [.split 0, .split 0, .merge 0 0]).2 (by decide +kernel)

end Onx.Sharding
