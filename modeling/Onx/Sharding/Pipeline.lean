import Onx.DataStructures.Message
import Onx.State.Account
import Onx.Sharding.Tree
import Mathlib.Data.Prod.Lex
import Mathlib.Data.List.Sort

/-!
# State migration at a split or merge

The accounts and pending messages of a shard are moved to its two children, or those of two siblings
to their parent.

* `validateOwnership_iff`   the check that a shard state holds its own accounts and messages;
* `splitShardState_iff`     a split gives each child its part of the state: `part`;
* `mergeShardStates_iff`    a merge joins the states of two siblings: `joined`.
-/

namespace Onx.Sharding

/-- the accounts and pending messages of an active shard -/
structure ShardState where
  shard : ShardIdent
  accounts : OrdMap AccountId AccountState
  pendingMessages : List Message

/-! ## ownership -/

/-- the loop of `validate_ownership` over the accounts -/
def validateAccounts (shard : ShardIdent) : List AccountId → Except ShardingError Unit
  | [] => .ok ()
  | account :: rest =>
    match shard.containsAccount account with
    | .error _ => .error .accountOutsideShard
    | .ok false => .error .accountOutsideShard
    | .ok true => validateAccounts shard rest

/-- the loop of `validate_ownership` over the messages -/
def validateMessages (shard : ShardIdent) : List Message → Except ShardingError Unit
  | [] => .ok ()
  | message :: rest =>
    match message.validateDestShard shard with
    | .error _ => .error .messageOutsideShard
    | .ok () => validateMessages shard rest

def ShardState.validateOwnership (self : ShardState) : Except ShardingError Unit :=
  match validateAccounts self.shard self.accounts.keys with
  | .error e => .error e
  | .ok () => validateMessages self.shard self.pendingMessages

/-! ## the two transitions -/

/-- the loop of `split_shard_state` over the accounts -/
def splitAccounts (leftShard : ShardIdent) :
    List (AccountId × AccountState) → OrdMap AccountId AccountState → OrdMap AccountId AccountState →
      Except ShardingError (OrdMap AccountId AccountState × OrdMap AccountId AccountState)
  | [], left, right => .ok (left, right)
  | (account, state) :: rest, left, right =>
    match leftShard.containsAccount account with
    | .error _ => .error .accountOutsideShard
    | .ok true => splitAccounts leftShard rest (left.insert account state) right
    | .ok false => splitAccounts leftShard rest left (right.insert account state)

/-- the loop of `split_shard_state` over the messages -/
def splitMessages (leftShard rightShard : ShardIdent) :
    List Message → List Message → List Message → Except ShardingError (List Message × List Message)
  | [], left, right => .ok (left, right)
  | message :: rest, left, right =>
    match message.validateDestShard leftShard with
    | .ok () => splitMessages leftShard rightShard rest (left ++ [message]) right
    | .error _ =>
      match message.validateDestShard rightShard with
      | .ok () => splitMessages leftShard rightShard rest left (right ++ [message])
      | .error _ => .error .messageOutsideShard

section
variable (c : Crypto)

/-- logical time, ties by the message hash -/
def sortKey (m : Message) : Uint64 ×ₗ Uint256 := toLex (m.createdLt, m.messageHash c)

/-- a stable sort -/
def sortMessages (messages : List Message) : List Message :=
  messages.insertionSort (fun left right => sortKey c left ≤ sortKey c right)

def splitShardState (parent : ShardState) : Except ShardingError (ShardState × ShardState) :=
  match parent.validateOwnership with
  | .error e => .error e
  | .ok () =>
    match ShardTreeNode.splitLeaf (.newLeaf parent.shard) with
    | .error e => .error e
    | .ok (.internal _ (.leaf leftShard _ _) (.leaf rightShard _ _)) =>
      match splitAccounts leftShard parent.accounts.entries OrdMap.empty OrdMap.empty with
      | .error e => .error e
      | .ok (leftAccounts, rightAccounts) =>
        match splitMessages leftShard rightShard parent.pendingMessages [] [] with
        | .error e => .error e
        | .ok (leftMessages, rightMessages) =>
          .ok (⟨leftShard, leftAccounts, sortMessages c leftMessages⟩,
            ⟨rightShard, rightAccounts, sortMessages c rightMessages⟩)
    -- `unreachable!`: a leaf splits into two leaves
    | .ok _ => .error .invalidShardPrefixLength

def mergeShardStates (first second : ShardState) : Except ShardingError ShardState :=
  match first.validateOwnership with
  | .error e => .error e
  | .ok () =>
    match second.validateOwnership with
    | .error e => .error e
    | .ok () =>
      match commonParent first.shard second.shard with
      | .error e => .error e
      | .ok parent =>
        .ok ⟨parent, first.accounts.extend second.accounts,
          sortMessages c (first.pendingMessages ++ second.pendingMessages)⟩

end

/-! ## what belongs to a prefix -/

/-- the account starts with the prefix -/
def covered (p : BitPrefix) (a : AccountId) : Bool := decide (p.covers 256 a.id.toNat)

theorem covered_child {p : BitPrefix} (hlen : p.len < 256) (b : Bool) (a : AccountId) :
    covered (p.child b) a = (covered p a && (a.id.toNat.testBit (256 - 1 - p.len) == b)) := by
  rw [Bool.eq_iff_iff, Bool.and_eq_true, beq_iff_eq]
  simp only [covered, decide_eq_true_eq]
  exact BitPrefix.covers_child_iff hlen

theorem covered_not_child {p : BitPrefix} (hlen : p.len < 256) (b : Bool) (a : AccountId) :
    covered (p.child (!b)) a = (covered p a && !covered (p.child b) a) := by
  rw [covered_child hlen, covered_child hlen]
  cases covered p a <;> cases a.id.toNat.testBit (256 - 1 - p.len) <;> cases b <;> rfl

/-- the state is that of the shard with this prefix, and holds nothing else -/
structure Owns (w : WorkchainIdent) (p : BitPrefix) (s : ShardState) : Prop where
  len : p.len ≤ 60
  shard : s.shard = .ofPrefix w p
  accounts : ∀ a ∈ s.accounts.keys, covered p a = true
  messages : ∀ m ∈ s.pendingMessages, m.destAddress.workchainId = w
    ∧ covered p m.destAddress.accountId = true

section
variable {w : WorkchainIdent} {p : BitPrefix}

theorem containsAccount_covered (hlen : p.len ≤ 60) (a : AccountId) :
    (ShardIdent.ofPrefix w p).containsAccount a = .ok (covered p a) :=
  ShardIdent.containsAccount_ofPrefix hlen a

theorem validateDestShard_covered (hlen : p.len ≤ 60) (m : Message) :
    m.validateDestShard (.ofPrefix w p) = .ok () ↔
      m.destAddress.workchainId = w ∧ covered p m.destAddress.accountId = true := by
  unfold Message.validateDestShard ShardIdent.validateFullAddress ShardIdent.validateAccountId
  rw [containsAccount_covered hlen]
  show (if w ≠ m.destAddress.workchainId then _ else _) = _ ↔ _
  split_ifs with hw
  · exact iff_of_false (by simp) (fun h => hw h.1.symm)
  · rw [not_not] at hw
    cases covered p m.destAddress.accountId <;> simp [hw]

theorem validateAccounts_iff (hlen : p.len ≤ 60) (as : List AccountId) :
    validateAccounts (.ofPrefix w p) as = .ok () ↔ ∀ a ∈ as, covered p a = true := by
  induction as with
  | nil => simp [validateAccounts]
  | cons a as ih =>
    unfold validateAccounts
    rw [containsAccount_covered hlen]
    cases hcov : covered p a with
    | false => simp [hcov]
    | true => simp [hcov, ih]

theorem validateMessages_iff (hlen : p.len ≤ 60) (ms : List Message) :
    validateMessages (.ofPrefix w p) ms = .ok () ↔
      ∀ m ∈ ms, m.destAddress.workchainId = w ∧ covered p m.destAddress.accountId = true := by
  induction ms with
  | nil => simp [validateMessages]
  | cons m ms ih =>
    unfold validateMessages
    rw [List.forall_mem_cons, ← validateDestShard_covered hlen, ← ih]
    cases m.validateDestShard (.ofPrefix w p) with
    | error e => simp
    | ok u => simp

theorem validateOwnership_iff {s : ShardState} (hlen : p.len ≤ 60) (hs : s.shard = .ofPrefix w p) :
    s.validateOwnership = .ok () ↔ Owns w p s := by
  unfold ShardState.validateOwnership
  rw [hs]
  have ha := validateAccounts_iff (w:=w) hlen s.accounts.keys
  have hm := validateMessages_iff (w:=w) hlen s.pendingMessages
  constructor
  · intro h
    cases hacc : validateAccounts (.ofPrefix w p) s.accounts.keys with
    | error e =>
      rw [hacc] at h
      cases h
    | ok u =>
      rw [hacc] at h
      exact ⟨hlen, hs, ha.mp hacc, hm.mp h⟩
  · intro h
    rw [ha.mpr h.accounts]
    exact hm.mpr h.messages

/-! ## a split -/

theorem splitAccounts_eq (hlen : p.len ≤ 60) (es : List (AccountId × AccountState))
    (left right : OrdMap AccountId AccountState) :
    splitAccounts (.ofPrefix w p) es left right
      = .ok ((es.filter (fun e => covered p e.1)).foldl (fun acc e => acc.insert e.1 e.2) left,
        (es.filter (fun e => !covered p e.1)).foldl (fun acc e => acc.insert e.1 e.2) right) := by
  induction es generalizing left right with
  | nil => rfl
  | cons e es ih =>
    unfold splitAccounts
    rw [containsAccount_covered hlen]
    cases hcov : covered p e.1 <;> simp [hcov, ih]

/-- the accounts of one half, inserted into an empty map -/
theorem foldl_insert_filter (m : OrdMap AccountId AccountState) (P : AccountId → Bool) :
    (m.entries.filter (fun e => P e.1)).foldl (fun acc e => acc.insert e.1 e.2) OrdMap.empty
      = m.filterKeys P := by
  refine OrdMap.ext_perm ?_
  have hnd : ((m.entries.filter (fun e => P e.1)).map Prod.fst).Nodup := (m.filterKeys P).keys_nodup
  exact OrdMap.perm_foldl_insert (m:=OrdMap.empty) (fun _ _ => rfl) hnd

theorem splitMessages_eq (hlen : p.len < 60) (ms left right : List Message)
    (hown : ∀ m ∈ ms, m.destAddress.workchainId = w ∧ covered p m.destAddress.accountId = true) :
    splitMessages (.ofPrefix w (p.child false)) (.ofPrefix w (p.child true)) ms left right
      = .ok (left ++ ms.filter (fun m => covered (p.child false) m.destAddress.accountId),
        right ++ ms.filter (fun m => covered (p.child true) m.destAddress.accountId)) := by
  have hchild : ∀ b, (p.child b).len ≤ 60 := fun b => hlen
  induction ms generalizing left right with
  | nil => simp [splitMessages]
  | cons m ms ih =>
    obtain ⟨⟨hw, hp⟩, hrest⟩ := List.forall_mem_cons.mp hown
    have h0 := validateDestShard_covered (w:=w) (hchild false) m
    have h1 := validateDestShard_covered (w:=w) (hchild true) m
    have hother := covered_not_child (p:=p) (by omega) false m.destAddress.accountId
    rw [hp, Bool.true_and] at hother
    unfold splitMessages
    cases hcov : covered (p.child false) m.destAddress.accountId with
    | true =>
      rw [h0.mpr ⟨hw, hcov⟩]
      rw [hcov] at hother
      simp [ih _ _ hrest, hcov, show covered (p.child true) m.destAddress.accountId = false from hother]
    | false =>
      rw [hcov] at hother
      have hcov1 : covered (p.child true) m.destAddress.accountId = true := hother
      cases hv : m.validateDestShard (.ofPrefix w (p.child false)) with
      | ok u =>
        rw [(h0.mp hv).2] at hcov
        cases hcov
      | error e =>
        dsimp only
        rw [h1.mpr ⟨hw, hcov1⟩]
        simp [ih _ _ hrest, hcov, hcov1]

/-- the part of a state that belongs to a prefix -/
def part (c : Crypto) (w : WorkchainIdent) (s : ShardState) (p : BitPrefix) : ShardState where
  shard := .ofPrefix w p
  accounts := s.accounts.filterKeys (covered p)
  pendingMessages :=
    sortMessages c (s.pendingMessages.filter (fun m => covered p m.destAddress.accountId))

theorem mem_sortMessages {c : Crypto} {ms : List Message} {m : Message} :
    m ∈ sortMessages c ms ↔ m ∈ ms := List.mem_insertionSort _

theorem splitShardState_part {c : Crypto} {s : ShardState} (hlen : p.len < 60) (hown : Owns w p s) :
    splitShardState c s = .ok (part c w s (p.child false), part c w s (p.child true)) := by
  have hchild : ∀ b, (p.child b).len ≤ 60 := fun b => hlen
  unfold splitShardState
  rw [(validateOwnership_iff hown.len hown.shard).mpr hown, hown.shard,
    ShardTreeNode.splitLeaf_ofPrefix hlen]
  dsimp only [ShardTreeNode.newLeaf]
  rw [splitAccounts_eq (hchild false), foldl_insert_filter]
  dsimp only
  rw [splitMessages_eq hlen _ _ _ hown.messages]
  -- an account of the parent that is not in the left child is in the right one
  have hright : (s.accounts.entries.filter (fun e => !covered (p.child false) e.1))
      = s.accounts.entries.filter (fun e => covered (p.child true) e.1) := by
    refine List.filter_congr fun e he => ?_
    have hcov := hown.accounts e.1 (List.mem_map_of_mem he)
    have hother := covered_not_child (p:=p) (by omega) false e.1
    rw [hcov, Bool.true_and] at hother
    exact hother.symm
  rw [hright, foldl_insert_filter]
  rfl

/-- **A split takes exactly the states of shards with fewer than 60 bits that hold their own accounts
and messages, and gives each child its part.** -/
theorem splitShardState_iff {c : Crypto} {s l r : ShardState} :
    splitShardState c s = .ok (l, r) ↔ ∃ w p, p.len < 60 ∧ Owns w p s
      ∧ l = part c w s (p.child false) ∧ r = part c w s (p.child true) := by
  constructor
  · intro h
    have hcopy := h
    unfold splitShardState at h
    cases hval : s.validateOwnership with
    | error e =>
      rw [hval] at h
      cases h
    | ok u =>
      rw [hval] at h
      cases htree : ShardTreeNode.splitLeaf (.newLeaf s.shard) with
      | error e =>
        rw [htree] at h
        cases h
      | ok t =>
        obtain ⟨p, hlen, hshard⟩ := ShardTreeNode.splitLeaf_ok htree
        have hown := (validateOwnership_iff hlen.le hshard).mp hval
        have hboth := hcopy.symm.trans (splitShardState_part hlen hown)
        cases hboth
        exact ⟨_, p, hlen, hown, rfl, rfl⟩
  · rintro ⟨w, p, hlen, hown, rfl, rfl⟩
    exact splitShardState_part hlen hown

theorem owns_part {c : Crypto} {s : ShardState} (hown : Owns w p s) (hlen : p.len < 60) (b : Bool) :
    Owns w (p.child b) (part c w s (p.child b)) := by
  refine ⟨hlen, rfl, fun a ha => (OrdMap.mem_keys_filterKeys.mp ha).2, fun m hm => ?_⟩
  obtain ⟨hmem, hcov⟩ := List.mem_filter.mp (mem_sortMessages.mp hm)
  exact ⟨(hown.messages m hmem).1, hcov⟩

/-! ## a merge -/

/-- two states in one, under a prefix -/
def joined (c : Crypto) (w : WorkchainIdent) (p : BitPrefix) (first second : ShardState) : ShardState where
  shard := .ofPrefix w p
  accounts := first.accounts.extend second.accounts
  pendingMessages := sortMessages c (first.pendingMessages ++ second.pendingMessages)

/-- **A merge takes exactly the states of two siblings that hold their own accounts and messages.** -/
theorem mergeShardStates_iff {c : Crypto} {first second s : ShardState} :
    mergeShardStates c first second = .ok s ↔ ∃ w p b, p.len < 60 ∧ Owns w (p.child b) first
      ∧ Owns w (p.child (!b)) second ∧ s = joined c w p first second := by
  constructor
  · intro h
    unfold mergeShardStates at h
    cases hval1 : first.validateOwnership with
    | error e =>
      rw [hval1] at h
      cases h
    | ok u =>
      rw [hval1] at h
      cases hval2 : second.validateOwnership with
      | error e =>
        rw [hval2] at h
        cases h
      | ok u =>
        rw [hval2] at h
        cases hpar : commonParent first.shard second.shard with
        | error e =>
          rw [hpar] at h
          cases h
        | ok parent =>
          rw [hpar] at h
          cases h
          obtain ⟨w, p, b, hlen, h1, h2, rfl⟩ := commonParent_iff.mp hpar
          exact ⟨w, p, b, hlen, (validateOwnership_iff (p:=p.child b) hlen h1).mp hval1,
            (validateOwnership_iff (p:=p.child (!b)) hlen h2).mp hval2, rfl⟩
  · rintro ⟨w, p, b, hlen, h1, h2, rfl⟩
    unfold mergeShardStates
    rw [(validateOwnership_iff h1.len h1.shard).mpr h1,
      (validateOwnership_iff h2.len h2.shard).mpr h2, h1.shard, h2.shard,
      commonParent_children hlen b]
    rfl

/-- siblings have no account in common -/
theorem siblings_disjoint {first second : ShardState} {b : Bool} (hlen : p.len < 60)
    (h1 : Owns w (p.child b) first) (h2 : Owns w (p.child (!b)) second) :
    ∀ a ∈ second.accounts.keys, first.accounts.get? a = none := by
  intro a ha
  cases hg : first.accounts.get? a with
  | none => rfl
  | some x =>
    have hc1 := h1.accounts a (OrdMap.mem_keys_iff.mpr ⟨x, hg⟩)
    have hc2 := h2.accounts a ha
    rw [covered_not_child (by omega), hc1] at hc2
    simp at hc2

theorem perm_joined_accounts {c : Crypto} {first second : ShardState} {b : Bool} (hlen : p.len < 60)
    (h1 : Owns w (p.child b) first) (h2 : Owns w (p.child (!b)) second) :
    (joined c w p first second).accounts.entries.Perm
      (first.accounts.entries ++ second.accounts.entries) :=
  OrdMap.perm_extend (siblings_disjoint hlen h1 h2)

theorem owns_joined {c : Crypto} {first second : ShardState} {b : Bool} (hlen : p.len < 60)
    (h1 : Owns w (p.child b) first) (h2 : Owns w (p.child (!b)) second) :
    Owns w p (joined c w p first second) := by
  have hparent : ∀ (d : Bool) (a : AccountId), covered (p.child d) a = true → covered p a = true := by
    intro d a h
    rw [covered_child (by omega), Bool.and_eq_true] at h
    exact h.1
  refine ⟨hlen.le, rfl, fun a ha => ?_, fun m hm => ?_⟩
  · have hmem : a ∈ (first.accounts.entries ++ second.accounts.entries).map Prod.fst :=
      ((perm_joined_accounts hlen h1 h2).map Prod.fst).mem_iff.mp ha
    rw [List.map_append] at hmem
    rcases List.mem_append.mp hmem with hmem | hmem
    · exact hparent b a (h1.accounts a hmem)
    · exact hparent (!b) a (h2.accounts a hmem)
  · rcases List.mem_append.mp (mem_sortMessages.mp hm) with hmem | hmem
    · exact ⟨(h1.messages m hmem).1, hparent b _ (h1.messages m hmem).2⟩
    · exact ⟨(h2.messages m hmem).1, hparent (!b) _ (h2.messages m hmem).2⟩

end

end Onx.Sharding
