import Onx.Storage.Store

/-!
# Loading a shard

The accounts of all shards share one directory, and those of a shard are found by the start of
their names.

* `onlyRecords_commit`   a commit leaves no file behind that is not a record;
* `loadShardState_eq`    a shard loads as the state whose accounts are stored.
-/

namespace Onx.Storage

/-- every file is a record -/
def OnlyRecords (d : Disk) : Prop := ∀ q v, d.files.get? q = some v → ∃ k : FileKey, q = k.path

/-- a file that is there after an operation was there before, or is the record put -/
theorem onFile_some {op : JournalOp} {q : Text} {old : Option Bytes} {v : Bytes}
    (h : op.onFile q old = some v) : old = some v ∨ ∃ w, op = .put q w := by
  cases op with
  | remove path =>
    unfold JournalOp.onFile at h
    dsimp only at h
    split_ifs at h
    exact Or.inl h
  | put path w =>
    unfold JournalOp.onFile at h
    dsimp only at h
    split_ifs at h with hq
    · exact Or.inr ⟨w, by rw [hq]⟩
    · exact Or.inl h

theorem fileAfter_some {ops : List JournalOp} {q : Text} {old : Option Bytes} {v : Bytes}
    (h : fileAfter ops q old = some v) : old = some v ∨ ∃ w, .put q w ∈ ops := by
  induction ops generalizing old with
  | nil => exact Or.inl h
  | cons op ops ih =>
    rcases ih (show fileAfter ops q (op.onFile q old) = some v from h) with hmid | ⟨w, hw⟩
    · rcases onFile_some hmid with hold | ⟨w, rfl⟩
      · exact Or.inl hold
      · exact Or.inr ⟨w, List.mem_cons_self⟩
    · exact Or.inr ⟨w, List.mem_cons_of_mem _ hw⟩

/-- **A commit leaves records only.** -/
theorem onlyRecords_commit {d : Disk} (h : OnlyRecords d) (b : Batch) :
    OnlyRecords (commit b d).2 := by
  intro q v hv
  rw [recover_journalText] at hv
  change (b.ops.foldl JournalOp.apply d.files).get? q = some v at hv
  rw [get?_applyAll] at hv
  rcases fileAfter_some hv with hold | ⟨w, hw⟩
  · exact h q v hold
  · rcases List.mem_append.mp hw with hm | hm
    · obtain ⟨k, _, heq⟩ := List.mem_map.mp hm
      cases heq
    · obtain ⟨x, _, heq⟩ := List.mem_map.mp hm
      cases heq
      exact ⟨x.1, rfl⟩

/-! ## the directory of the accounts -/

/-- the name of an account file -/
def accountName (s : ShardIdent) (a : AccountId) : Text := hex (accountKey s a)

theorem path_account (s : ShardIdent) (a : AccountId) :
    (FileKey.account s a).path = ACCOUNTS ++ '/' :: accountName s a := rfl

theorem accountName_inj {s s' : ShardIdent} {a a' : AccountId}
    (h : accountName s a = accountName s' a') : s = s' ∧ a = a' := accountKey_inj (hex_inj h)

/-- names start with the shard -/
theorem accountName_start (s s' : ShardIdent) (a : AccountId) :
    (hex s.toBytes).isPrefixOf (accountName s' a) = true ↔ s = s' := by
  rw [List.isPrefixOf_iff_prefix]
  unfold accountName accountKey
  rw [hex_append]
  constructor
  · intro h
    have hlen : (hex s.toBytes).length = (hex s'.toBytes).length := by
      rw [length_hex, length_hex, ShardIdent.length_toBytes, ShardIdent.length_toBytes]
    have hsame := List.prefix_of_prefix_length_le h (List.prefix_append _ _) (le_of_eq hlen)
    exact ShardIdent.toBytes_inj (hex_inj (hsame.eq_of_length hlen))
  · rintro rfl
    exact List.prefix_append _ _

theorem lookup_readDir (d : Disk) (cf name : Text) :
    OrdMap.lookup name (readDir d cf) = d.files.get? (cf ++ '/' :: name) := by
  unfold readDir OrdMap.get?
  induction d.files.entries with
  | nil => rfl
  | cons e l ih =>
    obtain ⟨q, v⟩ := e
    rw [OrdMap.lookup_cons, ← ih]
    by_cases hq : (cf ++ ['/']).isPrefixOf q = true
    · obtain ⟨rest, hrest⟩ := List.isPrefixOf_iff_prefix.mp hq
      have hdrop : q.drop (cf.length + 1) = rest := by
        rw [← hrest]
        exact List.drop_left' (by simp)
      rw [List.filter_cons_of_pos (p := fun e : Text × Bytes => (cf ++ ['/']).isPrefixOf e.1) hq,
        List.map_cons, OrdMap.lookup_cons, hdrop]
      have hiff : name = rest ↔ cf ++ '/' :: name = q := by
        rw [← hrest, List.append_assoc, List.append_cancel_left_eq]
        exact ⟨fun h => by rw [h]; rfl, fun h => List.tail_eq_of_cons_eq h⟩
      by_cases hname : name = rest
      · rw [if_pos hname, if_pos (hiff.mp hname)]
      · rw [if_neg hname, if_neg fun h => hname (hiff.mpr h)]
    · rw [List.filter_cons_of_neg (p := fun e : Text × Bytes => (cf ++ ['/']).isPrefixOf e.1) hq,
        if_neg]
      intro heq
      refine hq (List.isPrefixOf_iff_prefix.mpr ⟨name, ?_⟩)
      rw [← heq, List.append_assoc]
      rfl

theorem readDir_nodup (d : Disk) (cf : Text) : (readDir d cf).Pairwise (fun x y => x.1 ≠ y.1) := by
  unfold readDir
  rw [List.pairwise_map]
  refine List.Pairwise.imp_of_mem ?_ (d.files.sorted.filter _)
  intro x y hx hy hlt heq
  obtain ⟨p, hp⟩ := List.isPrefixOf_iff_prefix.mp (List.mem_filter.mp hx).2
  obtain ⟨p', hp'⟩ := List.isPrefixOf_iff_prefix.mp (List.mem_filter.mp hy).2
  have hlen : (cf ++ ['/']).length = cf.length + 1 := by simp
  have hrest : p = p' := by
    have heq' : x.1.drop (cf.length + 1) = y.1.drop (cf.length + 1) := heq
    rwa [← hp, ← hp', List.drop_left' hlen, List.drop_left' hlen] at heq'
  rw [← hp, ← hp', hrest] at hlt
  exact lt_irrefl _ hlt

/-! ## the loop of `load_shard_state` -/

theorem lookup_none_of_ne {l : List (Text × Bytes)} {name : Text} (h : ∀ y ∈ l, name ≠ y.1) :
    OrdMap.lookup name l = none := by
  induction l with
  | nil => rfl
  | cons y l ih =>
    obtain ⟨q, v⟩ := y
    rw [OrdMap.lookup_cons, if_neg (h (q, v) List.mem_cons_self),
      ih fun z hz => h z (List.mem_cons_of_mem _ hz)]

/-- a directory of accounts -/
def AccountFiles (l : List (Text × Bytes)) : Prop :=
  ∀ e ∈ l, ∃ s a x, e = (accountName s a, AccountState.toBytes x)

theorem loadAccounts_step (s : ShardIdent) (a : AccountId) (x : AccountState)
    (l : List (Text × Bytes)) (t : ShardStateTree) :
    loadAccounts (hex s.toBytes) ((accountName s a, x.toBytes) :: l) t
      = loadAccounts (hex s.toBytes) l (t.insert a x) := by
  have hlen : (accountKey s a).length = 44 := by
    unfold accountKey
    rw [List.length_append, ShardIdent.length_toBytes, AccountId.length_toBytes]
  have hid : (⟨decodeWord 256 ((accountKey s a).drop 12)⟩ : AccountId) = a := by
    obtain ⟨id⟩ := a
    unfold accountKey
    rw [List.drop_left' s.length_toBytes]
    show AccountId.mk (decodeWord 256 (encodeWord 32 id)) = _
    rw [decodeWord_encodeWord (n:=32) rfl]
  show (if (hex s.toBytes).isPrefixOf (accountName s a) = true then _ else _) = _
  rw [if_pos ((accountName_start s s a).mpr rfl)]
  unfold accountName
  rw [unhex_hex]
  dsimp only
  rw [if_neg (not_not.mpr hlen), decodeAccount_toBytes]
  dsimp only
  rw [hid]

theorem loadAccounts_skip {s s' : ShardIdent} (h : s ≠ s') (a : AccountId) (v : Bytes)
    (l : List (Text × Bytes)) (t : ShardStateTree) :
    loadAccounts (hex s.toBytes) ((accountName s' a, v) :: l) t
      = loadAccounts (hex s.toBytes) l t := by
  show (if (hex s.toBytes).isPrefixOf (accountName s' a) = true then _ else _) = _
  rw [if_neg fun hp => h ((accountName_start s s' a).mp hp)]

theorem loadAccounts_spec (s : ShardIdent) {l : List (Text × Bytes)} (hl : AccountFiles l)
    (hn : l.Pairwise (fun x y => x.1 ≠ y.1)) (t : ShardStateTree) :
    ∃ t', loadAccounts (hex s.toBytes) l t = .ok t' ∧
      ∀ a, (OrdMap.lookup (accountName s a) l = none → t'.get a = t.get a) ∧
        ∀ x : AccountState, OrdMap.lookup (accountName s a) l = some x.toBytes →
          t'.get a = some x := by
  induction l generalizing t with
  | nil => exact ⟨t, rfl, fun a => ⟨fun _ => rfl, fun x h => (nomatch h)⟩⟩
  | cons e l ih =>
    obtain ⟨hne, hn'⟩ := List.pairwise_cons.mp hn
    obtain ⟨s', a', x', rfl⟩ := hl e List.mem_cons_self
    have hl' : AccountFiles l := fun y hy => hl y (List.mem_cons_of_mem _ hy)
    by_cases hs : s = s'
    · subst hs
      obtain ⟨t', hload, hget⟩ := ih hl' hn' (t.insert a' x')
      rw [loadAccounts_step]
      refine ⟨t', hload, fun a => ?_⟩
      rw [OrdMap.lookup_cons]
      by_cases ha : a = a'
      · subst ha
        -- no later file has this name
        have hlast : OrdMap.lookup (accountName s a) l = none := lookup_none_of_ne hne
        have hhere : t'.get a = some x' := by
          rw [(hget a).1 hlast]
          exact OrdMap.get?_insert_self t.accounts a x'
        rw [if_pos rfl]
        refine ⟨fun h => (nomatch h), fun x hx => ?_⟩
        have hdec := decodeAccount_toBytes x
        rw [← Option.some.inj hx, decodeAccount_toBytes] at hdec
        rw [hhere, Except.ok.inj hdec]
      · rw [if_neg fun heq => ha (accountName_inj heq).2]
        refine ⟨fun h => ?_, (hget a).2⟩
        rw [(hget a).1 h]
        exact OrdMap.get?_insert_of_ne t.accounts x' ha
    · obtain ⟨t', hload, hget⟩ := ih hl' hn' t
      rw [loadAccounts_skip hs]
      refine ⟨t', hload, fun a => ?_⟩
      rw [OrdMap.lookup_cons, if_neg fun heq => hs (accountName_inj heq).1]
      exact hget a

/-- the accounts of every shard are those of its state -/
def AccountsOf (d : Disk) (committed : ShardIdent → Option ShardStateTree) : Prop :=
  ∀ s a, d.read (.account s a)
    = ((committed s).bind fun state => state.get a).map AccountState.toBytes

theorem accountFiles_readDir {d : Disk} {committed : ShardIdent → Option ShardStateTree}
    (hd : OnlyRecords d) (ha : AccountsOf d committed) : AccountFiles (readDir d ACCOUNTS) := by
  intro e he
  obtain ⟨⟨q, v⟩, hm, rfl⟩ := List.mem_map.mp he
  obtain ⟨hmem, hq⟩ := List.mem_filter.mp hm
  obtain ⟨rest, (hrest : ACCOUNTS ++ ['/'] ++ rest = q)⟩ := List.isPrefixOf_iff_prefix.mp hq
  have hread := OrdMap.mem_entries_iff.mp hmem
  obtain ⟨k, hk⟩ := hd q v hread
  -- only account records are in this directory
  have hpath : k.path = ACCOUNTS ++ '/' :: rest := by
    rw [← hk, ← hrest, List.append_assoc]
    rfl
  have hslash : '/' ∉ ACCOUNTS := by decide
  obtain ⟨hfamily, hname⟩ := append_slash_inj k.slash_not_mem_family hslash hpath
  cases k with
  | cell h => exact absurd hfamily (show CELLS ≠ ACCOUNTS by decide)
  | account s a =>
    have hv := ha s a
    have hfile : d.read (.account s a) = some v := by
      show d.files.get? _ = _
      rw [← hk]
      exact hread
    rw [hfile] at hv
    obtain ⟨x, _, hx⟩ := Option.map_eq_some_iff.mp hv.symm
    refine ⟨s, a, x, ?_⟩
    dsimp only
    have hlen : (ACCOUNTS ++ ['/']).length = ACCOUNTS.length + 1 := by decide
    rw [← hrest, List.drop_left' hlen, ← hname, hx]
    rfl
  | blockHeader h => exact absurd hfamily (show BLOCK_HEADERS ≠ ACCOUNTS by decide)
  | shardState s => exact absurd hfamily (show SHARD_STATES ≠ ACCOUNTS by decide)

/-- **A shard loads as the state whose accounts are stored.** -/
theorem loadShardState_eq {d : Disk} {committed : ShardIdent → Option ShardStateTree}
    (hd : OnlyRecords d) (ha : AccountsOf d committed) (s : ShardIdent) :
    loadShardState d s = .ok ((committed s).getD ShardStateTree.new) := by
  obtain ⟨t, hload, hget⟩ := loadAccounts_spec s (accountFiles_readDir hd ha)
    (readDir_nodup d ACCOUNTS) ShardStateTree.new
  have hsame : t = (committed s).getD ShardStateTree.new := by
    obtain ⟨accounts⟩ := t
    have hext : accounts = ((committed s).getD ShardStateTree.new).accounts := by
      refine OrdMap.ext_get? fun a => ?_
      obtain ⟨hnone, hsome⟩ := hget a
      rw [lookup_readDir, ← path_account] at hnone hsome
      have hread : d.files.get? (FileKey.account s a).path = _ := ha s a
      cases hc : committed s with
      | none =>
        rw [hc] at hread
        exact hnone hread
      | some state =>
        rw [hc] at hread
        cases hs : state.get a with
        | none =>
          refine (hnone ?_).trans hs.symm
          rw [hread]
          show (state.get a).map _ = none
          rw [hs]
          rfl
        | some x =>
          refine (hsome x ?_).trans hs.symm
          rw [hread]
          show (state.get a).map _ = _
          rw [hs]
          rfl
    rw [hext]
  unfold loadShardState
  rw [hload, hsame]

end Onx.Storage
