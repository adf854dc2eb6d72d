import Onx.Storage.Counts

/-!
# What the commit of a block changes

* `commitBatch_cases`   the stages of `commit_block`;
* `commit_cells`        on the cells: `Puts`, then `Up` on the new root, then `Down` on the old;
* `after_shardState`, `after_account`   on the shard roots and the accounts.
-/

namespace Onx.Storage
open RefCount Dfs

section
variable {c : Crypto} {d : Disk} {block : BlockCommitment} {b : Batch}

theorem ok_of_bind {α β : Type} {x : Except StorageError α} {f : α → Except StorageError β} {r : β}
    (h : (x >>= f) = .ok r) : ∃ a, x = .ok a ∧ f a = .ok r := by
  cases x with
  | error e => cases h
  | ok a => exact ⟨a, rfl, h⟩

theorem ok_of_ofState {α : Type} {x : Except StateModelError α} {r : α}
    (h : ofState x = .ok r) : x = .ok r := by
  cases x with
  | error e => cases h
  | ok a =>
    cases h
    rfl

/-- the intermediate results of `commit_block` -/
structure Stages where
  proof : MerkleProof
  puts : Batch
  cells : Batch
  oldRoot : Option Uint256
  old : ShardStateTree
  raised : Batch
  lowered : Batch

/-- the stages that lead to a batch -/
structure Stages.Of (c : Crypto) (d : Disk) (block : BlockCommitment) (b : Batch) (s : Stages) :
    Prop where
  root : block.state.stateRootHash c = block.header.stateRootHash
  bocs : verifyBocs block.cellBocs = .ok ()
  proof_eq : block.state.generateProof c ⟨0⟩ = .ok s.proof
  puts_eq : putBocs c d block.cellBocs Batch.default = .ok s.puts
  cells_eq : putCells c d s.proof.proofBoc.cells.values s.puts = .ok s.cells
  oldRoot_eq : shardStateRoot d block.header.shard = .ok s.oldRoot
  old_eq : loadShardState d block.header.shard = .ok s.old
  raised_eq : adjustCell c d s.proof.rootHash true
    (replaceAccounts block.header.shard s.old block.state s.cells) = .ok s.raised
  lowered_eq : dropRoot c d s.oldRoot s.raised = .ok s.lowered
  batch_eq : b = (s.lowered.pushPut (.blockHeader (headerHash c block.header))
    block.header.toBytes).pushPut (.shardState block.header.shard)
      (encodeWord 32 (block.state.stateRootHash c))

/-- **The stages of `commit_block`.** -/
theorem commitBatch_cases (h : commitBatch c d block = .ok b) : ∃ s : Stages, s.Of c d block b := by
  unfold commitBatch at h
  dsimp only at h
  split_ifs at h with hroot
  obtain ⟨_, hbocs, h⟩ := ok_of_bind h
  obtain ⟨proof, hproof, h⟩ := ok_of_bind h
  obtain ⟨puts, hputs, h⟩ := ok_of_bind h
  obtain ⟨cells, hcells, h⟩ := ok_of_bind h
  obtain ⟨oldRoot, holdRoot, h⟩ := ok_of_bind h
  obtain ⟨old, hold, h⟩ := ok_of_bind h
  obtain ⟨raised, hraised, h⟩ := ok_of_bind h
  obtain ⟨lowered, hlowered, h⟩ := ok_of_bind h
  cases h
  exact ⟨⟨proof, puts, cells, oldRoot, old, raised, lowered⟩, not_not.mp hroot, hbocs,
    ok_of_ofState hproof, hputs, hcells, holdRoot, hold, hraised, hlowered, rfl⟩

/-- the stages make the batch -/
theorem Stages.Of.batch {s : Stages} (h : s.Of c d block b) : commitBatch c d block = .ok b := by
  unfold commitBatch
  dsimp only
  rw [if_neg (not_not.mpr h.root), h.bocs, h.proof_eq]
  dsimp only [bind, Except.bind, ofState]
  rw [h.puts_eq]
  dsimp only
  rw [h.cells_eq]
  dsimp only
  rw [h.oldRoot_eq]
  dsimp only
  rw [h.old_eq]
  dsimp only
  rw [h.raised_eq]
  dsimp only
  rw [h.lowered_eq]
  dsimp only
  rw [h.batch_eq]

/-! ## accounts in the batch -/

theorem foldl_removes (shard : ShardIdent) (ids : List AccountId) (b : Batch) (k : FileKey) :
    (ids.foldl (fun b a => b.pushRemove (.account shard a)) b).lastPut k = b.lastPut k ∧
      (k ∈ (ids.foldl (fun b a => b.pushRemove (.account shard a)) b).removes
        ↔ k ∈ b.removes ∨ ∃ a ∈ ids, k = .account shard a) := by
  induction ids generalizing b with
  | nil => exact ⟨rfl, by simp⟩
  | cons a ids ih =>
    obtain ⟨h1, h2⟩ := ih (b.pushRemove (.account shard a))
    refine ⟨h1, h2.trans ?_⟩
    rw [removes_pushRemove, List.mem_append, List.mem_singleton, or_assoc]
    refine or_congr_right ?_
    simp

theorem foldl_puts (shard : ShardIdent) (l : List (AccountId × AccountState)) (b : Batch) :
    (l.foldl (fun b x => b.pushPut (.account shard x.1) x.2.toBytes) b).removes = b.removes ∧
      ∀ k, (∀ a, k ≠ .account shard a) →
        (l.foldl (fun b x => b.pushPut (.account shard x.1) x.2.toBytes) b).lastPut k
          = b.lastPut k := by
  induction l generalizing b with
  | nil => exact ⟨rfl, fun _ _ => rfl⟩
  | cons x l ih =>
    obtain ⟨h1, h2⟩ := ih (b.pushPut (.account shard x.1) x.2.toBytes)
    refine ⟨h1, fun k hk => (h2 k hk).trans ?_⟩
    rw [lastPut_pushPut, if_neg (hk x.1)]

theorem foldl_puts_account (shard : ShardIdent) (l : List (AccountId × AccountState))
    (hl : l.Pairwise (fun x y => x.1 < y.1)) (b : Batch) (a : AccountId) :
    (l.foldl (fun b x => b.pushPut (.account shard x.1) x.2.toBytes) b).lastPut (.account shard a)
      = ((OrdMap.lookup a l).map AccountState.toBytes).or (b.lastPut (.account shard a)) := by
  induction l generalizing b with
  | nil => rfl
  | cons x l ih =>
    obtain ⟨k, s⟩ := x
    obtain ⟨hlt, hl'⟩ := List.pairwise_cons.mp hl
    rw [List.foldl_cons, ih hl', lastPut_pushPut, OrdMap.lookup_cons]
    by_cases hak : a = k
    · rw [hak, if_pos rfl, if_pos rfl, OrdMap.lookup_eq_none_of_lt hlt]
      rfl
    · rw [if_neg hak, if_neg fun heq => hak (FileKey.account.inj heq).2]

/-- accounts are replaced beside everything else -/
theorem replaceAccounts_other (shard : ShardIdent) (old new : ShardStateTree) (b : Batch)
    {k : FileKey} (hk : ∀ a, k ≠ .account shard a) :
    (replaceAccounts shard old new b).lastPut k = b.lastPut k
      ∧ (k ∈ (replaceAccounts shard old new b).removes ↔ k ∈ b.removes) := by
  unfold replaceAccounts
  obtain ⟨h1, h2⟩ := foldl_removes shard old.accounts.keys b k
  obtain ⟨h3, h4⟩ := foldl_puts shard new.accounts.entries
    (old.accounts.keys.foldl (fun b a => b.pushRemove (.account shard a)) b)
  refine ⟨(h4 k hk).trans h1, ?_⟩
  rw [h3, h2]
  refine or_iff_left ?_
  rintro ⟨a, _, heq⟩
  exact hk a heq

/-- and beside the cells -/
theorem replaceAccounts_cells (shard : ShardIdent) (old new : ShardStateTree) (b : Batch) :
    cellsOf c ((replaceAccounts shard old new b).pending d) = cellsOf c (b.pending d) := by
  funext a
  exact cellsOf_congr (pending_of_lastPut
    (replaceAccounts_other shard old new b fun _ heq => FileKey.noConfusion heq).1)

theorem replaceAccounts_account (shard : ShardIdent) (old new : ShardStateTree) (b : Batch)
    (a : AccountId) : (replaceAccounts shard old new b).lastPut (.account shard a)
        = ((new.get a).map AccountState.toBytes).or (b.lastPut (.account shard a))
      ∧ (.account shard a ∈ (replaceAccounts shard old new b).removes
        ↔ .account shard a ∈ b.removes ∨ a ∈ old.accounts.keys) := by
  unfold replaceAccounts
  obtain ⟨h1, h2⟩ := foldl_removes shard old.accounts.keys b (.account shard a)
  obtain ⟨h3, _⟩ := foldl_puts shard new.accounts.entries
    (old.accounts.keys.foldl (fun b a => b.pushRemove (.account shard a)) b)
  refine ⟨?_, ?_⟩
  · rw [foldl_puts_account shard _ new.accounts.sorted, h1]
    rfl
  · rw [h3, h2]
    refine or_congr_right ⟨?_, fun ha => ⟨a, ha, rfl⟩⟩
    rintro ⟨a', ha', heq⟩
    rw [(FileKey.account.inj heq).2]
    exact ha'

/-! ## cells -/

theorem putBocs_spec {bocs : List BagOfCells} {b b' : Batch} (h : putBocs c d bocs b = .ok b') :
    CellPuts c d b b' := by
  induction bocs generalizing b with
  | nil =>
    cases h
    exact CellPuts.refl _
  | cons boc bocs ih =>
    unfold putBocs at h
    cases hp : putCells c d boc.cells.values b with
    | error e =>
      rw [hp] at h
      cases h
    | ok mid =>
      rw [hp] at h
      exact (putCells_spec hp).trans (ih h)

theorem freshCells_default : FreshCells c d Batch.default := ⟨fun _ _ h => nomatch h⟩

namespace Stages.Of
variable {s : Stages}

theorem cellPuts (h : s.Of c d block b) : CellPuts c d Batch.default s.cells :=
  (putBocs_spec h.puts_eq).trans (putCells_spec h.cells_eq)

theorem cells_fresh (h : s.Of c d block b) : FreshCells c d s.cells :=
  h.cellPuts.fresh freshCells_default

theorem cells_removes (h : s.Of c d block b) : s.cells.removes = [] := h.cellPuts.removes

/-- no cell is removed before the old root is dropped -/
theorem raised_removes (h : s.Of c d block b) (a : Uint256) : .cell a ∉ s.raised.removes := by
  rw [(adjust_up h.raised_eq).2.1,
    (replaceAccounts_other _ _ _ _ fun _ heq => FileKey.noConfusion heq).2, h.cells_removes]
  exact List.not_mem_nil

/-- the cells after the commit are those after the old root is dropped -/
theorem cells_after (h : s.Of c d block b) :
    cellsOf c (b.after d) = cellsOf c (s.lowered.after d) := by
  funext a
  refine cellsOf_congr ?_
  unfold Batch.after
  rw [h.batch_eq, lastPut_pushPut, if_neg FileKey.noConfusion, lastPut_pushPut,
    if_neg FileKey.noConfusion]
  rfl

theorem puts (h : s.Of c d block b) : Puts (cellsOf c d.read) (cellsOf c (s.cells.pending d)) :=
  h.cells_fresh.puts

theorem proof_root (h : s.Of c d block b) : s.proof.rootHash = block.state.stateRootHash c :=
  (block.state.generateProof_spec h.proof_eq).1

/-- the new root is counted up, with all it reaches -/
theorem up (h : s.Of c d block b) : Up Cell.cellRefs (cellsOf c (s.cells.pending d))
    (block.state.stateRootHash c) (cellsOf c (s.raised.pending d)) := by
  have hup := (adjust_up h.raised_eq).1
  rw [replaceAccounts_cells, h.proof_root] at hup
  exact hup

/-- a put in the batch with the raised cells is of a cell that was not stored, or within reach of
the new root -/
theorem raised_lastPut (h : s.Of c d block b) {a : Uint256}
    (ha : ¬ Reach (next Cell.cellRefs (cellsOf c (s.cells.pending d)))
      (block.state.stateRootHash c) a)
    (hs : d.read (.cell a) ≠ none) : s.raised.lastPut (.cell a) = none := by
  obtain ⟨_, _, hkeep⟩ := adjust_up h.raised_eq
  rw [replaceAccounts_cells, h.proof_root] at hkeep
  rw [hkeep a ha, (replaceAccounts_other _ _ _ _ fun _ heq => FileKey.noConfusion heq).1]
  cases hl : s.cells.lastPut (.cell a) with
  | none => rfl
  | some v => exact absurd (h.cells_fresh.fresh a v hl).1 hs

end Stages.Of

namespace Stages.Of
variable {s : Stages} {R : List Uint256} {r a : Uint256}

/-- what a held root reaches is not changed by new cells and raised counts -/
theorem reach_held (h : s.Of c d block b) (held : Held Cell.cellRefs (cellsOf c d.read) R)
    (hr : r ∈ R) : Reach (next Cell.cellRefs (cellsOf c (s.raised.pending d))) r a
      ↔ Reach (next Cell.cellRefs (cellsOf c d.read)) r a := by
  rw [h.up.next_eq]
  refine reach_congr (fun y hy => ?_) a
  obtain ⟨n, cell, hc⟩ := held.present hr hy
  exact h.puts.next_eq hc

end Stages.Of

/-- **The cells after the commit of a block**, in a store whose shard root is held. -/
theorem commit_cells {s : Stages} (h : s.Of c d block b) {R : List Uint256}
    (held : Held Cell.cellRefs (cellsOf c d.read) R) (hold : ∀ r, s.oldRoot = some r → r ∈ R) :
    match s.oldRoot with
    | none => cellsOf c (b.after d) = cellsOf c (s.raised.pending d)
    | some r => Down Cell.cellRefs (cellsOf c (s.raised.pending d)) r (cellsOf c (b.after d)) := by
  rw [h.cells_after]
  have hlow := h.lowered_eq
  cases hr : s.oldRoot with
  | none =>
    rw [hr] at hlow
    have hsame : s.raised = s.lowered := Except.ok.inj hlow
    rw [← hsame]
    funext a
    exact cellsOf_congr (after_of_not_removed (h.raised_removes a))
  | some r =>
    rw [hr] at hlow
    refine adjust_down hlow h.raised_removes fun a ha hone => ?_
    -- the old root holds `a`, so it is stored with a count, and not within reach of the new root
    have hreach := (h.reach_held held (hold r hr)).mp (reach_of_sole ha)
    obtain ⟨n, cell, hc⟩ := held.present (hold r hr) hreach
    have hcount : count (cellsOf c (s.cells.pending d)) a = n + 1 := by
      rw [h.puts.count_eq, count_some hc]
    refine h.raised_lastPut (fun hnew => ?_) fun hnone => ?_
    · classical
      rw [h.up.count_eq, hcount, if_pos hnew] at hone
      omega
    · rw [cellsOf_none hnone] at hc
      cases hc

/-! ## the cells of the new state -/

/-- the cells of a state, from its root down -/
def InState (c : Crypto) (state : ShardStateTree) (a : Uint256) : Prop :=
  Reach (BagOfCells.refsIn (cellMap c (state.trieCells c))) (state.stateRootHash c) a

theorem noCollision_values (cells : List Cell) : NoCollision c (cellMap c cells).values := by
  intro x hx y hy heq
  obtain ⟨k, hk⟩ := OrdMap.mem_values_iff.mp hx
  obtain ⟨j, hj⟩ := OrdMap.mem_values_iff.mp hy
  rw [← (mem_of_cellMap hk).2, heq, (mem_of_cellMap hj).2, hj] at hk
  exact (Option.some.inj hk).symm

/-- a cell of a state is in its cell map -/
theorem InState.get {state : ShardStateTree} {a : Uint256} (h : InState c state a) :
    ∃ cell, (cellMap c (state.trieCells c)).get? a = some cell := by
  obtain ⟨root, _, htrie, hroot⟩ := state.exists_trie (c := c)
  refine Reach.mem_closed (P := fun x => ∃ cell, (cellMap c (state.trieCells c)).get? x = some cell)
    (fun x hx y hy => ?_) ?_ h
  · obtain ⟨cell, hcell⟩ := hx
    unfold BagOfCells.refsIn at hy
    rw [hcell] at hy
    obtain ⟨e, he, rfl⟩ := htrie.closed cell (mem_of_cellMap hcell).1 y hy
    obtain ⟨e', _, _, hget⟩ := cellMap_of_mem (c := c) he
    exact ⟨e', hget⟩
  · obtain ⟨e, _, _, hget⟩ := cellMap_of_mem (c := c) htrie.root_mem
    rw [hroot]
    exact ⟨e, hget⟩

section
variable {proof : MerkleProof} {puts cells : Batch}
  (hproof : block.state.generateProof c ⟨0⟩ = .ok proof)
  (hputs : putBocs c d block.cellBocs Batch.default = .ok puts)
  (hcells : putCells c d proof.proofBoc.cells.values puts = .ok cells)
include hproof hputs hcells

/-- the cells of the new state are held before their counts are raised -/
theorem state_cells {a : Uint256} {cell : Cell}
    (ha : (cellMap c (block.state.trieCells c)).get? a = some cell) :
    ∃ n, cellsOf c (cells.pending d) a = some (n, cell) := by
  rw [(block.state.generateProof_spec hproof).2] at hcells
  have hfresh : FreshCells c d puts := (putBocs_spec hputs).fresh freshCells_default
  have hmem := putCells_mem (noCollision_values _) hcells hfresh cell
    (OrdMap.mem_values_iff.mpr ⟨a, ha⟩)
  rwa [(mem_of_cellMap ha).2] at hmem

/-- **The new root reaches the cells of the new state.** -/
theorem reach_new (a : Uint256) :
    Reach (next Cell.cellRefs (cellsOf c (cells.pending d))) (block.state.stateRootHash c) a
      ↔ InState c block.state a := by
  refine reach_congr (fun y hy => ?_) a
  obtain ⟨cell, hcell⟩ := InState.get (c := c) hy
  obtain ⟨n, hn⟩ := state_cells hproof hputs hcells hcell
  unfold BagOfCells.refsIn
  rw [next_some hn, hcell]

end

theorem Stages.Of.reach_state {s : Stages} (h : s.Of c d block b) (a : Uint256) :
    Reach (next Cell.cellRefs (cellsOf c (s.cells.pending d))) (block.state.stateRootHash c) a
      ↔ InState c block.state a := reach_new h.proof_eq h.puts_eq h.cells_eq a

/-! ## shard roots and accounts -/

theorem dropRoot_cellsOnly {root : Option Uint256} {b b' : Batch}
    (h : dropRoot c d root b = .ok b') : CellsOnly b b' := by
  cases root with
  | none =>
    cases h
    exact ⟨fun _ _ => Iff.rfl, fun _ _ => rfl⟩
  | some r => exact (adjust_rewrites (show adjustCell c d r false b = .ok b' from h)).1

namespace Stages.Of
variable {s : Stages}

/-- other records are those of the accounts, the header and the shard root -/
theorem after_other (h : s.Of c d block b) {k : FileKey} (hk : ∀ a, k ≠ .cell a)
    (hheader : k ≠ .blockHeader (headerHash c block.header))
    (hshard : k ≠ .shardState block.header.shard) :
    b.lastPut k = (replaceAccounts block.header.shard s.old block.state s.cells).lastPut k
      ∧ (k ∈ b.removes
        ↔ k ∈ (replaceAccounts block.header.shard s.old block.state s.cells).removes) := by
  have hup := (adjust_rewrites h.raised_eq).1
  have hdown := dropRoot_cellsOnly h.lowered_eq
  rw [h.batch_eq]
  refine ⟨?_, (hdown.removes k hk).trans (hup.removes k hk)⟩
  rw [lastPut_pushPut, if_neg hshard, lastPut_pushPut, if_neg hheader, hdown.lastPut k hk,
    hup.lastPut k hk]

/-- **The shard roots after the commit of a block.** -/
theorem after_shardState (h : s.Of c d block b) (shard : ShardIdent) :
    b.after d (.shardState shard) = if shard = block.header.shard
      then some (encodeWord 32 (block.state.stateRootHash c)) else d.read (.shardState shard) := by
  split_ifs with heq
  · unfold Batch.after
    rw [h.batch_eq, heq, lastPut_pushPut, if_pos rfl]
    rfl
  · have hne : FileKey.shardState shard ≠ .shardState block.header.shard :=
      fun he => heq (FileKey.shardState.inj he)
    obtain ⟨hput, hrem⟩ := h.after_other (fun _ he => FileKey.noConfusion he)
      FileKey.noConfusion hne
    obtain ⟨hput', hrem'⟩ := replaceAccounts_other block.header.shard s.old block.state s.cells
      (k := .shardState shard) fun _ he => FileKey.noConfusion he
    unfold Batch.after
    rw [hput, hput', h.cellPuts.other _ fun _ he => FileKey.noConfusion he, if_neg]
    · rfl
    · rw [hrem, hrem', h.cells_removes]
      exact List.not_mem_nil

/-- **The accounts after the commit of a block.** -/
theorem after_account (h : s.Of c d block b) (shard : ShardIdent) (a : AccountId) :
    b.after d (.account shard a) = if shard = block.header.shard
      then ((block.state.get a).map AccountState.toBytes).or
        (if a ∈ s.old.accounts.keys then none else d.read (.account shard a))
      else d.read (.account shard a) := by
  obtain ⟨hput, hrem⟩ := h.after_other (k := .account shard a) (fun _ he => FileKey.noConfusion he)
    FileKey.noConfusion FileKey.noConfusion
  have hcells := h.cellPuts.other (.account shard a) fun _ he => FileKey.noConfusion he
  have hempty : FileKey.account shard a ∉ s.cells.removes := by
    rw [h.cells_removes]
    exact List.not_mem_nil
  unfold Batch.after
  by_cases hshard : shard = block.header.shard
  · subst hshard
    obtain ⟨hput', hrem'⟩ := replaceAccounts_account block.header.shard s.old block.state s.cells a
    rw [if_pos rfl, hput, hput', hcells]
    show (((block.state.get a).map AccountState.toBytes).or none).or _ = _
    rw [Option.or_none]
    congr 1
    exact if_congr (hrem.trans (hrem'.trans (or_iff_right hempty))) rfl rfl
  · obtain ⟨hput', hrem'⟩ := replaceAccounts_other block.header.shard s.old block.state s.cells
      (k := .account shard a) fun a' heq => hshard (FileKey.account.inj heq).1
    rw [if_neg hshard, hput, hput', hcells, if_neg fun hm => hempty (hrem'.mp (hrem.mp hm))]
    rfl

end Stages.Of

end

end Onx.Storage
