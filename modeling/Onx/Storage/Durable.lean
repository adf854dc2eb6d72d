import Onx.Storage.Accounts
import Onx.Storage.Retain

/-!
# The store holds the last committed states

* `Holds`      what is stored: records of known cells, the accounts and roots of the last commits;
* `commit_ok`  the commit of a block succeeds unless a cell of the new state has the largest count;
* `durable`    over runs: shards load as their last committed states, a failed call changes nothing,
               and blocks can be committed;
* `commit_fails`  a state root that was retained too often cannot be committed again.
-/

namespace Onx.Storage
open RefCount Dfs Runs

/-- the cells that a call may store -/
def Call.cells (c : Crypto) : Call → List Cell
  | .putCell cell => [cell]
  | .putBoc boc => boc.cells.values
  | .commitBlock block =>
    block.cellBocs.flatMap (fun boc => boc.cells.values) ++ block.state.trieCells c
  | _ => []

section
variable {c : Crypto} {d : Disk} {w : World} {call : Call} {b b' : Batch} {es : List Call}
  {cells cells' : List Cell} {f f' : FileKey → Option Bytes}

/-! ## cell records -/

/-- cell records are those of the given cells -/
def Records (c : Crypto) (cells : List Cell) (f : FileKey → Option Bytes) : Prop :=
  ∀ h v, f (.cell h) = some v → ∃ n, ∃ cell ∈ cells, cell.hash c = h ∧ v = encodeCellRecord n cell

theorem Records.mono (h : Records c cells f) (hsub : ∀ x ∈ cells, x ∈ cells') :
    Records c cells' f := by
  intro a v hv
  obtain ⟨n, cell, hcell, hh, hrec⟩ := h a v hv
  exact ⟨n, cell, hsub cell hcell, hh, hrec⟩

theorem Records.or (h : Records c cells f) (h' : Records c cells f') :
    Records c cells (fun k => (f k).or (f' k)) := by
  intro a v hv
  rcases Option.or_eq_some_iff.mp hv with hf | ⟨_, hf⟩
  · exact h a v hf
  · exact h' a v hf

theorem Records.mem (h : Records c cells f) {a : Uint256} {n : ℕ} {cell : Cell}
    (hc : cellsOf c f a = some (n, cell)) : cell ∈ cells := by
  obtain ⟨v, m, hread, hdec, _⟩ := exists_record hc
  obtain ⟨k, cell', hmem, hh, rfl⟩ := h a v hread
  subst hh
  rw [decodeCellRecord_encode] at hdec
  cases hdec
  exact hmem

/-- a stored record of a known cell is decoded to it -/
theorem Records.decode (h : Records c cells f) (hinj : NoCollision c cells) {cell : Cell}
    (hcell : cell ∈ cells) {v : Bytes} (hv : f (.cell (cell.hash c)) = some v) :
    ∃ n, decodeCellRecord c (cell.hash c) v = .ok (n, cell) := by
  obtain ⟨n, cell', hmem, hh, rfl⟩ := h _ v hv
  have hsame := hinj cell' hmem cell hcell hh
  subst hsame
  exact ⟨n, decodeCellRecord_encode n cell'⟩

theorem records_putCells {l : List Cell} (hl : ∀ x ∈ l, x ∈ cells)
    (h : putCells c d l b = .ok b') (hb : Records c cells b.lastPut) :
    Records c cells b'.lastPut := by
  induction l generalizing b with
  | nil =>
    cases h
    exact hb
  | cons cell l ih =>
    have hl' : ∀ x ∈ l, x ∈ cells := fun x hx => hl x (List.mem_cons_of_mem _ hx)
    unfold putCells at h
    cases hr : d.read (.cell (cell.hash c)) with
    | none =>
      rw [hr] at h
      refine ih hl' h fun a v hv => ?_
      rw [lastPut_pushPut] at hv
      split_ifs at hv with heq
      · cases heq
        cases hv
        exact ⟨0, cell, hl cell List.mem_cons_self, rfl, rfl⟩
      · exact hb a v hv
    | some v =>
      rw [hr] at h
      dsimp only at h
      cases hd : decodeCellRecord c (cell.hash c) v with
      | error e =>
        rw [hd] at h
        cases h
      | ok x =>
        rw [hd] at h
        dsimp only at h
        split_ifs at h
        exact ih hl' h hb

theorem records_putBocs {bocs : List BagOfCells}
    (hl : ∀ x ∈ bocs.flatMap (fun boc => boc.cells.values), x ∈ cells)
    (h : putBocs c d bocs b = .ok b') (hb : Records c cells b.lastPut) :
    Records c cells b'.lastPut := by
  induction bocs generalizing b with
  | nil =>
    cases h
    exact hb
  | cons boc bocs ih =>
    unfold putBocs at h
    rw [List.flatMap_cons] at hl
    cases hp : putCells c d boc.cells.values b with
    | error e =>
      rw [hp] at h
      cases h
    | ok mid =>
      rw [hp] at h
      exact ih (fun x hx => hl x (List.mem_append_right _ hx)) h
        (records_putCells (fun x hx => hl x (List.mem_append_left _ hx)) hp hb)

theorem records_adjust {root : Uint256} {up : Bool} (hd : Records c cells d.read)
    (h : adjustCell c d root up b = .ok b') (hb : Records c cells b.lastPut) :
    Records c cells b'.lastPut := by
  intro a v hv
  rcases (adjust_rewrites h).2 a v hv with hold | ⟨n, m, cell, hc, rfl⟩
  · exact hb a v hold
  · exact ⟨m, cell, (hb.or hd).mem hc, (cellsOf_some hc).1, rfl⟩

theorem records_default : Records c cells Batch.default.lastPut := fun _ _ h => nomatch h

/-- a commit keeps known records -/
theorem records_commit (hd : Records c cells d.read) (hb : Records c cells b.lastPut) :
    Records c cells (commit b d).2.read := by
  intro a v hv
  rw [read_after] at hv
  unfold Batch.after at hv
  rcases Option.or_eq_some_iff.mp hv with hput | ⟨_, hread⟩
  · exact hb a v hput
  · split_ifs at hread
    exact hd a v hread

/-- the cells of a proof are cells of its state -/
theorem proof_values {state : ShardStateTree} {proof : MerkleProof}
    (h : state.generateProof c ⟨0⟩ = .ok proof) :
    ∀ x ∈ proof.proofBoc.cells.values, x ∈ state.trieCells c := by
  intro x hx
  rw [(state.generateProof_spec h).2] at hx
  obtain ⟨k, hk⟩ := OrdMap.mem_values_iff.mp hx
  exact (mem_of_cellMap hk).1

theorem records_batch (hl : ∀ x ∈ call.cells c, x ∈ cells) (hd : Records c cells d.read)
    (h : call.batch c d = .ok b) : Records c cells b.lastPut := by
  cases call with
  | putCell cell => exact records_putCells hl h records_default
  | putBoc boc =>
    dsimp only [Call.batch] at h
    cases hv : ofState boc.verifyDag with
    | error e =>
      rw [hv] at h
      cases h
    | ok u =>
      rw [hv] at h
      exact records_putCells hl h records_default
  | retainCellRoot root => exact records_adjust hd h records_default
  | releaseCellRoot root => exact records_adjust hd h records_default
  | commitBlock block =>
    obtain ⟨s, hs⟩ := commitBatch_cases (show commitBatch c d block = .ok b from h)
    have hbocs : ∀ x ∈ block.cellBocs.flatMap (fun boc => boc.cells.values), x ∈ cells :=
      fun x hx => hl x (List.mem_append_left _ hx)
    have hproof : ∀ x ∈ s.proof.proofBoc.cells.values, x ∈ cells :=
      fun x hx => hl x (List.mem_append_right _ (proof_values hs.proof_eq x hx))
    have hcells := records_putCells hproof hs.cells_eq
      (records_putBocs hbocs hs.puts_eq records_default)
    have hreplaced : Records c cells
        (replaceAccounts block.header.shard s.old block.state s.cells).lastPut := by
      intro a v hv
      rw [(replaceAccounts_other _ _ _ _ fun _ heq => FileKey.noConfusion heq).1] at hv
      exact hcells a v hv
    have hraised := records_adjust hd hs.raised_eq hreplaced
    have hlowered : Records c cells s.lowered.lastPut := by
      have hlow := hs.lowered_eq
      cases hr : s.oldRoot with
      | none =>
        rw [hr] at hlow
        have hsame : s.raised = s.lowered := Except.ok.inj hlow
        rw [← hsame]
        exact hraised
      | some r =>
        rw [hr] at hlow
        exact records_adjust hd hlow hraised
    intro a v hv
    rw [hs.batch_eq, lastPut_pushPut, if_neg FileKey.noConfusion, lastPut_pushPut,
      if_neg FileKey.noConfusion] at hv
    exact hlowered a v hv

/-! ## what is stored -/

/-- the store holds known cells and, for each shard, its last committed state -/
structure Holds (c : Crypto) (cells : List Cell) (w : World) : Prop where
  only : OnlyRecords w.disk
  records : Records c cells w.disk.read
  accounts : AccountsOf w.disk w.committed
  roots : ∀ s, w.disk.read (.shardState s)
    = (w.committed s).map fun state => encodeWord 32 (state.stateRootHash c)

theorem holds_init : Holds c [] World.init :=
  ⟨fun _ _ h => (nomatch h), fun _ _ h => (nomatch h), fun _ _ => rfl, fun _ => rfl⟩

theorem Holds.shardStateRoot (h : Holds c cells w) (s : ShardIdent) :
    shardStateRoot w.disk s
      = .ok ((w.committed s).map fun state => state.stateRootHash c) := by
  have hr := h.roots s
  cases hc : w.committed s with
  | none =>
    rw [hc] at hr
    unfold Storage.shardStateRoot
    rw [hr]
    rfl
  | some state =>
    rw [hc] at hr
    exact shardStateRoot_record hr

theorem Holds.loadShardState (h : Holds c cells w) (s : ShardIdent) :
    loadShardState w.disk s = .ok ((w.committed s).getD ShardStateTree.new) :=
  loadShardState_eq h.only h.accounts s

/-- records beside the cells are kept by a batch that does not name them -/
theorem read_commit_of_cells {k : FileKey} (hput : b.lastPut k = none) (hrem : k ∉ b.removes) :
    (commit b d).2.read k = d.read k := by
  rw [read_after]
  unfold Batch.after
  rw [hput, if_neg hrem]
  rfl

/-- a call that is no commit leaves records beside the cells alone -/
theorem batch_cells (h : call.batch c d = .ok b) (hcall : ∀ block, call ≠ .commitBlock block)
    {k : FileKey} (hk : ∀ a, k ≠ .cell a) : b.lastPut k = none ∧ k ∉ b.removes := by
  have hputs : ∀ l, putCells c d l Batch.default = .ok b → b.lastPut k = none ∧ k ∉ b.removes := by
    intro l hl
    have hspec := putCells_spec hl
    refine ⟨hspec.other k hk, ?_⟩
    rw [hspec.removes]
    exact List.not_mem_nil
  have hpass : ∀ root up, adjustCell c d root up Batch.default = .ok b →
      b.lastPut k = none ∧ k ∉ b.removes := by
    intro root up ha
    have honly := (adjust_rewrites ha).1
    exact ⟨honly.lastPut k hk, fun hm => absurd ((honly.removes k hk).mp hm) List.not_mem_nil⟩
  cases call with
  | putCell cell => exact hputs _ h
  | putBoc boc =>
    dsimp only [Call.batch] at h
    cases hv : ofState boc.verifyDag with
    | error e =>
      rw [hv] at h
      cases h
    | ok u =>
      rw [hv] at h
      exact hputs _ h
  | retainCellRoot root => exact hpass root true h
  | releaseCellRoot root => exact hpass root false h
  | commitBlock block => exact absurd rfl (hcall block)

/-- the accounts that are removed are all that the shard had -/
theorem no_account_left {old : ShardStateTree} {shard : ShardIdent}
    (h : AccountsOf d w.committed) (hold : old = (w.committed shard).getD ShardStateTree.new)
    (a : AccountId) :
    (if a ∈ old.accounts.keys then none else d.read (.account shard a)) = none := by
  split_ifs with hin
  · rfl
  · rw [h, hold] at *
    cases hc : w.committed shard with
    | none => rfl
    | some state =>
      rw [hc] at hin
      cases hg : state.get a with
      | none =>
        show (state.get a).map _ = none
        rw [hg]
        rfl
      | some x => exact absurd (OrdMap.mem_keys_iff.mpr ⟨x, hg⟩) hin

theorem accounts_commitBlock {block : BlockCommitment} {s : Stages} (h : Holds c cells w)
    (hs : s.Of c w.disk block b) :
    AccountsOf (commit b w.disk).2
      (Function.update w.committed block.header.shard (some block.state)) := by
  have hold : s.old = (w.committed block.header.shard).getD ShardStateTree.new := by
    have heq := h.loadShardState block.header.shard
    rw [hs.old_eq] at heq
    exact Except.ok.inj heq
  intro shard a
  rw [read_after, hs.after_account]
  by_cases hshard : shard = block.header.shard
  · subst hshard
    rw [if_pos rfl, Function.update_self, no_account_left h.accounts hold, Option.or_none]
    rfl
  · rw [if_neg hshard, Function.update_of_ne hshard]
    exact h.accounts shard a

theorem roots_commitBlock {block : BlockCommitment} {s : Stages} (h : Holds c cells w)
    (hs : s.Of c w.disk block b) (shard : ShardIdent) :
    (commit b w.disk).2.read (.shardState shard)
      = (Function.update w.committed block.header.shard (some block.state) shard).map
        fun state => encodeWord 32 (state.stateRootHash c) := by
  rw [read_after, hs.after_shardState]
  by_cases hshard : shard = block.header.shard
  · subst hshard
    rw [if_pos rfl, Function.update_self]
    rfl
  · rw [if_neg hshard, Function.update_of_ne hshard]
    exact h.roots shard

/-- **Every call keeps the last committed states stored.** -/
theorem holds_step (h : Holds c cells w) (call : Call) :
    Holds c (cells ++ call.cells c) (w.step c call) := by
  have hrecords : Records c (cells ++ call.cells c) w.disk.read :=
    h.records.mono fun x hx => List.mem_append_left _ hx
  cases hb : call.batch c w.disk with
  | error e =>
    rw [step_of_error hb]
    exact ⟨h.only, hrecords, h.accounts, h.roots⟩
  | ok b =>
    rw [step_of_ok hb]
    have honly := onlyRecords_commit h.only b
    have hcells := records_commit hrecords
      (records_batch (fun x hx => List.mem_append_right _ hx) hrecords hb)
    by_cases hcall : ∃ block, call = .commitBlock block
    · obtain ⟨block, rfl⟩ := hcall
      obtain ⟨s, hs⟩ := commitBatch_cases (show commitBatch c w.disk block = .ok b from hb)
      exact ⟨honly, hcells, accounts_commitBlock h hs, roots_commitBlock h hs⟩
    · have hno : ∀ block, call ≠ .commitBlock block := fun block heq => hcall ⟨block, heq⟩
      have hcommitted : (w.record call).committed = w.committed := by
        cases call with
        | commitBlock block => exact absurd rfl (hno block)
        | _ => rfl
      have hread : ∀ k, (∀ a, k ≠ .cell a) → (commit b w.disk).2.read k = w.disk.read k :=
        fun k hk => read_commit_of_cells (batch_cells hb hno hk).1 (batch_cells hb hno hk).2
      refine ⟨honly, hcells, fun shard a => ?_, fun shard => ?_⟩
      · show (commit b w.disk).2.read _ = (((w.record call).committed shard).bind _).map _
        rw [hread _ fun _ heq => FileKey.noConfusion heq, hcommitted]
        exact h.accounts shard a
      · show (commit b w.disk).2.read _ = ((w.record call).committed shard).map _
        rw [hread _ fun _ heq => FileKey.noConfusion heq, hcommitted]
        exact h.roots shard

theorem holds_run (es : List Call) :
    Holds c (es.flatMap (Call.cells c)) (run (World.step c) World.init es) := by
  induction es using List.reverseRecOn with
  | nil => exact holds_init
  | append_singleton es call ih =>
    rw [run_concat, List.flatMap_append, List.flatMap_singleton]
    exact holds_step ih call

/-! ## commits succeed -/

theorem putBocs_ok {bocs : List BagOfCells} (b : Batch)
    (h : ∀ cell ∈ bocs.flatMap (fun boc => boc.cells.values), ∀ v,
      d.read (.cell (cell.hash c)) = some v →
        ∃ n, decodeCellRecord c (cell.hash c) v = .ok (n, cell)) :
    ∃ b', putBocs c d bocs b = .ok b' := by
  induction bocs generalizing b with
  | nil => exact ⟨b, rfl⟩
  | cons boc bocs ih =>
    rw [List.flatMap_cons] at h
    obtain ⟨mid, hmid⟩ := putCells_ok b fun x hx => h x (List.mem_append_left _ hx)
    obtain ⟨b', hb'⟩ := ih mid fun x hx => h x (List.mem_append_right _ hx)
    refine ⟨b', ?_⟩
    unfold putBocs
    rw [hmid]
    exact hb'

theorem verifyBocs_ok {bocs : List BagOfCells} (h : ∀ boc ∈ bocs, boc.verifyDag = .ok ()) :
    verifyBocs bocs = .ok () := by
  induction bocs with
  | nil => rfl
  | cons boc bocs ih =>
    unfold verifyBocs
    rw [h boc List.mem_cons_self]
    exact ih fun x hx => h x (List.mem_cons_of_mem _ hx)

/-- a block that fits its header, with sound bags of cells -/
structure Committable (c : Crypto) (block : BlockCommitment) : Prop where
  root : block.header.stateRootHash = block.state.stateRootHash c
  bocs : ∀ boc ∈ block.cellBocs, boc.verifyDag = .ok ()

/-- no cell of a state has the largest count -/
def RoomFor (c : Crypto) (d : Disk) (state : ShardStateTree) : Prop :=
  ∀ a, InState c state a → cellRefcount c d a ≠ .ok (some (BitVec.allOnes 64))

theorem count_lt_of_room {state : ShardStateTree} (h : RoomFor c d state) {a : Uint256}
    (ha : InState c state a) : count (cellsOf c d.read) a + 1 < 2^64 := by
  cases hc : cellsOf c d.read a with
  | none =>
    rw [count_none hc]
    decide
  | some x =>
    obtain ⟨n, cell⟩ := x
    have hlt := (cellsOf_some hc).2
    have hne : n ≠ 2^64 - 1 := by
      rintro rfl
      exact h a ha (getCell_of_cellsOf hc).2
    rw [count_some hc]
    omega

/-- **A block is committed**, unless a cell of its state has the largest count. -/
theorem commit_ok {block : BlockCommitment} {shards : List (ShardIdent × Uint256)}
    (hw : Holds c cells w) (hs : Shards w.disk shards)
    (held : Held Cell.cellRefs (cellsOf c w.disk.read) (w.retained ++ shards.map Prod.snd))
    (hl : ∀ x ∈ (Call.commitBlock block).cells c, x ∈ cells) (hinj : NoCollision c cells)
    (hblock : Committable c block) (hroom : RoomFor c w.disk block.state) :
    ∃ b, commitBatch c w.disk block = .ok b := by
  have htrie : ∀ x ∈ block.state.trieCells c, x ∈ cells :=
    fun x hx => hl x (List.mem_append_right _ hx)
  have hread : ∀ cell ∈ cells, ∀ v, w.disk.read (.cell (cell.hash c)) = some v →
      ∃ n, decodeCellRecord c (cell.hash c) v = .ok (n, cell) :=
    fun cell hcell v hv => hw.records.decode hinj hcell hv
  obtain ⟨proof, hproof⟩ := block.state.generateProof_ok ⟨0⟩ (hinj.mono htrie)
  obtain ⟨puts, hputs⟩ := putBocs_ok Batch.default
    fun x hx => hread x (hl x (List.mem_append_left _ hx))
  have hvalues : ∀ x ∈ proof.proofBoc.cells.values, _ :=
    fun x hx => hread x (htrie x (proof_values hproof x hx))
  obtain ⟨b2, hcells⟩ := putCells_ok puts hvalues
  have hroot := (block.state.generateProof_spec hproof).1
  have hfresh : FreshCells c w.disk b2 :=
    ((putBocs_spec hputs).trans (putCells_spec hcells)).fresh freshCells_default
  have holdRoot := hw.shardStateRoot block.header.shard
  have hold := hw.loadShardState block.header.shard
  -- the new root: its cells are there, with counts as they are stored
  obtain ⟨b4, hraised⟩ := adjust_up_ok (c := c) (d := w.disk) proof.rootHash
    (replaceAccounts block.header.shard
      ((w.committed block.header.shard).getD ShardStateTree.new) block.state b2) (by
        intro a ha
        rw [replaceAccounts_cells] at ha ⊢
        rw [hroot, reach_new hproof hputs hcells] at ha
        obtain ⟨cell, hcell⟩ := ha.get
        obtain ⟨n, hn⟩ := state_cells hproof hputs hcells hcell
        have hcount := count_lt_of_room hroom ha
        rw [← hfresh.puts.count_eq, count_some hn] at hcount
        exact ⟨n, cell, hn, hcount⟩)
  -- the old root: what it holds is counted
  have hheld : Held Cell.cellRefs (cellsOf c (b4.pending w.disk))
      (proof.rootHash :: (w.retained ++ shards.map Prod.snd)) := by
    have hup := (adjust_up hraised).1
    rw [replaceAccounts_cells] at hup
    exact (held.puts hfresh.puts).up hup
  obtain ⟨b5, hlowered⟩ : ∃ b5, dropRoot c w.disk
      ((w.committed block.header.shard).map fun state => state.stateRootHash c) b4 = .ok b5 := by
    cases hc : w.committed block.header.shard with
    | none => exact ⟨b4, rfl⟩
    | some state =>
      refine adjust_down_ok fun a ha => ?_
      have hmem : state.stateRootHash c ∈ proof.rootHash :: (w.retained ++ shards.map Prod.snd) := by
        rw [hc] at holdRoot
        exact List.mem_cons_of_mem _ (List.mem_append_right _
          (List.mem_map.mpr ⟨_, (hs.mem _ _).mpr holdRoot, rfl⟩))
      obtain ⟨n, cell, hcell⟩ := hheld.present hmem (reach_of_sole ha)
      rw [count_some hcell]
      exact Nat.le_add_left 1 n
  exact ⟨_, Stages.Of.batch (s := ⟨proof, puts, b2, _, _, b4, b5⟩)
    ⟨hblock.root.symm, verifyBocs_ok hblock.bocs, hproof, hputs, hcells, holdRoot, hold, hraised,
      hlowered, rfl⟩⟩

/-- **The store holds the last committed states** after every run of matched calls. -/
theorem durable (hm : Along (World.step c) Matched World.init es) (block : BlockCommitment)
    (hinj : NoCollision c ((es ++ [Call.commitBlock block]).flatMap (Call.cells c))) :
    (∀ shard,
      loadShardState (run (World.step c) World.init es).disk shard = .ok
        (((run (World.step c) World.init es).committed shard).getD ShardStateTree.new) ∧
      shardStateRoot (run (World.step c) World.init es).disk shard = .ok
        (((run (World.step c) World.init es).committed shard).map
          fun state => state.stateRootHash c)) ∧
    (∀ (call : Call) (e : StorageError),
      (call.exec c (run (World.step c) World.init es).disk).1 = .error e →
      (call.exec c (run (World.step c) World.init es).disk).2
        = (run (World.step c) World.init es).disk) ∧
    (Committable c block → RoomFor c (run (World.step c) World.init es).disk block.state →
      ((Call.commitBlock block).exec c (run (World.step c) World.init es).disk).1 = .ok ()) := by
  have hw := holds_run (c := c) es
  refine ⟨fun shard => ⟨hw.loadShardState shard, hw.shardStateRoot shard⟩, fun call e he => ?_,
    fun hblock hroom => ?_⟩
  · cases hb : call.batch c (run (World.step c) World.init es).disk with
    | error e' => rw [exec_error hb]
    | ok b =>
      rw [exec_ok hb] at he
      cases he
  · obtain ⟨shards, hs, held⟩ := kept_run hm
    rw [List.flatMap_append, List.flatMap_singleton] at hinj
    have hall : Holds c (es.flatMap (Call.cells c) ++ (Call.commitBlock block).cells c)
        (run (World.step c) World.init es) :=
      ⟨hw.only, hw.records.mono fun x hx => List.mem_append_left _ hx, hw.accounts, hw.roots⟩
    obtain ⟨b, hb⟩ := commit_ok hall hs held (fun x hx => List.mem_append_right _ hx) hinj hblock
      hroom
    rw [exec_ok (show (Call.commitBlock block).batch c _ = .ok b from hb)]

theorem eq_new_of_items {state : ShardStateTree} (h : state.items = []) :
    state = ShardStateTree.new := by
  obtain ⟨entries, _⟩ := state
  have hnil : entries = [] := List.map_eq_nil_iff.mp h
  subst hnil
  rfl

/-- the empty state is committed again -/
theorem durable_sample :
    loadShardState (run (World.step sampleCrypto) World.init [.commitBlock sampleBlock]).disk
      sampleBlock.header.shard = .ok ShardStateTree.new ∧
    ((Call.commitBlock sampleBlock).exec sampleCrypto
      (run (World.step sampleCrypto) World.init [.commitBlock sampleBlock]).disk).1 = .ok () := by
  have hfacts : (∀ a ∈ ([Call.commitBlock sampleBlock] ++ [Call.commitBlock sampleBlock]).flatMap
        (Call.cells sampleCrypto),
      ∀ b ∈ ([Call.commitBlock sampleBlock] ++ [Call.commitBlock sampleBlock]).flatMap
        (Call.cells sampleCrypto), a.hash sampleCrypto = b.hash sampleCrypto → a = b) ∧
      (∀ boc ∈ sampleBlock.cellBocs, boc.verifyDag = .ok ()) ∧
      BagOfCells.refsIn (cellMap sampleCrypto (sampleBlock.state.trieCells sampleCrypto))
        (sampleBlock.state.stateRootHash sampleCrypto) = [] ∧
      cellRefcount sampleCrypto
        (run (World.step sampleCrypto) World.init [.commitBlock sampleBlock]).disk
        (sampleBlock.state.stateRootHash sampleCrypto) = .ok (some 1) ∧
      (((run (World.step sampleCrypto) World.init [.commitBlock sampleBlock]).committed
        sampleBlock.header.shard).map ShardStateTree.items) = some [] := by
    decide +kernel
  obtain ⟨hinj, hbocs, hrefs, hone, hitems⟩ := hfacts
  have hmatched : Along (World.step sampleCrypto) Matched World.init
      [Call.commitBlock sampleBlock] := ⟨trivial, trivial⟩
  obtain ⟨hload, _, hcommit⟩ := durable hmatched sampleBlock hinj
  refine ⟨?_, hcommit ⟨rfl, hbocs⟩ fun a ha => ?_⟩
  · obtain ⟨state, hstate, hempty⟩ := Option.map_eq_some_iff.mp hitems
    rw [(hload sampleBlock.header.shard).1, hstate, Option.getD_some,
      eq_new_of_items hempty]
  · rcases Relation.ReflTransGen.cases_head ha with rfl | ⟨y, hy, _⟩
    · rw [hone]
      decide
    · rw [hrefs] at hy
      cases hy

/-! ## a commit that fails -/

/-- **A retained leaf is counted once more.** -/
theorem retain_leaf {root : Uint256} {n : ℕ} {cell : Cell}
    (hc : cellsOf c w.disk.read root = some (n, cell)) (hleaf : cell.cellRefs = [])
    (hn : n + 1 < 2^64) :
    cellsOf c (w.step c (.retainCellRoot root)).disk.read root = some (n + 1, cell) := by
  have honly : ∀ a, Reach (next Cell.cellRefs (cellsOf c w.disk.read)) root a → a = root := by
    intro a ha
    rcases Relation.ReflTransGen.cases_head ha with rfl | ⟨y, hy, _⟩
    · rfl
    · rw [next_some hc, hleaf] at hy
      cases hy
  obtain ⟨b, hb⟩ := adjust_up_ok (c := c) (d := w.disk) root Batch.default
    fun a ha => ⟨n, cell, by rw [honly a ha]; exact hc, hn⟩
  obtain ⟨hup, hrem, _⟩ := adjust_up hb
  have hafter : b.after w.disk = b.pending w.disk := funext fun k =>
    after_of_not_removed (by rw [hrem]; exact List.not_mem_nil)
  rw [step_of_ok (show (Call.retainCellRoot root).batch c w.disk = .ok b from hb)]
  show cellsOf c (commit b w.disk).2.read root = _
  rw [cellsOf_commit, hafter]
  obtain ⟨m, cell', hold, hnew⟩ := hup.reach root (Reach.refl _ _)
  have hsame : cellsOf c w.disk.read root = some (m, cell') := hold
  rw [hc] at hsame
  cases hsame
  exact hnew

theorem retain_leaf_run {root : Uint256} {cell : Cell} (hleaf : cell.cellRefs = []) (k : ℕ) :
    ∀ (w : World) (n : ℕ), cellsOf c w.disk.read root = some (n, cell) → n + k < 2^64 →
      cellsOf c (run (World.step c) w (List.replicate k (.retainCellRoot root))).disk.read root
        = some (n + k, cell) := by
  induction k with
  | zero => exact fun w n hc _ => hc
  | succ k ih =>
    intro w n hc hn
    rw [List.replicate_succ, run_cons, ih _ (n + 1) (retain_leaf hc hleaf (by omega)) (by omega)]
    congr 2
    omega

/-- a state root with the largest count cannot be counted up -/
theorem commit_error_of_full {block : BlockCommitment} (cell : Cell)
    (hc : cellsOf c d.read (block.state.stateRootHash c) = some (2^64 - 1, cell)) :
    ((Call.commitBlock block).exec c d).1 ≠ .ok () := by
  intro hok
  cases hb : (Call.commitBlock block).batch c d with
  | error e =>
    rw [exec_error hb] at hok
    cases hok
  | ok b =>
    obtain ⟨s, hs⟩ := commitBatch_cases (show commitBatch c d block = .ok b from hb)
    obtain ⟨n, cell', hold, hnew⟩ := hs.up.reach _ (Reach.refl _ _)
    have hlt := (cellsOf_some hnew).2
    rw [hs.puts.keep _ _ hc] at hold
    cases hold
    omega

theorem along_retains (w : World) (root : Uint256) (k : ℕ) :
    Along (World.step c) Matched w (List.replicate k (.retainCellRoot root)) := by
  induction k generalizing w with
  | zero => trivial
  | succ k ih => exact ⟨trivial, ih _⟩

theorem retains_cells (root : Uint256) (k : ℕ) :
    (List.replicate k (Call.retainCellRoot root)).flatMap (Call.cells c) = [] := by
  rw [List.flatMap_eq_nil_iff]
  intro x hx
  rw [List.eq_of_mem_replicate hx]
  rfl

end

/-- the empty state in a new store -/
def emptyWorld : World := World.init.step sampleCrypto (.commitBlock sampleBlock)

theorem emptyWorld_facts : (∀ a ∈ (Call.commitBlock sampleBlock).cells sampleCrypto,
      ∀ b ∈ (Call.commitBlock sampleBlock).cells sampleCrypto,
        a.hash sampleCrypto = b.hash sampleCrypto → a = b) ∧
    (∀ boc ∈ sampleBlock.cellBocs, boc.verifyDag = .ok ()) ∧
    cellsOf sampleCrypto emptyWorld.disk.read (ShardStateTree.new.stateRootHash sampleCrypto)
      = some (1, emptyCell) := by
  decide +kernel

theorem sampleBlock_committable : Committable sampleCrypto sampleBlock :=
  ⟨rfl, emptyWorld_facts.2.1⟩

/-- after `k` retains of the root of the empty state, its count is full -/
theorem full_commit_error (k : ℕ) (hk : 1 + k = 2^64 - 1) :
    ((Call.commitBlock sampleBlock).exec sampleCrypto (run (World.step sampleCrypto) emptyWorld
      (List.replicate k (.retainCellRoot (ShardStateTree.new.stateRootHash sampleCrypto)))).disk).1
      ≠ .ok () := by
  refine commit_error_of_full emptyCell ?_
  rw [← hk]
  exact retain_leaf_run rfl k emptyWorld 1 emptyWorld_facts.2.2 (by omega)

/-- **A commit can fail**: the root of the empty state was retained `2^64 - 2` times. -/
theorem commit_fails : ¬ ∀ (c : Crypto) (es : List Call) (block : BlockCommitment),
    Along (World.step c) Matched World.init es →
    NoCollision c ((es ++ [Call.commitBlock block]).flatMap (Call.cells c)) → Committable c block →
    ((Call.commitBlock block).exec c (run (World.step c) World.init es).disk).1 = .ok () := by
  intro hall
  obtain ⟨k, hk⟩ : ∃ k, 1 + k = 2^64 - 1 := ⟨2^64 - 2, by omega⟩
  obtain ⟨hinj, hbocs, _⟩ := emptyWorld_facts
  have hm : Along (World.step sampleCrypto) Matched World.init (Call.commitBlock sampleBlock
      :: List.replicate k (.retainCellRoot (ShardStateTree.new.stateRootHash sampleCrypto))) :=
    ⟨trivial, along_retains _ _ k⟩
  -- only the cells of the block occur
  have hcells : ∀ x ∈ ((Call.commitBlock sampleBlock :: List.replicate k
      (.retainCellRoot (ShardStateTree.new.stateRootHash sampleCrypto)))
        ++ [Call.commitBlock sampleBlock]).flatMap (Call.cells sampleCrypto),
      x ∈ (Call.commitBlock sampleBlock).cells sampleCrypto := by
    intro x hx
    rw [List.flatMap_append, List.flatMap_cons, retains_cells, List.append_nil,
      List.flatMap_singleton] at hx
    rcases List.mem_append.mp hx with h | h
    · exact h
    · exact h
  have hok := hall sampleCrypto _ sampleBlock hm
    (NoCollision.mono hinj hcells) sampleBlock_committable
  rw [run_cons] at hok
  exact full_commit_error k hk hok

end Onx.Storage
