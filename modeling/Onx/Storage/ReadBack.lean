import Onx.Storage.Leak

/-!
# Committed cells read back

A commit skips the cells of its bags that are stored already, and then gives back the old root of
the shard.  A cell that only the old root holds is collected in the same commit.

* `collected_iff`    the pass over the old root removes a cell that is stored and not in the new
                     state exactly where the root drops it;
* `reads_back_iff`   which commits of a run can be read back;
* `loses_cell`       a commit that loses a cell of its bag.

Nothing is assumed of the store: records may be missing, releases need not match.
-/

namespace Onx.Storage
open RefCount Dfs Runs

namespace BlockCommitment

/-- the cells that a commit puts: those of its bags, then those of the new state -/
def putList (c : Crypto) (block : BlockCommitment) : List Cell :=
  block.cellBocs.flatMap (fun boc => boc.cells.values)
    ++ (cellMap c (block.state.trieCells c)).values

end BlockCommitment

section
variable {c : Crypto} {d : Disk} {block : BlockCommitment} {b : Batch} {st : Stages}

/-- the cells of the bags are read back after a commit that returns `Ok` -/
def ReadsBack (c : Crypto) (w : World) (call : Call) : Prop :=
  (call.exec c w.disk).1 = .ok () → match call with
    | .commitBlock block => ∀ boc ∈ block.cellBocs, ∀ cell ∈ boc.cells.values,
      getCell c (call.exec c w.disk).2 (cell.hash c) = .ok (some cell)
    | _ => True

/-- the old root of the shard holds a cell along cells that are counted once and not in the new
state, and it is such a cell itself -/
def Collected (c : Crypto) (d : Disk) (block : BlockCommitment) (a : Uint256) : Prop :=
  ∃ root, shardStateRoot d block.header.shard = .ok (some root) ∧
    Relation.ReflTransGen (SoleEdge c d (InState c block.state)) root a ∧
    cellRefcount c d a = .ok (some 1) ∧ ¬ InState c block.state a

/-- the commit puts no two cells with one hash, and the old root drops no cell of its bags -/
def Spares (c : Crypto) (w : World) (call : Call) : Prop :=
  (call.exec c w.disk).1 = .ok () → match call with
    | .commitBlock block => NoCollision c (block.putList c) ∧
      ∀ boc ∈ block.cellBocs, ∀ cell ∈ boc.cells.values,
        ¬ Collected c w.disk block (cell.hash c)
    | _ => True

/-! ## the cells that are put -/

theorem putCells_append {l l' : List Cell} {b b1 b2 : Batch} (h : putCells c d l b = .ok b1)
    (h' : putCells c d l' b1 = .ok b2) : putCells c d (l ++ l') b = .ok b2 := by
  induction l generalizing b with
  | nil =>
    cases h
    exact h'
  | cons cell l ih =>
    rw [List.cons_append]
    unfold putCells at h ⊢
    cases hr : d.read (.cell (cell.hash c)) with
    | none =>
      rw [hr] at h
      exact ih h
    | some v =>
      rw [hr] at h
      dsimp only at h ⊢
      cases hd : decodeCellRecord c (cell.hash c) v with
      | error e =>
        rw [hd] at h
        cases h
      | ok x =>
        rw [hd] at h
        dsimp only at h ⊢
        split_ifs at h with hne
        rw [if_neg hne]
        exact ih h

/-- the bags are put cell by cell -/
theorem putBocs_flatMap {bocs : List BagOfCells} {b b' : Batch} (h : putBocs c d bocs b = .ok b') :
    putCells c d (bocs.flatMap (fun boc => boc.cells.values)) b = .ok b' := by
  induction bocs generalizing b with
  | nil => exact h
  | cons boc bocs ih =>
    unfold putBocs at h
    cases hp : putCells c d boc.cells.values b with
    | error e =>
      rw [hp] at h
      cases h
    | ok mid =>
      rw [hp] at h
      exact putCells_append hp (ih h)

namespace Stages.Of

theorem putList_eq (h : st.Of c d block b) :
    putCells c d (block.putList c) Batch.default = .ok st.cells := by
  have htrie := h.cells_eq
  rw [(block.state.generateProof_spec h.proof_eq).2] at htrie
  exact putCells_append (putBocs_flatMap h.puts_eq) htrie

/-- what a commit puts is held before the old root is given back -/
theorem put_held (h : st.Of c d block b) (hinj : NoCollision c (block.putList c)) {cell : Cell}
    (hcell : cell ∈ block.putList c) :
    ∃ n, cellsOf c (st.cells.pending d) (cell.hash c) = some (n, cell) :=
  putCells_mem hinj h.putList_eq freshCells_default cell hcell

/-- raised counts change no cell -/
theorem raised_cell (h : st.Of c d block b) {a : Uint256} {n : ℕ} {cell : Cell}
    (hc : cellsOf c (st.cells.pending d) a = some (n, cell)) :
    ∃ m, cellsOf c (st.raised.pending d) a = some (m, cell) := by
  by_cases ha : Reach (next Cell.cellRefs (cellsOf c (st.cells.pending d)))
      (block.state.stateRootHash c) a
  · obtain ⟨k, cell', hk, hk'⟩ := h.up.reach a ha
    rw [hc] at hk
    cases hk
    exact ⟨n + 1, hk'⟩
  · exact ⟨n, by rw [h.up.other a ha]; exact hc⟩

/-! ## what the old root drops -/

/-- a raised cell with the count one, and not in the new state, was stored with it -/
theorem once_of_raised (h : st.Of c d block b) {a : Uint256} {cell : Cell}
    (hc : cellsOf c (st.raised.pending d) a = some (1, cell)) (hnew : ¬ InState c block.state a) :
    cellsOf c d.read a = some (1, cell) := by
  rw [h.up.other a fun hr => hnew ((h.reach_state a).mp hr)] at hc
  cases hd : cellsOf c d.read a with
  | none => exact absurd (h.puts.fresh a 1 cell hd hc) Nat.one_ne_zero
  | some x =>
    rw [h.puts.keep a x hd] at hc
    exact hc

/-- the pass downwards leaves a cell outside of the new state along cells that were counted once -/
theorem soleEdges_of_sole (h : st.Of c d block b) {root a : Uint256}
    (hnew : ¬ InState c block.state a)
    (ha : Reach (sole Cell.cellRefs (cellsOf c (st.raised.pending d))) root a) :
    Relation.ReflTransGen (SoleEdge c d (InState c block.state)) root a := by
  suffices hall : Relation.ReflTransGen (SoleEdge c d (InState c block.state)) root a
      ∧ ¬ InState c block.state root from hall.1
  induction ha using Relation.ReflTransGen.head_induction_on with
  | refl => exact ⟨Relation.ReflTransGen.refl, hnew⟩
  | @head x y hxy _ ih =>
    obtain ⟨hpath, hy⟩ := ih
    have hnext : y ∈ next Cell.cellRefs (cellsOf c (st.raised.pending d)) x := mem_next_of_sole hxy
    -- below a cell of the new state there are cells of the new state only
    have hx : ¬ InState c block.state x := by
      intro hx
      rw [h.up.next_eq] at hnext
      exact hy ((h.reach_state y).mp (((h.reach_state x).mpr hx).step hnext))
    have hone : count (cellsOf c (st.raised.pending d)) x = 1 := by
      unfold sole at hxy
      split_ifs at hxy with hone
      · exact hone
      · cases hxy
    obtain ⟨k, cell, hc⟩ := some_of_count (n := 0) (le_of_eq hone.symm)
    rw [count_some hc] at hone
    rw [hone] at hc
    have hstored := h.once_of_raised hc hx
    refine ⟨Relation.ReflTransGen.head ⟨(getCell_of_cellsOf hstored).2, hx, ?_⟩ hpath, hx⟩
    rw [refsOf_eq, next_some hstored]
    rw [next_some hc] at hnext
    exact hnext

/-- **The cells that a commit collects**, among those that are there before the old root is given
back. -/
theorem collected_iff (h : st.Of c d block b) {root a : Uint256} {n : ℕ} {cell : Cell}
    (hroot : st.oldRoot = some root)
    (hc : cellsOf c (st.raised.pending d) a = some (n, cell)) :
    (Reach (sole Cell.cellRefs (cellsOf c (st.raised.pending d))) root a ∧ n = 1
        ∧ st.raised.lastPut (.cell a) = none) ↔ Collected c d block a := by
  have hshard : shardStateRoot d block.header.shard = .ok (some root) := by
    rw [h.oldRoot_eq, hroot]
  constructor
  · rintro ⟨hreach, rfl, hnone⟩
    have hnew : ¬ InState c block.state a := by
      intro hin
      have hup := h.raised_eq
      obtain ⟨v, hput⟩ := adjust_up_put hup (a := a) (by
        rw [replaceAccounts_cells, h.proof_root]
        exact (h.reach_state a).mpr hin)
      rw [hput] at hnone
      cases hnone
    have hstored := h.once_of_raised hc hnew
    exact ⟨root, hshard, h.soleEdges_of_sole hnew hreach, (getCell_of_cellsOf hstored).2, hnew⟩
  · rintro ⟨root', hroot', hpath, hone, hnew⟩
    rw [hshard] at hroot'
    cases hroot'
    obtain ⟨cell', hstored, hraised⟩ := h.raised_of_once hone hnew
    rw [hc] at hraised
    cases hraised
    refine ⟨h.sole_of_soleEdges hpath, rfl, h.raised_lastPut
      (fun hr => hnew ((h.reach_state a).mp hr)) fun hnone => ?_⟩
    rw [cellsOf_none hnone] at hstored
    cases hstored

/-- **What a commit leaves of a cell** that is there before the old root is given back. -/
theorem after_cell (h : st.Of c d block b) {a : Uint256} {n : ℕ} {cell : Cell}
    (hc : cellsOf c (st.cells.pending d) a = some (n, cell)) :
    Collected c d block a ∧ cellsOf c (b.after d) a = none ∨
      ¬ Collected c d block a ∧ ∃ m, cellsOf c (b.after d) a = some (m, cell) := by
  obtain ⟨m, hm⟩ := h.raised_cell hc
  rw [h.cells_after]
  have hlow := h.lowered_eq
  cases hroot : st.oldRoot with
  | none =>
    rw [hroot] at hlow
    have hsame : st.raised = st.lowered := Except.ok.inj hlow
    refine Or.inr ⟨?_, m, ?_⟩
    · rintro ⟨root, hshard, _⟩
      rw [h.oldRoot_eq, hroot] at hshard
      cases hshard
    · rw [← hsame, ← hm]
      exact cellsOf_congr (after_of_not_removed (h.raised_removes a))
  | some root =>
    rw [hroot] at hlow
    rw [← h.collected_iff hroot hm]
    exact adjust_down_cell hlow h.raised_removes hm

end Stages.Of

/-! ## reading back -/

theorem getCell_none {a : Uint256} (h : cellsOf c d.read a = none) (cell : Cell) :
    getCell c d a ≠ .ok (some cell) := by
  intro hget
  unfold getCell at hget
  unfold cellsOf at h
  cases hr : d.read (.cell a) with
  | none =>
    rw [hr] at hget
    cases hget
  | some v =>
    rw [hr] at hget h
    dsimp only at hget h
    cases hd : decodeCellRecord c a v with
    | error e =>
      rw [hd] at hget
      cases hget
    | ok x =>
      rw [hd] at h
      cases h

/-- a cell that was put is read back exactly if it is not collected -/
theorem getCell_put (hst : st.Of c d block b) {a : Uint256} {n : ℕ} {cell : Cell}
    (hc : cellsOf c (st.cells.pending d) a = some (n, cell)) (cell' : Cell) :
    getCell c (commit b d).2 a = .ok (some cell') ↔ ¬ Collected c d block a ∧ cell' = cell := by
  rcases hst.after_cell hc with ⟨hcol, hgone⟩ | ⟨hkept, m, hm⟩
  · rw [← cellsOf_commit] at hgone
    exact ⟨fun hget => absurd hget (getCell_none hgone cell'), fun hno => absurd hcol hno.1⟩
  · rw [← cellsOf_commit] at hm
    rw [(getCell_of_cellsOf hm).1]
    constructor
    · intro heq
      cases heq
      exact ⟨hkept, rfl⟩
    · rintro ⟨_, rfl⟩
      rfl

/-- bags that are read back share no hash, neither with each other nor with the new state -/
theorem noCollision_of_reads (hst : st.Of c d block b)
    (h : ∀ boc ∈ block.cellBocs, ∀ cell ∈ boc.cells.values,
      getCell c (commit b d).2 (cell.hash c) = .ok (some cell)) :
    NoCollision c (block.putList c) := by
  have hbag : ∀ x ∈ block.cellBocs.flatMap (fun boc => boc.cells.values),
      getCell c (commit b d).2 (x.hash c) = .ok (some x) := by
    intro x hx
    obtain ⟨boc, hboc, hcell⟩ := List.mem_flatMap.mp hx
    exact h boc hboc x hcell
  -- a cell of the new state is held before the old root is given back
  have hmixed : ∀ x ∈ block.cellBocs.flatMap (fun boc => boc.cells.values),
      ∀ y ∈ (cellMap c (block.state.trieCells c)).values, x.hash c = y.hash c → x = y := by
    intro x hx y hy heq
    obtain ⟨k, hk⟩ := OrdMap.mem_values_iff.mp hy
    obtain ⟨n, hn⟩ := state_cells hst.proof_eq hst.puts_eq hst.cells_eq hk
    have hread := hbag x hx
    rw [heq, (mem_of_cellMap hk).2] at hread
    exact ((getCell_put hst hn x).mp hread).2
  intro x hx y hy heq
  rcases List.mem_append.mp hx with hx | hx <;> rcases List.mem_append.mp hy with hy | hy
  · have hread := hbag x hx
    rw [heq, hbag y hy] at hread
    cases hread
    rfl
  · exact hmixed x hx y hy heq
  · exact (hmixed y hy x hx heq.symm).symm
  · exact noCollision_values _ x hx y hy heq

theorem commit_readsBack (hst : st.Of c d block b) :
    (∀ boc ∈ block.cellBocs, ∀ cell ∈ boc.cells.values,
      getCell c (commit b d).2 (cell.hash c) = .ok (some cell)) ↔
    NoCollision c (block.putList c) ∧ ∀ boc ∈ block.cellBocs, ∀ cell ∈ boc.cells.values,
      ¬ Collected c d block (cell.hash c) := by
  have hmem : ∀ boc ∈ block.cellBocs, ∀ cell ∈ boc.cells.values, cell ∈ block.putList c :=
    fun boc hboc cell hcell =>
      List.mem_append_left _ (List.mem_flatMap.mpr ⟨boc, hboc, hcell⟩)
  constructor
  · intro h
    have hinj := noCollision_of_reads hst h
    refine ⟨hinj, fun boc hboc cell hcell => ?_⟩
    obtain ⟨n, hn⟩ := hst.put_held hinj (hmem boc hboc cell hcell)
    exact ((getCell_put hst hn cell).mp (h boc hboc cell hcell)).1
  · rintro ⟨hinj, hkept⟩ boc hboc cell hcell
    obtain ⟨n, hn⟩ := hst.put_held hinj (hmem boc hboc cell hcell)
    exact (getCell_put hst hn cell).mpr ⟨hkept boc hboc cell hcell, rfl⟩

theorem readsBack_iff (w : World) (call : Call) : ReadsBack c w call ↔ Spares c w call := by
  unfold ReadsBack Spares
  refine imp_congr_right fun hok => ?_
  cases call with
  | commitBlock block =>
    cases hb : (Call.commitBlock block).batch c w.disk with
    | error e =>
      rw [exec_error hb] at hok
      cases hok
    | ok b =>
      obtain ⟨st, hst⟩ := commitBatch_cases (show commitBatch c w.disk block = .ok b from hb)
      rw [exec_ok hb]
      exact commit_readsBack hst
  | putCell cell => exact Iff.rfl
  | putBoc boc => exact Iff.rfl
  | retainCellRoot root => exact Iff.rfl
  | releaseCellRoot root => exact Iff.rfl

/-- **The commits that can be read back**: in a run from any store, all commits are read back if and
only if none of them puts two cells with one hash or drops a cell of its own bags. -/
theorem reads_back_iff (c : Crypto) (w : World) (es : List Call) :
    Along (World.step c) (ReadsBack c) w es ↔ Along (World.step c) (Spares c) w es :=
  along_congr readsBack_iff

end

/-! ## a cell that is lost -/

/-- the bag of the empty state -/
def emptyBoc : BagOfCells := BagOfCells.fromRoot sampleCrypto emptyCell

/-- the second block of a shard: one account, and the cell of the state before -/
def sampleUpdate : BlockCommitment where
  header := { sampleBlock.header with
    seqNo := 2, stateRootHash := (ShardStateTree.new.insert ⟨0⟩ .uninitialized).stateRootHash
      sampleCrypto }
  state := ShardStateTree.new.insert ⟨0⟩ .uninitialized
  cellBocs := [emptyBoc]

/-- the empty state is committed -/
def updatedWorld : World := run (World.step sampleCrypto) World.init [.commitBlock sampleBlock]

theorem updatedWorld_facts : emptyCell ∈ emptyBoc.cells.values ∧
    ((Call.commitBlock sampleUpdate).exec sampleCrypto updatedWorld.disk).1 = .ok () ∧
    getCell sampleCrypto ((Call.commitBlock sampleUpdate).exec sampleCrypto updatedWorld.disk).2
      (emptyCell.hash sampleCrypto) = .ok none := by
  decide +kernel

/-- **A commit loses a cell of its own bag**: the only cell of the state before. -/
theorem loses_cell : ¬ ∀ (c : Crypto) (es : List Call),
    Along (World.step c) (ReadsBack c) World.init es := by
  intro h
  obtain ⟨hcell, hok, hnone⟩ := updatedWorld_facts
  have hall := h sampleCrypto ([.commitBlock sampleBlock] ++ [.commitBlock sampleUpdate])
  have hread : ReadsBack sampleCrypto updatedWorld (.commitBlock sampleUpdate) :=
    (along_append.mp hall).2.1
  have hget := hread hok emptyBoc (List.mem_singleton_self _) emptyCell hcell
  rw [hnone] at hget
  cases hget

end Onx.Storage
