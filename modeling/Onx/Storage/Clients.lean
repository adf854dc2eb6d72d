import Mathlib.Data.List.Perm.Basic
import Onx.Lib.Runs
import Onx.Storage.Block

/-!
# Clients of the store

A run of calls, with a record of the roots that are still retained and of the last state of each
shard.  `step_moves`: on the stored cells, a call is a sequence of moves of a counted heap whose
roots are the retained ones and those of the shards.
-/

namespace Onx.Storage
open RefCount Dfs Runs

structure World where
  disk : Disk
  /-- roots with a successful retain and no release yet -/
  retained : List Uint256
  /-- the state of the last successful commit of each shard -/
  committed : ShardIdent → Option ShardStateTree

namespace World

/-- a new store -/
def init : World := ⟨⟨OrdMap.empty, none⟩, [], fun _ => none⟩

/-- what a successful call changes in the record -/
def record (w : World) : Call → World
  | .retainCellRoot root => { w with retained := root :: w.retained }
  | .releaseCellRoot root => { w with retained := w.retained.erase root }
  | .commitBlock block =>
    { w with committed := Function.update w.committed block.header.shard (some block.state) }
  | _ => w

def step (c : Crypto) (w : World) (call : Call) : World :=
  match call.exec c w.disk with
  | (.error _, d) => { w with disk := d }
  | (.ok (), d) => { w.record call with disk := d }

end World

/-- a release matches an earlier retain that no other release matches -/
def Matched (w : World) : Call → Prop
  | .releaseCellRoot root => root ∈ w.retained
  | _ => True

instance : ∀ w call, Decidable (Matched w call)
  | w, .releaseCellRoot root => inferInstanceAs (Decidable (root ∈ w.retained))
  | _, .putCell _ => inferInstanceAs (Decidable True)
  | _, .putBoc _ => inferInstanceAs (Decidable True)
  | _, .commitBlock _ => inferInstanceAs (Decidable True)
  | _, .retainCellRoot _ => inferInstanceAs (Decidable True)

/-- the references of a stored cell -/
def refsOf (c : Crypto) (d : Disk) (h : Uint256) : List Uint256 :=
  match getCell c d h with
  | .ok (some cell) => cell.cellRefs
  | _ => []

/-- a root that is retained or belongs to a shard -/
def LiveRoot (w : World) (r : Uint256) : Prop :=
  r ∈ w.retained ∨ ∃ s, shardStateRoot w.disk s = .ok (some r)

/-- the roots of the shards, one for each shard with a state -/
structure Shards (d : Disk) (shards : List (ShardIdent × Uint256)) : Prop where
  nodup : (shards.map Prod.fst).Nodup
  mem : ∀ s r, (s, r) ∈ shards ↔ shardStateRoot d s = .ok (some r)

section
variable {c : Crypto} {d d' : Disk} {w : World} {call : Call} {b : Batch}
  {shards : List (ShardIdent × Uint256)}

theorem step_of_ok (h : call.batch c w.disk = .ok b) :
    w.step c call = { w.record call with disk := (commit b w.disk).2 } := by
  unfold World.step
  rw [exec_ok h]

theorem step_of_error {e : StorageError} (h : call.batch c w.disk = .error e) :
    w.step c call = w := by
  unfold World.step
  rw [exec_error h]

theorem refsOf_eq (c : Crypto) (d : Disk) :
    refsOf c d = next Cell.cellRefs (cellsOf c d.read) := by
  funext h
  unfold refsOf next cellsOf getCell
  cases d.read (.cell h) with
  | none => rfl
  | some v =>
    dsimp only
    cases decodeCellRecord c h v with
    | error e => rfl
    | ok x => rfl

/-! ## shard roots -/

theorem shardStateRoot_congr {s : ShardIdent} (h : d'.read (.shardState s) = d.read (.shardState s)) :
    shardStateRoot d' s = shardStateRoot d s := by
  unfold shardStateRoot
  rw [h]

theorem shardStateRoot_record {s : ShardIdent} {r : Uint256}
    (h : d.read (.shardState s) = some (encodeWord 32 r)) : shardStateRoot d s = .ok (some r) := by
  unfold shardStateRoot
  rw [h]
  dsimp only
  rw [if_pos (length_encodeWord 32 r), decodeWord_encodeWord (n:=32) rfl]

theorem Shards.congr (h : Shards d shards)
    (hd : ∀ s, d'.read (.shardState s) = d.read (.shardState s)) : Shards d' shards := by
  refine ⟨h.nodup, fun s r => ?_⟩
  rw [shardStateRoot_congr (hd s)]
  exact h.mem s r

theorem liveRoot_iff (h : Shards w.disk shards) {r : Uint256} :
    LiveRoot w r ↔ r ∈ w.retained ++ shards.map Prod.snd := by
  unfold LiveRoot
  rw [List.mem_append]
  refine or_congr_right ⟨?_, fun hr => ?_⟩
  · rintro ⟨s, hs⟩
    exact List.mem_map.mpr ⟨(s, r), (h.mem s r).mpr hs, rfl⟩
  · obtain ⟨⟨s, r'⟩, hm, rfl⟩ := List.mem_map.mp hr
    exact ⟨s, (h.mem s r').mp hm⟩

/-- the entries of the other keys -/
def others (s : ShardIdent) (shards : List (ShardIdent × Uint256)) :
    List (ShardIdent × Uint256) := shards.filter (fun x => x.1 ≠ s)

theorem perm_others {s : ShardIdent} {r : Uint256} (hn : (shards.map Prod.fst).Nodup)
    (hm : (s, r) ∈ shards) : shards.Perm ((s, r) :: others s shards) := by
  induction shards with
  | nil => cases hm
  | cons x shards ih =>
    obtain ⟨hx, hn'⟩ := List.nodup_cons.mp hn
    unfold others
    by_cases hs : x.1 = s
    · have hrest : ∀ y ∈ shards, y.1 ≠ s := fun y hy heq =>
        hx (List.mem_map.mpr ⟨y, hy, heq.trans hs.symm⟩)
      have hhead : (s, r) = x := by
        rcases List.mem_cons.mp hm with h | h
        · exact h
        · exact absurd rfl (hrest _ h)
      rw [List.filter_cons_of_neg (by simp [hs]),
        List.filter_eq_self.mpr (fun y hy => by simpa using hrest y hy), hhead]
    · have htail : (s, r) ∈ shards := by
        rcases List.mem_cons.mp hm with h | h
        · exact absurd (h ▸ rfl) hs
        · exact h
      rw [List.filter_cons_of_pos (by simpa using hs)]
      exact ((ih hn' htail).cons x).trans (List.Perm.swap _ _ _)

theorem others_eq_self {s : ShardIdent} (h : ∀ r, (s, r) ∉ shards) : others s shards = shards :=
  List.filter_eq_self.mpr fun x hx => by
    simp only [decide_eq_true_eq]
    intro heq
    exact h x.2 (by rw [← heq]; exact hx)

/-- a commit gives its shard a new root -/
theorem Shards.commit (h : Shards d shards) {s : ShardIdent} {r : Uint256}
    (hnew : shardStateRoot d' s = .ok (some r))
    (hold : ∀ t, t ≠ s → shardStateRoot d' t = shardStateRoot d t) :
    Shards d' ((s, r) :: others s shards) := by
  constructor
  · rw [List.map_cons, List.nodup_cons]
    constructor
    · intro hm
      obtain ⟨x, hx, heq⟩ := List.mem_map.mp hm
      have hne := (List.mem_filter.mp hx).2
      simp only [decide_eq_true_eq] at hne
      exact hne heq
    · exact h.nodup.sublist ((List.filter_sublist).map Prod.fst)
  · intro t r'
    rw [List.mem_cons]
    unfold others
    rw [List.mem_filter]
    simp only [decide_eq_true_eq]
    by_cases ht : t = s
    · subst ht
      rw [hnew]
      constructor
      · rintro (heq | ⟨_, hne⟩)
        · rw [(Prod.mk.inj heq).2]
        · exact absurd rfl hne
      · intro heq
        cases heq
        exact Or.inl rfl
    · rw [hold t ht, ← h.mem t r']
      constructor
      · rintro (heq | ⟨hm, _⟩)
        · exact absurd (Prod.mk.inj heq).1 ht
        · exact hm
      · exact fun hm => Or.inr ⟨hm, ht⟩

/-! ## calls as moves -/

/-- the cells of a disk after the commit of a batch -/
theorem cellsOf_commit (b : Batch) (d : Disk) :
    cellsOf c (commit b d).2.read = cellsOf c (b.after d) := by
  funext a
  exact cellsOf_congr (read_after b d _)

theorem puts_moves (hb : CellPuts c d Batch.default b) :
    Puts (cellsOf c d.read) (cellsOf c (commit b d).2.read)
      ∧ ∀ s, (commit b d).2.read (.shardState s) = d.read (.shardState s) := by
  have hrem : ∀ k, k ∉ b.removes := by
    rw [hb.removes]
    exact fun _ => List.not_mem_nil
  have hafter : b.after d = b.pending d := funext fun k => after_of_not_removed (hrem k)
  rw [cellsOf_commit, hafter]
  refine ⟨(hb.fresh freshCells_default).puts, fun s => ?_⟩
  rw [read_after, hafter]
  exact pending_of_lastPut (hb.other _ fun _ heq => FileKey.noConfusion heq)

/-- only the cells differ after a pass -/
theorem CellsOnly.read {k : FileKey} (hb : CellsOnly Batch.default b) (hk : ∀ h, k ≠ .cell h) :
    (commit b d).2.read k = d.read k := by
  have hrem : k ∉ b.removes := fun hm => absurd ((hb.removes k hk).mp hm) List.not_mem_nil
  rw [read_after, after_of_not_removed hrem]
  exact pending_of_lastPut (hb.lastPut k hk)

/-- the new root of a shard joins the roots, and its old one stands apart -/
theorem perm_roots {l : List Uint256} {s : ShardIdent} {r : Uint256} (root : Uint256)
    (hn : (shards.map Prod.fst).Nodup) (hm : (s, r) ∈ shards) :
    (root :: (l ++ shards.map Prod.snd)).Perm
      (r :: (l ++ (root :: (others s shards).map Prod.snd))) := by
  have hsplit : (shards.map Prod.snd).Perm (r :: (others s shards).map Prod.snd) :=
    (perm_others hn hm).map Prod.snd
  refine ((hsplit.append_left l).cons _).trans ?_
  refine ((List.perm_middle).cons _).trans ?_
  exact (List.Perm.swap _ _ _).trans (List.perm_middle.symm.cons _)

/-- **A commit is a sequence of moves**: cells are put, the new root of the shard is counted, and
the old one, if there is one, is given back. -/
theorem commit_moves {P : Heap Uint256 Cell → Uint256 → Prop} {block : BlockCommitment}
    {st : Stages} (hs : Shards w.disk shards)
    (held : Held Cell.cellRefs (cellsOf c w.disk.read) (w.retained ++ shards.map Prod.snd))
    (hst : Stages.Of c w.disk block b st)
    (hold : ∀ r, st.oldRoot = some r → P (cellsOf c (st.raised.pending w.disk)) r) :
    ∃ shards', Shards (commit b w.disk).2 shards' ∧
      Relation.ReflTransGen (Move Cell.cellRefs P)
        (cellsOf c w.disk.read, w.retained ++ shards.map Prod.snd)
        (cellsOf c (commit b w.disk).2.read, w.retained ++ shards'.map Prod.snd) := by
  have holdMem : ∀ r, st.oldRoot = some r → (block.header.shard, r) ∈ shards := by
    intro r hr
    rw [hs.mem, hst.oldRoot_eq, hr]
  have hcells := commit_cells hst held fun r hr =>
    List.mem_append_right _ (List.mem_map.mpr ⟨_, holdMem r hr, rfl⟩)
  -- the shard has its new root, the other shards keep theirs
  have hnew : shardStateRoot (commit b w.disk).2 block.header.shard
      = .ok (some (block.state.stateRootHash c)) := by
    refine shardStateRoot_record ?_
    rw [read_after, hst.after_shardState, if_pos rfl]
  have hkeep : ∀ t, t ≠ block.header.shard →
      shardStateRoot (commit b w.disk).2 t = shardStateRoot w.disk t := by
    intro t ht
    refine shardStateRoot_congr ?_
    rw [read_after, hst.after_shardState, if_neg ht]
  refine ⟨_, hs.commit hnew hkeep, ?_⟩
  rw [cellsOf_commit]
  show Relation.ReflTransGen _ _ (_, w.retained ++ (block.state.stateRootHash c
    :: (others block.header.shard shards).map Prod.snd))
  have hmid : Relation.ReflTransGen (Move Cell.cellRefs P)
      (cellsOf c w.disk.read, w.retained ++ shards.map Prod.snd)
      (cellsOf c (st.raised.pending w.disk), block.state.stateRootHash c
        :: (w.retained ++ shards.map Prod.snd)) :=
    (Relation.ReflTransGen.single (Move.puts hst.puts)).tail (Move.up hst.up)
  cases hr : st.oldRoot with
  | none =>
    rw [hr] at hcells
    dsimp only at hcells
    have hself : others block.header.shard shards = shards := by
      refine others_eq_self fun r hmem => ?_
      rw [hs.mem, hst.oldRoot_eq, hr] at hmem
      cases hmem
    rw [hcells, hself]
    exact hmid.tail (Move.perm List.perm_middle.symm)
  | some r =>
    rw [hr] at hcells
    dsimp only at hcells
    have hperm := perm_roots (l := w.retained) (block.state.stateRootHash c) hs.nodup (holdMem r hr)
    refine (hmid.tail (Move.perm hperm)).tail ?_
    have hdown := Move.down (P := P) (List.mem_cons_self) (hold r hr) hcells
        (R := r :: (w.retained ++ (block.state.stateRootHash c
          :: (others block.header.shard shards).map Prod.snd)))
    rw [List.erase_cons_head] at hdown
    exact hdown

/-- **On the cells, a call is a sequence of moves.**  `P` is a condition on the roots that are
given back, by a release or by a commit that replaces the state of a shard. -/
theorem step_moves {P : Heap Uint256 Cell → Uint256 → Prop} (hs : Shards w.disk shards)
    (held : Held Cell.cellRefs (cellsOf c w.disk.read) (w.retained ++ shards.map Prod.snd))
    (hm : Matched w call)
    (hrelease : ∀ b, call.batch c w.disk = .ok b → ∀ r, call = .releaseCellRoot r →
      P (cellsOf c w.disk.read) r)
    (hcommit : ∀ b block st, call = .commitBlock block → Stages.Of c w.disk block b st →
      ∀ r, st.oldRoot = some r → P (cellsOf c (st.raised.pending w.disk)) r) :
    ∃ shards', Shards (w.step c call).disk shards' ∧
      Relation.ReflTransGen (Move Cell.cellRefs P)
        (cellsOf c w.disk.read, w.retained ++ shards.map Prod.snd)
        (cellsOf c (w.step c call).disk.read,
          (w.step c call).retained ++ shards'.map Prod.snd) := by
  cases hb : call.batch c w.disk with
  | error e =>
    rw [step_of_error hb]
    exact ⟨shards, hs, Relation.ReflTransGen.refl⟩
  | ok b =>
    rw [step_of_ok hb]
    cases call with
    | putCell cell =>
      obtain ⟨hput, hread⟩ := puts_moves (putCells_spec hb)
      exact ⟨shards, hs.congr hread, Relation.ReflTransGen.single (Move.puts hput)⟩
    | putBoc boc =>
      have hcells : putCells c w.disk boc.cells.values Batch.default = .ok b := by
        dsimp only [Call.batch] at hb
        cases hv : ofState boc.verifyDag with
        | error e =>
          rw [hv] at hb
          cases hb
        | ok u =>
          rw [hv] at hb
          exact hb
      obtain ⟨hput, hread⟩ := puts_moves (putCells_spec hcells)
      exact ⟨shards, hs.congr hread, Relation.ReflTransGen.single (Move.puts hput)⟩
    | retainCellRoot root =>
      obtain ⟨hup, hrem, _⟩ := adjust_up (show adjustCell c w.disk root true _ = .ok b from hb)
      have honly := (adjust_rewrites (show adjustCell c w.disk root true _ = .ok b from hb)).1
      have hafter : b.after w.disk = b.pending w.disk := funext fun k =>
        after_of_not_removed (by rw [hrem]; exact List.not_mem_nil)
      refine ⟨shards, hs.congr fun s => honly.read fun _ heq => FileKey.noConfusion heq, ?_⟩
      rw [cellsOf_commit, hafter]
      exact Relation.ReflTransGen.single (Move.up hup)
    | releaseCellRoot root =>
      have hroot : root ∈ w.retained := hm
      have honly := (adjust_rewrites (show adjustCell c w.disk root false _ = .ok b from hb)).1
      have hdown := adjust_down (show adjustCell c w.disk root false _ = .ok b from hb)
        (fun _ => List.not_mem_nil) (fun _ _ _ => rfl)
      refine ⟨shards, hs.congr fun s => honly.read fun _ heq => FileKey.noConfusion heq, ?_⟩
      have herase : (w.retained ++ shards.map Prod.snd).erase root
          = w.retained.erase root ++ shards.map Prod.snd := List.erase_append_left _ hroot
      rw [cellsOf_commit]
      show Relation.ReflTransGen _ _ (_, w.retained.erase root ++ shards.map Prod.snd)
      rw [← herase]
      exact Relation.ReflTransGen.single (Move.down (List.mem_append_left _ hroot)
        (hrelease b hb root rfl) hdown)
    | commitBlock block =>
      obtain ⟨st, hst⟩ := commitBatch_cases (show commitBatch c w.disk block = .ok b from hb)
      exact commit_moves hs held hst (hcommit b block st rfl hst)

end

/-! ## a store to evaluate the model at -/

def sampleLeaf : Cell := ⟨[1], [], false, Nat.le_of_ble_eq_true rfl, Nat.zero_le _⟩

/-- a cell over the leaf -/
def sampleNode : Cell := ⟨[2], [sampleLeaf.hash sampleCrypto], false, by decide, by decide⟩

def sampleBoc : BagOfCells :=
  ⟨sampleNode.hash sampleCrypto, cellMap sampleCrypto [sampleLeaf, sampleNode]⟩

/-- a commit of the empty state with the two cells -/
def sampleBlock : BlockCommitment where
  header := { magicConstructor := 0, shard := ShardIdent.root WorkchainIdent.BASIC, seqNo := 1,
              flags := 0, genUtime := 0, startLt := 0, endLt := 0, prevKeyBlock := 0,
              prevRefHash := 0, prevRefHash2 := 0, masterRefHash := 0,
              stateRootHash := ShardStateTree.new.stateRootHash sampleCrypto,
              inMsgRootHash := 0, outMsgRootHash := 0 }
  state := ShardStateTree.new
  cellBocs := [sampleBoc]

end Onx.Storage
