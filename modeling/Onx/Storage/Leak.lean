import Onx.Storage.Retain

/-!
# What is left behind

A retain counts up every cell within reach, while a release goes below a cell only where its count
falls to zero.  A root retained twice and released twice leaves the cells below it counted.

* `no_leak_of_unshared`   no counted cell is left behind while releases and commits drop roots whose
                          cells are counted once on the way down;
* `leaks`                 a root retained twice leaves its leaf behind.
-/

namespace Onx.Storage
open RefCount Dfs Runs

section
variable {c : Crypto} {d : Disk} {w : World} {call : Call} {es : List Call}

/-- from a cell that is counted once, and not kept by a new state, to its references -/
def SoleEdge (c : Crypto) (d : Disk) (keep : Uint256 → Prop) (x y : Uint256) : Prop :=
  cellRefcount c d x = .ok (some 1) ∧ ¬ keep x ∧ y ∈ refsOf c d x

/-- every cell below a root is met along cells that are counted once -/
def DropsAll (c : Crypto) (d : Disk) (keep : Uint256 → Prop) (root : Uint256) : Prop :=
  ∀ a, Reach (refsOf c d) root a → Relation.ReflTransGen (SoleEdge c d keep) root a

/-- a call that takes effect drops no root with shared cells below it -/
def Unshared (c : Crypto) (w : World) (call : Call) : Prop :=
  (call.exec c w.disk).1 = .ok () → match call with
    | .releaseCellRoot root => DropsAll c w.disk (fun _ => False) root
    | .commitBlock block => ∀ root, shardStateRoot w.disk block.header.shard = .ok (some root) →
      DropsAll c w.disk (InState c block.state) root
    | _ => True

theorem cellsOf_of_refcount {a : Uint256} {n : Uint64}
    (h : cellRefcount c d a = .ok (some n)) :
    ∃ cell, cellsOf c d.read a = some (n.toNat, cell) := by
  unfold cellRefcount at h
  cases hr : d.read (.cell a) with
  | none =>
    rw [hr] at h
    cases h
  | some v =>
    rw [hr] at h
    dsimp only at h
    cases hd : decodeCellRecord c a v with
    | error e =>
      rw [hd] at h
      cases h
    | ok x =>
      rw [hd] at h
      cases h
      exact ⟨x.2, cellsOf_decode hr hd⟩

/-- no cell is counted otherwise than live roots reach it -/
def Accounted (c : Crypto) (w : World) : Prop :=
  ∃ shards, Shards w.disk shards ∧
    Exact Cell.cellRefs (cellsOf c w.disk.read) (w.retained ++ shards.map Prod.snd)

theorem accounted_init : Accounted c World.init :=
  ⟨[], shards_init, fun _ => rfl⟩

/-- a released root without shared cells is dropped as a whole -/
theorem meetsAll_release {root : Uint256} (h : DropsAll c d (fun _ => False) root) :
    MeetsAll Cell.cellRefs (cellsOf c d.read) root := by
  intro a ha
  have hpath := h a (by rw [refsOf_eq]; exact ha)
  refine Relation.ReflTransGen.mono (fun x y hxy => ?_) _ _ hpath
  obtain ⟨hone, _, hy⟩ := hxy
  obtain ⟨cell, hc⟩ := cellsOf_of_refcount hone
  unfold sole
  have hcount : count (cellsOf c d.read) x = 1 := count_some hc
  rw [refsOf_eq] at hy
  rw [if_pos hcount]
  exact hy

namespace Stages.Of
variable {block : BlockCommitment} {b : Batch} {st : Stages}

/-- a cell that was counted once, and is not in the new state, still is -/
theorem raised_of_once (h : st.Of c d block b) {a : Uint256}
    (hone : cellRefcount c d a = .ok (some 1)) (hnew : ¬ InState c block.state a) :
    ∃ cell, cellsOf c d.read a = some (1, cell)
      ∧ cellsOf c (st.raised.pending d) a = some (1, cell) := by
  obtain ⟨cell, hc⟩ := cellsOf_of_refcount hone
  refine ⟨cell, hc, ?_⟩
  rw [h.up.other a fun hr => hnew ((h.reach_state a).mp hr)]
  exact h.puts.keep a _ hc

/-- along such cells the old root is given back -/
theorem sole_of_soleEdges (h : st.Of c d block b) {root a : Uint256}
    (ha : Relation.ReflTransGen (SoleEdge c d (InState c block.state)) root a) :
    Reach (sole Cell.cellRefs (cellsOf c (st.raised.pending d))) root a := by
  refine Relation.ReflTransGen.mono (fun x y hxy => ?_) _ _ ha
  obtain ⟨hone, hnew, hy⟩ := hxy
  obtain ⟨cell, hc, hraised⟩ := h.raised_of_once hone hnew
  rw [refsOf_eq, next_some hc] at hy
  unfold sole
  rw [if_pos (count_some hraised), next_some hraised]
  exact hy

end Stages.Of

/-- an old shard root without shared cells is dropped as a whole -/
theorem meetsAll_commit {block : BlockCommitment} {b : Batch} {st : Stages}
    (hst : st.Of c d block b) {R : List Uint256} (held : Held Cell.cellRefs (cellsOf c d.read) R)
    {root : Uint256} (hroot : root ∈ R) (h : DropsAll c d (InState c block.state) root) :
    MeetsAll Cell.cellRefs (cellsOf c (st.raised.pending d)) root := by
  intro a ha
  rw [hst.reach_held held hroot] at ha
  exact hst.sole_of_soleEdges (h a (by rw [refsOf_eq]; exact ha))

/-- **A matched call that drops no shared cells keeps the account.** -/
theorem accounted_step (h : Accounted c w) (hm : Matched w call) (hu : Unshared c w call) :
    Accounted c (w.step c call) := by
  obtain ⟨shards, hs, hexact⟩ := h
  have hrelease : ∀ b, call.batch c w.disk = .ok b → ∀ r, call = .releaseCellRoot r →
      MeetsAll Cell.cellRefs (cellsOf c w.disk.read) r := by
    intro b hb r hr
    subst hr
    exact meetsAll_release (hu (by rw [exec_ok hb]))
  have hcommit : ∀ b block st, call = .commitBlock block → Stages.Of c w.disk block b st →
      ∀ r, st.oldRoot = some r →
        MeetsAll Cell.cellRefs (cellsOf c (st.raised.pending w.disk)) r := by
    intro b block st hcall hst r hr
    subst hcall
    have hroot : shardStateRoot w.disk block.header.shard = .ok (some r) := by
      rw [hst.oldRoot_eq, hr]
    have hexec : ((Call.commitBlock block).exec c w.disk).1 = .ok () := by
      rw [exec_ok (show (Call.commitBlock block).batch c w.disk = .ok b from hst.batch)]
    exact meetsAll_commit hst hexact.held (List.mem_append_right _
      (List.mem_map.mpr ⟨_, (hs.mem _ _).mpr hroot, rfl⟩)) (hu hexec r hroot)
  obtain ⟨shards', hs', hmoves⟩ := step_moves hs hexact.held hm hrelease hcommit
  exact ⟨shards', hs', hexact.moves hmoves⟩

theorem accounted_run
    (h : Along (World.step c) (fun w call => Matched w call ∧ Unshared c w call) World.init es) :
    Accounted c (run (World.step c) World.init es) :=
  h.inv (fun _ _ hi hp => accounted_step hi hp.1 hp.2) accounted_init

/-- **No counted cell is left behind** in a run that drops no shared cells. -/
theorem no_leak_of_unshared
    (h : Along (World.step c) (fun w call => Matched w call ∧ Unshared c w call) World.init es)
    {a : Uint256} {n : Uint64}
    (hn : cellRefcount c (run (World.step c) World.init es).disk a = .ok (some n))
    (hpos : 1 ≤ n.toNat) : ∃ r, LiveRoot (run (World.step c) World.init es) r ∧
      Reach (refsOf c (run (World.step c) World.init es).disk) r a := by
  obtain ⟨shards, hs, hexact⟩ := accounted_run h
  obtain ⟨cell, hc⟩ := cellsOf_of_refcount hn
  obtain ⟨r, hr, hreach⟩ := hexact.reachable (a := a) (by rw [count_some hc]; exact hpos)
  refine ⟨r, (liveRoot_iff hs).mpr hr, ?_⟩
  rw [refsOf_eq]
  exact hreach

end

/-- the empty state and the two cells below a root that is retained once -/
def retainedWorld : World := run (World.step sampleCrypto) World.init
  [.commitBlock sampleBlock, .retainCellRoot sampleBoc.rootHash]

theorem retainedWorld_facts : sampleBoc.rootHash ∈ retainedWorld.retained ∧
    refsOf sampleCrypto retainedWorld.disk sampleBoc.rootHash = [sampleLeaf.hash sampleCrypto] ∧
    refsOf sampleCrypto retainedWorld.disk (sampleLeaf.hash sampleCrypto) = [] ∧
    cellRefcount sampleCrypto retainedWorld.disk sampleBoc.rootHash = .ok (some 1) ∧
    cellRefcount sampleCrypto (retainedWorld.step sampleCrypto
      (.releaseCellRoot sampleBoc.rootHash)).disk sampleBlock.header.stateRootHash
        = .ok (some 1) := by
  decide +kernel

theorem retainedWorld_dropsAll :
    DropsAll sampleCrypto retainedWorld.disk (fun _ => False) sampleBoc.rootHash := by
  obtain ⟨_, hroot, hleaf, hone, _⟩ := retainedWorld_facts
  intro a ha
  rcases Relation.ReflTransGen.cases_head ha with rfl | ⟨y, hy, hya⟩
  · exact Relation.ReflTransGen.refl
  · refine Relation.ReflTransGen.single ⟨hone, id, ?_⟩
    have hyl : y = sampleLeaf.hash sampleCrypto := by
      rw [hroot] at hy
      exact List.mem_singleton.mp hy
    rcases Relation.ReflTransGen.cases_head hya with rfl | ⟨z, hz, _⟩
    · exact hy
    · rw [hyl, hleaf] at hz
      cases hz

/-- after one retain and one release only the empty state is left -/
theorem no_leak_of_unshared_sample : ∃ r,
    LiveRoot (retainedWorld.step sampleCrypto (.releaseCellRoot sampleBoc.rootHash)) r ∧
      Reach (refsOf sampleCrypto
        (retainedWorld.step sampleCrypto (.releaseCellRoot sampleBoc.rootHash)).disk) r
        sampleBlock.header.stateRootHash := by
  obtain ⟨hmem, _, _, _, hcount⟩ := retainedWorld_facts
  have hfirst : Along (World.step sampleCrypto)
      (fun w call => Matched w call ∧ Unshared sampleCrypto w call) World.init
      [.commitBlock sampleBlock, .retainCellRoot sampleBoc.rootHash] := by
    refine ⟨⟨trivial, fun _ root hroot => ?_⟩, ⟨trivial, fun _ => trivial⟩, trivial⟩
    -- the shard had no root
    have hnone : shardStateRoot World.init.disk sampleBlock.header.shard = .ok none := rfl
    rw [hnone] at hroot
    cases hroot
  have hlast : Along (World.step sampleCrypto)
      (fun w call => Matched w call ∧ Unshared sampleCrypto w call) retainedWorld
      [.releaseCellRoot sampleBoc.rootHash] :=
    ⟨⟨hmem, fun _ => retainedWorld_dropsAll⟩, trivial⟩
  have hall : Along (World.step sampleCrypto)
      (fun w call => Matched w call ∧ Unshared sampleCrypto w call) World.init
      ([.commitBlock sampleBlock, .retainCellRoot sampleBoc.rootHash]
        ++ [.releaseCellRoot sampleBoc.rootHash]) :=
    along_append.mpr ⟨hfirst, hlast⟩
  have hleft := no_leak_of_unshared (a := sampleBlock.header.stateRootHash) (n:=1) hall
  rw [run_concat] at hleft
  exact hleft hcount (by decide)

/-! ## a leak -/

/-- a root that is retained twice and released twice -/
def sampleReleases : List Call :=
  [.commitBlock sampleBlock, .retainCellRoot sampleBoc.rootHash,
    .retainCellRoot sampleBoc.rootHash, .releaseCellRoot sampleBoc.rootHash,
    .releaseCellRoot sampleBoc.rootHash]

def leakyWorld : World := run (World.step sampleCrypto) World.init sampleReleases

/-- all there is: the empty state is the only live root, and the leaf is counted -/
theorem leakyWorld_facts : Along (World.step sampleCrypto) Matched World.init sampleReleases ∧
    leakyWorld.retained = [] ∧
    (∀ e ∈ leakyWorld.disk.files.entries, SHARD_STATES.isPrefixOf e.1 →
      e.1 = (FileKey.shardState sampleBlock.header.shard).path) ∧
    shardStateRoot leakyWorld.disk sampleBlock.header.shard
      = .ok (some sampleBlock.header.stateRootHash) ∧
    refsOf sampleCrypto leakyWorld.disk sampleBlock.header.stateRootHash = [] ∧
    sampleBlock.header.stateRootHash ≠ sampleLeaf.hash sampleCrypto ∧
    cellRefcount sampleCrypto leakyWorld.disk (sampleLeaf.hash sampleCrypto) = .ok (some 1) := by
  decide +kernel

theorem file_of_shardStateRoot {d : Disk} {s : ShardIdent} {r : Uint256}
    (h : shardStateRoot d s = .ok (some r)) :
    ∃ v, ((FileKey.shardState s).path, v) ∈ d.files.entries := by
  cases hv : d.read (.shardState s) with
  | none =>
    unfold shardStateRoot at h
    rw [hv] at h
    cases h
  | some v => exact ⟨v, OrdMap.mem_entries_iff.mpr hv⟩

theorem shardStates_path (s : ShardIdent) :
    SHARD_STATES.isPrefixOf (FileKey.shardState s).path = true :=
  List.isPrefixOf_iff_prefix.mpr ⟨_, rfl⟩

/-- **A matched run leaves a counted cell behind** that no live root reaches. -/
theorem leaks : ¬ ∀ (c : Crypto) (es : List Call), Along (World.step c) Matched World.init es →
    (∀ e ∈ es, (∃ block, e = .commitBlock block) ∨ (∃ r, e = .retainCellRoot r)
      ∨ ∃ r, e = .releaseCellRoot r) →
    ∀ a n, cellRefcount c (run (World.step c) World.init es).disk a = .ok (some n) → 1 ≤ n.toNat →
      ∃ r, LiveRoot (run (World.step c) World.init es) r ∧
        Reach (refsOf c (run (World.step c) World.init es).disk) r a := by
  intro hall
  obtain ⟨hm, hret, hfiles, hroot, hrefs, hne, hcount⟩ := leakyWorld_facts
  have hrun : run (World.step sampleCrypto) World.init sampleReleases = leakyWorld := rfl
  have hreached := hall sampleCrypto sampleReleases hm (by simp [sampleReleases])
  rw [hrun] at hreached
  obtain ⟨r, hlive, hreach⟩ := hreached (sampleLeaf.hash sampleCrypto) 1 hcount (by decide)
  have hr : r = sampleBlock.header.stateRootHash := by
    rcases hlive with h | ⟨s, hs⟩
    · rw [hret] at h
      cases h
    · obtain ⟨v, hfile⟩ := file_of_shardStateRoot hs
      have hpath := hfiles _ hfile (shardStates_path s)
      have hkey : s = sampleBlock.header.shard :=
        FileKey.shardState.inj (FileKey.path_inj hpath)
      rw [hkey, hroot] at hs
      cases hs
      rfl
  subst hr
  rcases Relation.ReflTransGen.cases_head hreach with heq | ⟨y, hy, _⟩
  · exact hne heq
  · rw [hrefs] at hy
    cases hy

end Onx.Storage
