import Onx.Storage.Clients

/-!
# Nothing is collected early

`no_early_collection`: after any run of calls whose releases match earlier retains, every cell
within reach of a shard root or of a retained root is stored, with a positive count.
-/

namespace Onx.Storage
open RefCount Dfs Runs

section
variable {c : Crypto} {w : World} {call : Call} {es : List Call}

/-- no cell is counted less often than live roots reach it -/
def Kept (c : Crypto) (w : World) : Prop :=
  ∃ shards, Shards w.disk shards ∧
    Held Cell.cellRefs (cellsOf c w.disk.read) (w.retained ++ shards.map Prod.snd)

theorem shards_init : Shards World.init.disk [] :=
  ⟨List.nodup_nil, fun _ _ => ⟨fun h => (nomatch h), fun h => (nomatch h)⟩⟩

theorem kept_init : Kept c World.init :=
  ⟨[], shards_init, fun _ => Nat.zero_le _⟩

/-- **Every matched call keeps what is held.** -/
theorem kept_step (h : Kept c w) (hm : Matched w call) : Kept c (w.step c call) := by
  obtain ⟨shards, hs, held⟩ := h
  obtain ⟨shards', hs', hmoves⟩ := step_moves (P := fun _ _ => True) hs held hm
    (fun _ _ _ _ => trivial) (fun _ _ _ _ _ _ _ => trivial)
  exact ⟨shards', hs', held.moves hmoves⟩

theorem kept_run (hm : Along (World.step c) Matched World.init es) :
    Kept c (run (World.step c) World.init es) :=
  hm.inv (fun _ _ h hm => kept_step h hm) kept_init

/-- **No retained cell is collected early.** -/
theorem no_early_collection (hm : Along (World.step c) Matched World.init es) {r a : Uint256}
    (hr : LiveRoot (run (World.step c) World.init es) r)
    (ha : Reach (refsOf c (run (World.step c) World.init es).disk) r a) :
    ∃ cell n, getCell c (run (World.step c) World.init es).disk a = .ok (some cell) ∧
      cellRefcount c (run (World.step c) World.init es).disk a = .ok (some n) ∧ 1 ≤ n.toNat := by
  obtain ⟨shards, hs, held⟩ := kept_run hm
  rw [liveRoot_iff hs] at hr
  rw [refsOf_eq] at ha
  obtain ⟨n, cell, hc⟩ := held.present hr ha
  obtain ⟨hget, hcount⟩ := getCell_of_cellsOf hc
  refine ⟨cell, _, hget, hcount, ?_⟩
  rw [BitVec.toNat_ofNat, Nat.mod_eq_of_lt (cellsOf_some hc).2]
  exact Nat.le_add_left 1 n

end

/-- a root that is retained twice and released once -/
def sampleRetains : List Call :=
  [.commitBlock sampleBlock, .retainCellRoot sampleBoc.rootHash,
    .retainCellRoot sampleBoc.rootHash, .releaseCellRoot sampleBoc.rootHash]

/-- it still holds its leaf -/
theorem no_early_collection_sample : ∃ cell n,
    getCell sampleCrypto (run (World.step sampleCrypto) World.init sampleRetains).disk
      (sampleLeaf.hash sampleCrypto) = .ok (some cell) ∧
    cellRefcount sampleCrypto (run (World.step sampleCrypto) World.init sampleRetains).disk
      (sampleLeaf.hash sampleCrypto) = .ok (some n) ∧ 1 ≤ n.toNat := by
  have h : Along (World.step sampleCrypto) Matched World.init sampleRetains ∧
      sampleBoc.rootHash ∈ (run (World.step sampleCrypto) World.init sampleRetains).retained ∧
      sampleLeaf.hash sampleCrypto ∈ refsOf sampleCrypto
        (run (World.step sampleCrypto) World.init sampleRetains).disk sampleBoc.rootHash := by
    decide +kernel
  exact no_early_collection h.1 (Or.inl h.2.1) ((Reach.refl _ _).step h.2.2)

end Onx.Storage
