import Onx.State.Decode
import Onx.State.Proofs

/-!
# What an accepted proof says

`MerkleProof.verify` compares the magic bytes and the declared root and looks for cycles.  It
looks neither at the target key nor at the cells, and `BagOfCells::new` takes any cell under any
hash.

* `Sound`               what an accepted proof should say about its key;
* `verify_sound_iff`    it does if the bag holds the cells on the path of the key under their
                        hashes, and otherwise only if a forged cell happens to lead to the right
                        end;
* `keyed_sound_iff`     for a content-addressed bag, so for every proof that is read from bytes, a
                        missing cell on the path is the one way to fail;
* `forgery_accepted`    a bag with a forged leaf and a bag without the path are accepted.
-/

namespace Onx.State

section
variable (c : Crypto)

/-- the bits of a key, from bit `256 - n` on, meet a cell stored under the hash of another -/
def MeetsForged (boc : BagOfCells) (key : Uint256) : Nat → Uint256 → Prop
  | 0, h => ∃ cell, boc.getCell h = some cell ∧ cell.hash c ≠ h
  | n + 1, h => ∃ cell, boc.getCell h = some cell ∧ (cell.hash c ≠ h
      ∨ ∃ left right, branchRefs cell = some (left, right)
        ∧ MeetsForged boc key n (if key.getMsbD (255 - n) then right else left))

/-- no two cells of a state and a bag share a hash -/
def CollisionFree (t : ShardStateTree) (boc : BagOfCells) : Prop :=
  NoCollision c (t.trieCells c ++ boc.cells.values)

/-- **What an accepted proof should say**: its root cell has the declared root, and in every state
with this root the bits of the key lead through the bag to the cell that decides it. -/
def Sound (p : MerkleProof) : Prop :=
  p.verify = .ok () →
    (∃ root, p.proofBoc.getCell p.proofBoc.rootHash = some root ∧ root.hash c = p.rootHash)
    ∧ ∀ t : ShardStateTree, t.stateRootHash c = p.rootHash → CollisionFree c t p.proofBoc →
      walk p.proofBoc p.targetKey 256 p.proofBoc.rootHash = some (decidingCell c t p.targetKey)

/-- the bag holds its declared root under the hash of the root -/
def RootHeld (p : MerkleProof) : Prop :=
  ∃ root, p.proofBoc.getCell p.rootHash = some root ∧ root.hash c = p.rootHash

/-- the bag holds the cells that the bits of the key meet in a state, under their hashes -/
def PathHeld (p : MerkleProof) (t : ShardStateTree) : Prop :=
  ∀ d ∈ path c p.targetKey 256 t.trie, p.proofBoc.getCell (d.hash c) = some d

end

section
variable {c : Crypto}

/-- the first cell of a walk, and the walk behind a branch -/
theorem walk_some {boc : BagOfCells} {key h : Uint256} {n : Nat} {d : Cell}
    (hw : walk boc key n h = some d) : ∃ cell, boc.getCell h = some cell
      ∧ ∀ m left right, n = m + 1 → branchRefs cell = some (left, right) →
        walk boc key m (if key.getMsbD (255 - m) then right else left) = some d := by
  cases n with
  | zero =>
    unfold walk at hw
    cases hg : boc.getCell h with
    | none =>
      rw [hg] at hw
      cases hw
    | some cell => exact ⟨cell, rfl, fun m _ _ hm => absurd hm (by omega)⟩
  | succ n =>
    unfold walk at hw
    cases hg : boc.getCell h with
    | none =>
      rw [hg] at hw
      cases hw
    | some cell =>
      refine ⟨cell, rfl, fun m left right hm hrefs => ?_⟩
      cases hm
      rw [hg] at hw
      dsimp only at hw
      rw [hrefs] at hw
      exact hw

/-- a cell under its own hash is the cell of the trie with this hash -/
theorem held_eq {boc : BagOfCells} {t : AccountTrie} {cell : Cell}
    (hinj : NoCollision c (cellsOf c t ++ boc.cells.values))
    (hg : boc.getCell ((rootCell c t).hash c) = some cell)
    (hown : cell.hash c = (rootCell c t).hash c) : cell = rootCell c t :=
  hinj _ (List.mem_append_right _ (OrdMap.mem_values_iff.mpr ⟨_, hg⟩))
    _ (List.mem_append_left _ (rootCell_mem t)) hown

/-- **A walk over cells under their own hashes follows the trie**: the bag holds the path. -/
theorem path_of_walk (boc : BagOfCells) (key : Uint256) : ∀ n t d,
    NoCollision c (cellsOf c t ++ boc.cells.values) →
    ¬ MeetsForged c boc key n ((rootCell c t).hash c) →
    walk boc key n ((rootCell c t).hash c) = some d →
    ∀ e ∈ path c key n t, boc.getCell (e.hash c) = some e := by
  intro n
  induction n with
  | zero =>
    intro t d hinj hforged hw e he
    obtain ⟨cell, hg, _⟩ := walk_some hw
    have hown : cell.hash c = (rootCell c t).hash c := by
      by_contra hne
      exact hforged ⟨cell, hg, hne⟩
    rw [List.mem_singleton.mp he, hg, held_eq hinj hg hown]
  | succ n ih =>
    intro t d hinj hforged hw e he
    obtain ⟨cell, hg, hnext⟩ := walk_some hw
    have hown : cell.hash c = (rootCell c t).hash c := by
      by_contra hne
      exact hforged ⟨cell, hg, Or.inl hne⟩
    have hcell := held_eq hinj hg hown
    subst hcell
    cases t with
    | empty => rw [List.mem_singleton.mp he, hg]
    | leaf key' state => rw [List.mem_singleton.mp he, hg]
    | branch left right =>
      rcases List.mem_cons.mp he with rfl | he
      · exact hg
      · have hrefs := branchRefs_branch (c := c) (rootCell c left) (rootCell c right)
        have hbelow := hnext n _ _ rfl hrefs
        have hclean : ¬ MeetsForged c boc key n
            (if key.getMsbD (255 - n) then (rootCell c right).hash c
              else (rootCell c left).hash c) :=
          fun h => hforged ⟨_, hg, Or.inr ⟨_, _, hrefs, h⟩⟩
        rw [hash_child] at hbelow hclean
        have hchild : NoCollision c
            (cellsOf c (if key.getMsbD (255 - n) then right else left) ++ boc.cells.values) :=
          hinj.mono fun x hx => List.mem_append.mpr
            ((List.mem_append.mp hx).imp_left (cellsOf_child _))
        exact ih _ d hchild hclean hbelow e he

theorem walk_of_pathHeld {p : MerkleProof} {t : ShardStateTree}
    (hroot : t.stateRootHash c = p.rootHash) (h : PathHeld c p t) :
    walk p.proofBoc p.targetKey 256 p.rootHash = some (decidingCell c t p.targetKey) := by
  rw [← hroot, t.stateRootHash_eq]
  exact walk_eq p.proofBoc p.targetKey 256 t.trie h (reach_trie_isBranch t p.targetKey)

theorem pathHeld_of_walk {p : MerkleProof} {t : ShardStateTree} {d : Cell}
    (hroot : t.stateRootHash c = p.rootHash) (hinj : CollisionFree c t p.proofBoc)
    (hforged : ¬ MeetsForged c p.proofBoc p.targetKey 256 p.rootHash)
    (hw : walk p.proofBoc p.targetKey 256 p.rootHash = some d) : PathHeld c p t := by
  unfold CollisionFree at hinj
  rw [t.trieCells_eq] at hinj
  rw [← hroot, t.stateRootHash_eq] at hforged hw
  exact path_of_walk p.proofBoc p.targetKey 256 t.trie d hinj hforged hw

/-- **When a proof is sound**: a check of `verify` rejects it, or the bag holds its root and, for
every state with this root, the path of the key under the hashes of the cells.  Past a forged cell
a proof is sound only by accident. -/
theorem verify_sound_iff (p : MerkleProof) : Sound c p ↔
    (p.magicBytes ≠ MERKLE_PROOF_MAGIC ∨ p.proofBoc.verifyDag ≠ .ok ()
      ∨ p.proofBoc.rootHash ≠ p.rootHash)
    ∨ RootHeld c p ∧ ∀ t : ShardStateTree, t.stateRootHash c = p.rootHash →
      CollisionFree c t p.proofBoc → PathHeld c p t
        ∨ MeetsForged c p.proofBoc p.targetKey 256 p.rootHash
          ∧ walk p.proofBoc p.targetKey 256 p.rootHash
            = some (decidingCell c t p.targetKey) := by
  by_cases hok : p.verify = .ok ()
  · obtain ⟨hmagic, hdag, hroot⟩ := p.verify_ok_iff.mp hok
    constructor
    · intro h
      obtain ⟨hheld, hwalk⟩ := h hok
      rw [hroot] at hheld
      refine Or.inr ⟨hheld, fun t ht hinj => ?_⟩
      have hw := hwalk t ht hinj
      rw [hroot] at hw
      by_cases hforged : MeetsForged c p.proofBoc p.targetKey 256 p.rootHash
      · exact Or.inr ⟨hforged, hw⟩
      · exact Or.inl (pathHeld_of_walk ht hinj hforged hw)
    · intro h _
      rcases h with hfail | ⟨hheld, hpath⟩
      · rcases hfail with h | h | h
        · exact absurd hmagic h
        · exact absurd hdag h
        · exact absurd hroot h
      · rw [hroot]
        refine ⟨hheld, fun t ht hinj => ?_⟩
        rcases hpath t ht hinj with h | ⟨_, h⟩
        · exact walk_of_pathHeld ht h
        · exact h
  · refine ⟨fun _ => Or.inl ?_, fun _ h => absurd h hok⟩
    have hnot := mt p.verify_ok_iff.mpr hok
    by_contra hall
    simp only [not_or, ne_eq, not_not] at hall
    exact hnot hall

/-! ## content-addressed bags -/

theorem not_meetsForged {boc : BagOfCells} (hk : boc.WellKeyed c) (key : Uint256) : ∀ n h,
    ¬ MeetsForged c boc key n h := by
  intro n
  induction n with
  | zero =>
    rintro h ⟨cell, hg, hne⟩
    exact hne (hk h cell hg)
  | succ n ih =>
    rintro h ⟨cell, hg, hne | ⟨left, right, _, hbelow⟩⟩
    · exact hne (hk h cell hg)
    · exact ih _ hbelow

/-- **An accepted proof with a content-addressed bag is sound exactly if no cell on the path of
its key is missing.** -/
theorem keyed_sound_iff {p : MerkleProof} (hb : BagOfCells.Built c p.proofBoc)
    (hk : p.proofBoc.WellKeyed c) (hok : p.verify = .ok ()) : Sound c p ↔
      ∀ t : ShardStateTree, t.stateRootHash c = p.rootHash → CollisionFree c t p.proofBoc →
        PathHeld c p t := by
  obtain ⟨hmagic, hdag, hroot⟩ := p.verify_ok_iff.mp hok
  obtain ⟨root, hget⟩ := hb.root_held
  rw [hroot] at hget
  have hheld : RootHeld c p := ⟨root, hget, hk _ _ hget⟩
  have hclean := not_meetsForged hk p.targetKey 256 p.rootHash
  rw [verify_sound_iff]
  simp [hmagic, hdag, hroot, hheld, hclean]

/-- a proof that is read from bytes can only lack cells -/
theorem read_sound_iff {slice : Bytes} {p : MerkleProof} {n : Nat}
    (h : MerkleProof.fromBytes c slice = .ok (p, n)) : Sound c p ↔
      ∀ t : ShardStateTree, t.stateRootHash c = p.rootHash → CollisionFree c t p.proofBoc →
        PathHeld c p t := by
  obtain ⟨hok, hb, hk⟩ := MerkleProof.fromBytes_spec h
  exact keyed_sound_iff hb hk hok

end

/-! ## accepted forgeries -/

/-- the branch at the root of the sample state -/
def sampleRoot : Cell := rootCell sampleCrypto sampleTree.trie

/-- under the hash of the leaf of account 0, which is uninitialized, a leaf that destroys it -/
def forgedProof : MerkleProof where
  magicBytes := MERKLE_PROOF_MAGIC
  targetKey := 0
  rootHash := sampleRoot.hash sampleCrypto
  proofBoc := ⟨sampleRoot.hash sampleCrypto,
    (OrdMap.empty.insert (sampleRoot.hash sampleCrypto) sampleRoot).insert
      ((leafCell sampleCrypto 0 .uninitialized).hash sampleCrypto)
      (leafCell sampleCrypto 0 .destroyed)⟩

/-- the root without the cells below it -/
def prunedProof : MerkleProof where
  magicBytes := MERKLE_PROOF_MAGIC
  targetKey := 0
  rootHash := sampleRoot.hash sampleCrypto
  proofBoc := BagOfCells.fromRoot sampleCrypto sampleRoot

/-- **`verify` accepts a forged leaf and a path that is not there.** -/
theorem forgery_accepted :
    (BagOfCells.Built sampleCrypto forgedProof.proofBoc ∧ forgedProof.verify = .ok ()
      ∧ ¬ Sound sampleCrypto forgedProof)
    ∧ BagOfCells.Built sampleCrypto prunedProof.proofBoc ∧ prunedProof.verify = .ok ()
      ∧ ¬ Sound sampleCrypto prunedProof := by
  have hroot : sampleTree.stateRootHash sampleCrypto = sampleRoot.hash sampleCrypto :=
    sampleTree.stateRootHash_eq
  have hforged : forgedProof.verify = .ok () := by decide +kernel
  have hpruned : prunedProof.verify = .ok () := by decide +kernel
  refine ⟨⟨?_, hforged, fun h => ?_⟩, ?_, hpruned, fun h => ?_⟩
  · exact .new (BagOfCells.new_ok (by decide +kernel) (forgedProof.verify_ok_iff.mp hforged).2.1)
  · have hfree : CollisionFree sampleCrypto sampleTree forgedProof.proofBoc := by
      unfold CollisionFree NoCollision
      decide +kernel
    have hwalk : walk forgedProof.proofBoc 0 256 forgedProof.proofBoc.rootHash
        ≠ some (decidingCell sampleCrypto sampleTree 0) := by decide +kernel
    exact hwalk ((h hforged).2 sampleTree hroot hfree)
  · exact .fromRoot sampleRoot
  · have hfree : CollisionFree sampleCrypto sampleTree prunedProof.proofBoc := by
      unfold CollisionFree NoCollision
      decide +kernel
    have hwalk : walk prunedProof.proofBoc 0 256 prunedProof.proofBoc.rootHash
        ≠ some (decidingCell sampleCrypto sampleTree 0) := by decide +kernel
    exact hwalk ((h hpruned).2 sampleTree hroot hfree)

end Onx.State
