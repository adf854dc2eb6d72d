import Onx.State.Binding

/-!
# Merkle proofs of accounts

What a generated proof says about its key.  A reader of the bag follows the bits of the key
through the branch cells to the first cell that is not a branch.

* `walk`               this reader;
* `walk_eq`            in a bag that holds the cells on the path of a key, it ends where the bits
                       of the key end in the trie;
* `decidingCell`       that cell, for a state: `decidingCell_some`, `decidingCell_none`;
* `proof_decides`      a generated proof is accepted and decides its key.
-/

namespace Onx.State

/-! ## reading a bag -/

/-- the references of a branch cell: empty data and two references -/
def branchRefs (cell : Cell) : Option (Uint256 × Uint256) :=
  match cell.dataBytes, cell.cellRefs with
  | [], [left, right] => some (left, right)
  | _, _ => none

/-- follow the bits of a key from bit `256 - n` on; `none` if a cell is missing or the bits run
out in a branch -/
def walk (boc : BagOfCells) (key : Uint256) : Nat → Uint256 → Option Cell
  | 0, h =>
    match boc.getCell h with
    | none => none
    | some cell => if (branchRefs cell).isSome then none else some cell
  | n + 1, h =>
    match boc.getCell h with
    | none => none
    | some cell =>
      match branchRefs cell with
      | none => some cell
      | some (left, right) => walk boc key n (if key.getMsbD (255 - n) then right else left)

/-- the data of the cells under some references, in order -/
def chunkBytes (boc : BagOfCells) : List Uint256 → Option Bytes
  | [] => some []
  | h :: rest =>
    match boc.getCell h with
    | none => none
    | some cell => (chunkBytes boc rest).map (cell.dataBytes ++ ·)

section
variable {c : Crypto}

@[simp] theorem branchRefs_empty : branchRefs emptyCell = none := rfl

@[simp] theorem branchRefs_leaf (key : Uint256) (state : AccountState) :
    branchRefs (leafCell c key state) = none := by
  have hlen : (leafCell c key state).dataBytes.length = 32 := length_encodeWord 32 key
  unfold branchRefs
  split
  · rename_i hdata _
    rw [hdata] at hlen
    cases hlen
  · rfl

@[simp] theorem branchRefs_branch (left right : Cell) :
    branchRefs (branchCell c left right) = some (left.hash c, right.hash c) := rfl

/-- only the root cell of a branch is a branch cell -/
theorem branchRefs_root {t : AccountTrie} (h : t.isBranch = false) :
    branchRefs (rootCell c t) = none := by
  cases t with
  | empty => rfl
  | leaf key state => exact branchRefs_leaf key state
  | branch left right => cases h

theorem hash_child (b : Bool) (left right : AccountTrie) :
    (if b then (rootCell c right).hash c else (rootCell c left).hash c)
      = (rootCell c (if b then right else left)).hash c := by
  cases b <;> rfl

/-- the cells that the bits of a key meet, from bit `256 - n` on -/
def path (c : Crypto) (key : Uint256) : Nat → AccountTrie → List Cell
  | n + 1, .branch left right =>
    branchCell c (rootCell c left) (rootCell c right)
      :: path c key n (if key.getMsbD (255 - n) then right else left)
  | _, t => [rootCell c t]

theorem path_sub (key : Uint256) : ∀ n t, ∀ d ∈ path c key n t, d ∈ cellsOf c t := by
  intro n
  induction n with
  | zero =>
    intro t d hd
    rw [List.mem_singleton.mp hd]
    exact rootCell_mem t
  | succ n ih =>
    intro t d hd
    cases t with
    | empty => exact hd
    | leaf key' state =>
      rw [List.mem_singleton.mp hd]
      exact rootCell_mem _
    | branch left right =>
      rcases List.mem_cons.mp hd with rfl | hd
      · exact rootCell_mem (.branch left right)
      · exact cellsOf_child _ (ih _ d hd)

theorem cellsOf_reach (key : Uint256) : ∀ n t,
    ∀ d ∈ cellsOf c (BitTrie.reach key n t), d ∈ cellsOf c t := by
  intro n
  induction n with
  | zero =>
    intro t d hd
    cases t <;> exact hd
  | succ n ih =>
    intro t d hd
    cases t with
    | empty => exact hd
    | leaf key' state => exact hd
    | branch left right => exact cellsOf_child _ (ih _ d hd)

/-- the path starts at the root cell -/
theorem root_mem_path (key : Uint256) (n : Nat) (t : AccountTrie) :
    rootCell c t ∈ path c key n t := by
  cases n with
  | zero => exact List.mem_singleton_self _
  | succ n =>
    cases t with
    | empty => exact List.mem_singleton_self _
    | leaf key' state => exact List.mem_singleton_self _
    | branch left right => exact List.mem_cons_self

/-- **A bag with the cells on the path of a key leads to the end of its bits.** -/
theorem walk_eq (boc : BagOfCells) (key : Uint256) : ∀ n t,
    (∀ d ∈ path c key n t, boc.getCell (d.hash c) = some d) →
    (BitTrie.reach key n t).isBranch = false →
    walk boc key n ((rootCell c t).hash c) = some (rootCell c (BitTrie.reach key n t)) := by
  intro n
  induction n with
  | zero =>
    intro t hheld hend
    have hroot := hheld _ (root_mem_path key 0 t)
    have hreach : BitTrie.reach key 0 t = t := by
      cases t <;> rfl
    rw [hreach] at hend ⊢
    unfold walk
    rw [hroot]
    simp [branchRefs_root hend]
  | succ n ih =>
    intro t hheld hend
    have hroot := hheld _ (root_mem_path key (n + 1) t)
    unfold walk
    rw [hroot]
    cases t with
    | empty => rfl
    | leaf key' state =>
      show (match branchRefs (leafCell c key' state) with
        | none => some (leafCell c key' state)
        | some (left, right) => walk boc key n (if key.getMsbD (255 - n) then right else left)) = _
      rw [branchRefs_leaf]
      rfl
    | branch left right =>
      have hbelow := ih (if key.getMsbD (255 - n) then right else left)
        (fun d hd => hheld d (List.mem_cons_of_mem _ hd)) hend
      show walk boc key n (if key.getMsbD (255 - n) then (rootCell c right).hash c
        else (rootCell c left).hash c) = _
      rw [hash_child]
      exact hbelow

end

/-! ## the cell that decides a key -/

section
variable (c : Crypto) (t : ShardStateTree)

/-- the leaf or the empty subtree at which the bits of a key end -/
def decidingCell (key : Uint256) : Cell := rootCell c (BitTrie.reach key 256 t.trie)

theorem reach_trie_isBranch (key : Uint256) :
    (BitTrie.reach key 256 t.trie).isBranch = false := by
  rcases BitTrie.reach_ofItems key 256 t.accountItems with h | ⟨x, _, h⟩
  · exact congrArg BitTrie.isBranch h
  · exact congrArg BitTrie.isBranch h

theorem mem_accountItems {key : Uint256} {state : AccountState} :
    (key, state) ∈ t.accountItems ↔ t.get ⟨key⟩ = some state := by
  unfold ShardStateTree.get ShardStateTree.accountItems
  rw [← OrdMap.mem_entries_iff, List.mem_map]
  constructor
  · rintro ⟨⟨⟨id⟩, s⟩, hmem, heq⟩
    cases heq
    exact hmem
  · intro hmem
    exact ⟨_, hmem, rfl⟩

variable {c t}

theorem decidingCell_some {k : AccountId} {state : AccountState} (h : t.get k = some state) :
    decidingCell c t k.id = leafCell c k.id state := by
  have hmem : (k.id, state) ∈ t.accountItems := (mem_accountItems t).mpr h
  have hreach := BitTrie.reach_ofItems_of_mem 256 _ (accountItems_below t) hmem
  exact congrArg (rootCell c) hreach

theorem decidingCell_none {k : AccountId} (h : t.get k = none) :
    decidingCell c t k.id = emptyCell
      ∨ ∃ other state, other ≠ k ∧ t.get other = some state
        ∧ decidingCell c t k.id = leafCell c other.id state := by
  rcases BitTrie.reach_ofItems k.id 256 t.accountItems with hreach | ⟨⟨key, state⟩, hmem, hreach⟩
  · exact Or.inl (congrArg (rootCell c) hreach)
  · have hget : t.get ⟨key⟩ = some state := (mem_accountItems t).mp hmem
    refine Or.inr ⟨⟨key⟩, state, ?_, hget, congrArg (rootCell c) hreach⟩
    intro hk
    rw [hk, h] at hget
    cases hget

end

/-! ## generated proofs -/

section
variable (c : Crypto) (t : ShardStateTree)

/-- the bag of a state holds its cells under their hashes -/
theorem bag_getCell {c : Crypto} {t : ShardStateTree} (hinj : NoCollision c (t.trieCells c)) {d : Cell}
    (hd : d ∈ cellsOf c t.trie) : (t.bag c).getCell (d.hash c) = some d := by
  rw [← t.trieCells_eq] at hd
  exact cellMap_get hinj hd

theorem walk_bag {c : Crypto} {t : ShardStateTree} (hinj : NoCollision c (t.trieCells c))
    (key : Uint256) :
    walk (t.bag c) key 256 (t.stateRootHash c) = some (decidingCell c t key) := by
  rw [t.stateRootHash_eq]
  exact walk_eq (t.bag c) key 256 t.trie (fun d hd => bag_getCell hinj (path_sub key 256 _ d hd))
    (reach_trie_isBranch t key)

/-- the record of an account is a cell of the state -/
theorem record_mem_trie {t : ShardStateTree} {k : AccountId} {state : AccountState}
    (h : t.get k = some state) : recordCell state ∈ t.trieCells c := by
  have hmem : (k.id, state) ∈ t.accountItems := (mem_accountItems t).mpr h
  have hreach : BitTrie.reach k.id 256 t.trie = .leaf k.id state :=
    BitTrie.reach_ofItems_of_mem 256 _ (accountItems_below t) hmem
  rw [t.trieCells_eq]
  refine cellsOf_reach k.id 256 t.trie _ ?_
  rw [hreach]
  exact List.mem_cons_self

/-- **A generated proof decides its key**: it has the state root and is accepted, and the bits of
the key lead through its bag to the leaf of the key with the record of the account below it, or to
the empty subtree or a leaf with another key if the account does not exist. -/
theorem proof_decides (k : AccountId) (hinj : NoCollision c (t.trieCells c)) :
    ∃ proof, t.generateProof c k = .ok proof ∧ proof.targetKey = k.id
      ∧ proof.rootHash = t.stateRootHash c ∧ proof.verify = .ok ()
      ∧ ∃ cell, walk proof.proofBoc k.id 256 proof.proofBoc.rootHash = some cell
        ∧ match t.get k with
          | some state => cell.dataBytes = k.toBytes
            ∧ chunkBytes proof.proofBoc cell.cellRefs = some state.toBytes
          | none => cell = emptyCell
            ∨ ∃ other state, other ≠ k ∧ t.get other = some state
              ∧ cell.dataBytes = other.toBytes := by
  refine ⟨_, t.generateProof_eq k hinj, rfl, rfl, ?_, decidingCell c t k.id, walk_bag hinj k.id, ?_⟩
  · rw [MerkleProof.verify_ok_iff]
    exact ⟨rfl, t.bag_verifyDag hinj, rfl⟩
  · cases hk : t.get k with
    | some state =>
      have hrecord := cellMap_get hinj (record_mem_trie c hk)
      rw [decidingCell_some hk]
      refine ⟨rfl, ?_⟩
      unfold leafCell chunkBytes
      dsimp only
      unfold BagOfCells.getCell ShardStateTree.bag
      rw [hrecord]
      simp [chunkBytes, recordCell]
    | none =>
      rcases decidingCell_none (c := c) hk with h | ⟨other, state, hne, hget, h⟩
      · exact Or.inl h
      · refine Or.inr ⟨other, state, hne, hget, ?_⟩
        rw [h]
        rfl

theorem proof_decides_sample : ∃ proof, sampleTree.generateProof sampleCrypto ⟨0⟩ = .ok proof
    ∧ proof.targetKey = 0 ∧ proof.rootHash = sampleTree.stateRootHash sampleCrypto
    ∧ proof.verify = .ok ()
    ∧ ∃ cell, walk proof.proofBoc 0 256 proof.proofBoc.rootHash = some cell
      ∧ match sampleTree.get ⟨0⟩ with
        | some state => cell.dataBytes = (AccountId.mk 0).toBytes
          ∧ chunkBytes proof.proofBoc cell.cellRefs = some state.toBytes
        | none => cell = emptyCell
          ∨ ∃ other state, other ≠ ⟨0⟩ ∧ sampleTree.get other = some state
            ∧ cell.dataBytes = other.toBytes :=
  proof_decides sampleCrypto sampleTree ⟨0⟩ (by
    unfold NoCollision
    decide +kernel)

end

end Onx.State
