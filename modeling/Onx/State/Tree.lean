import Onx.Lib.BitTrie
import Onx.State.Account
import Onx.State.Boc
import Onx.DataStructures.Shard

/-!
# Shard state trees

The accounts of a shard and the binary trie over their ids: branches by the bits of the id, a leaf
for a single account with its record in chunks below, and one cell for an empty subtree.

* `buildTrieCells`        the root cell, and all cells that are inserted into the cell map;
* `buildTrieCells_eq`     they are the cells of the trie of the accounts, `rootCell` and `cellsOf`;
* `Trie`                  the shape of these cells, without infinite descent;
* `generateProof_eq`      the proof of a tree, if no two cells of the tree share a hash.
-/

namespace Onx

structure ShardStateTree where
  accounts : OrdMap AccountId AccountState

def ONX_TRIE_NODE_TAG : DomainTag := DomainTag.fromAscii "ONX_TRIE_NODE_V1" (by decide)

def MERKLE_PROOF_MAGIC : Uint32 := 0x4D505246

/-- `chunks(128)`, at most one chunk a byte -/
def chunks128 : Nat → Bytes → List Bytes
  | 0, _ => []
  | n + 1, bs => if bs = [] then [] else bs.take 128 :: chunks128 n (bs.drop 128)

section
variable (c : Crypto)

/-- the cells of the chunks, in order -/
def chunkCells : List Bytes → Except StateModelError (List Cell)
  | [] => .ok []
  | chunk :: rest =>
    match Cell.new chunk [] with
    | .error e => .error e
    | .ok cell =>
      match chunkCells rest with
      | .error e => .error e
      | .ok cells => .ok (cell :: cells)

def emptySubtree : Except StateModelError (Cell × List Cell) :=
  match Cell.new (ascii "EMPTY_SUBTREE") [] with
  | .error e => .error e
  | .ok cell => .ok (cell, [cell])

def leafSubtree (key : Uint256) (val : Bytes) : Except StateModelError (Cell × List Cell) :=
  match chunkCells (chunks128 val.length val) with
  | .error e => .error e
  | .ok valChunks =>
    match Cell.new (encodeWord 32 key) (valChunks.map (Cell.hash c)) with
    | .error e => .error e
    | .ok leaf => .ok (leaf, valChunks ++ [leaf])

/-- `build_trie_cells` at bit depth `256 - n`: the root and the cells inserted into `cell_map`, in
that order.  Bit `depth` of a key counts from its most significant bit. -/
def buildTrieCells : Nat → List (Uint256 × Bytes) → Except StateModelError (Cell × List Cell)
  | _, [] => emptySubtree
  | _, [(key, val)] => leafSubtree c key val
  | 0, (key, val) :: _ => leafSubtree c key val
  | n + 1, items =>
    match buildTrieCells n (items.filter (fun x => !x.1.getMsbD (255 - n))) with
    | .error e => .error e
    | .ok (left, leftCells) =>
      match buildTrieCells n (items.filter (fun x => x.1.getMsbD (255 - n))) with
      | .error e => .error e
      | .ok (right, rightCells) =>
        match Cell.new [] [left.hash c, right.hash c] with
        | .error e => .error e
        | .ok branch => .ok (branch, leftCells ++ rightCells ++ [branch])

/-- cells under their hashes, later ones over earlier ones -/
def cellMap (cells : List Cell) : OrdMap Uint256 Cell :=
  cells.foldl (fun m cell => m.insert (cell.hash c) cell) OrdMap.empty

structure MerkleProof where
  magicBytes : Uint32
  targetKey : Uint256
  rootHash : Uint256
  proofBoc : BagOfCells

namespace MerkleProof

/-- `{:#010x}` -/
def hex32 (x : Uint32) : String :=
  "0x" ++ String.ofList ((Nat.toDigits 16 x.toNat).leftpad 8 '0')

/-- `{:?}` of a hash, a byte array -/
def debugHash (h : Uint256) : String :=
  "[" ++ String.intercalate ", " ((encodeWord 32 h).map (fun b => toString b.toNat)) ++ "]"

def verify (self : MerkleProof) : Except StateModelError Unit :=
  if self.magicBytes ≠ MERKLE_PROOF_MAGIC then
    .error (.invalidMerkleProof ("Invalid magic bytes: expected " ++ hex32 MERKLE_PROOF_MAGIC
      ++ ", got " ++ hex32 self.magicBytes))
  else
    match self.proofBoc.verifyDag with
    | .error e => .error e
    | .ok () =>
      if self.proofBoc.rootHash ≠ self.rootHash then
        .error (.invalidMerkleProof ("Proof root hash " ++ debugHash self.proofBoc.rootHash
          ++ " does not match expected root hash " ++ debugHash self.rootHash))
      else .ok ()

theorem verify_ok_iff (self : MerkleProof) : self.verify = .ok ()
    ↔ self.magicBytes = MERKLE_PROOF_MAGIC ∧ self.proofBoc.verifyDag = .ok ()
      ∧ self.proofBoc.rootHash = self.rootHash := by
  unfold verify
  cases self.proofBoc.verifyDag with
  | error e =>
    split_ifs with hmagic
    · simp
    · simp
  | ok u =>
    split_ifs with hmagic hroot
    · simp [hmagic]
    · simp [hroot]
    · simp [not_not.mp hmagic, not_not.mp hroot]

end MerkleProof

namespace ShardStateTree

def new : ShardStateTree := ⟨OrdMap.empty⟩

def insert (self : ShardStateTree) (id : AccountId) (state : AccountState) : ShardStateTree :=
  ⟨self.accounts.insert id state⟩

variable (self : ShardStateTree)

def get (id : AccountId) : Option AccountState := self.accounts.get? id

/-- ids and serialized states in ascending order of ids -/
def items : List (Uint256 × Bytes) :=
  self.accounts.entries.map (fun x => (x.1.id, x.2.toBytes))

def stateRootHash : Uint256 :=
  match buildTrieCells c 256 self.items with
  | .error _ => domainHash c ONX_TRIE_NODE_TAG (ascii "EMPTY_TREE")
  | .ok (root, _) => root.hash c

def generateProof (target : AccountId) : Except StateModelError MerkleProof :=
  match buildTrieCells c 256 self.items with
  | .error e => .error e
  | .ok (root, cells) =>
    match BagOfCells.new (root.hash c) (cellMap c cells) with
    | .error e => .error e
    | .ok boc => .ok ⟨MERKLE_PROOF_MAGIC, target.id, root.hash c, boc⟩

/-- the cells of the trie of a state -/
def trieCells : List Cell :=
  match buildTrieCells c 256 self.items with
  | .error _ => []
  | .ok (_, cells) => cells

end ShardStateTree

end

/-! ## what is built -/

/-- the accounts of a subtree, by the bits of their ids -/
abbrev AccountTrie := BitTrie 256 AccountState

def emptyCell : Cell := ⟨ascii "EMPTY_SUBTREE", [], false, by decide, Nat.zero_le _⟩

/-- a record fits into one chunk -/
def recordCell (state : AccountState) : Cell :=
  ⟨state.toBytes, [], false, state.length_toBytes_le.2, Nat.zero_le _⟩

section
variable (c : Crypto)

def leafCell (key : Uint256) (state : AccountState) : Cell where
  dataBytes := encodeWord 32 key
  cellRefs := [(recordCell state).hash c]
  isSpecial := false
  data_le := by
    rw [length_encodeWord]
    decide
  refs_le := by
    show 1 ≤ 4
    omega

def branchCell (left right : Cell) : Cell where
  dataBytes := []
  cellRefs := [left.hash c, right.hash c]
  isSpecial := false
  data_le := Nat.zero_le _
  refs_le := by
    show 2 ≤ 4
    omega

def rootCell : AccountTrie → Cell
  | .empty => emptyCell
  | .leaf key state => leafCell c key state
  | .branch left right => branchCell c (rootCell left) (rootCell right)

def cellsOf : AccountTrie → List Cell
  | .empty => [emptyCell]
  | .leaf key state => [recordCell state, leafCell c key state]
  | .branch left right =>
    cellsOf left ++ cellsOf right ++ [branchCell c (rootCell c left) (rootCell c right)]

end

/-- a root cell with the cells below it -/
inductive Trie (c : Crypto) : Cell → List Cell → Prop where
  | empty (cell : Cell) : cell.cellRefs = [] → Trie c cell [cell]
  | leaf (cell : Cell) (chunks : List Cell) : (∀ d ∈ chunks, d.cellRefs = []) →
      cell.cellRefs = chunks.map (Cell.hash c) → Trie c cell (chunks ++ [cell])
  | branch (cell left right : Cell) (leftCells rightCells : List Cell) : Trie c left leftCells →
      Trie c right rightCells → cell.cellRefs = [left.hash c, right.hash c] →
      Trie c cell (leftCells ++ rightCells ++ [cell])

section
variable {c : Crypto}

theorem cellsOf_trie (t : AccountTrie) : Trie c (rootCell c t) (cellsOf c t) := by
  induction t with
  | empty => exact Trie.empty _ rfl
  | leaf key state =>
    refine Trie.leaf (leafCell c key state) [recordCell state] ?_ rfl
    simp [recordCell]
  | branch left right ihl ihr => exact Trie.branch _ _ _ _ _ ihl ihr rfl

theorem chunks128_one {bs : Bytes} (h0 : 0 < bs.length) (h : bs.length ≤ 128) :
    chunks128 bs.length bs = [bs] := by
  obtain ⟨n, hn⟩ : ∃ n, bs.length = n + 1 := ⟨bs.length - 1, by omega⟩
  have hne : bs ≠ [] := List.ne_nil_of_length_pos h0
  rw [hn]
  unfold chunks128
  rw [if_neg hne, List.take_of_length_le h, List.drop_of_length_le h]
  cases n with
  | zero => rfl
  | succ n => rfl

theorem new_cell (cell : Cell) (h : cell.isSpecial = false) :
    Cell.new cell.dataBytes cell.cellRefs = .ok cell := by
  unfold Cell.new
  rw [Cell.newWithSpecial_eq cell.data_le cell.refs_le, ← h]

theorem new_branch (left right : Cell) :
    Cell.new [] [left.hash c, right.hash c] = .ok (branchCell c left right) :=
  new_cell (branchCell c left right) rfl

theorem leafSubtree_eq (key : Uint256) (state : AccountState) :
    leafSubtree c key state.toBytes
      = .ok (leafCell c key state, [recordCell state, leafCell c key state]) := by
  have hchunk : Cell.new state.toBytes [] = .ok (recordCell state) := new_cell (recordCell state) rfl
  have hchunks : chunkCells [state.toBytes] = .ok [recordCell state] := by
    unfold chunkCells
    rw [hchunk]
    rfl
  have hleaf : Cell.new (encodeWord 32 key) [(recordCell state).hash c] = .ok (leafCell c key state) :=
    new_cell (leafCell c key state) rfl
  unfold leafSubtree
  rw [chunks128_one state.length_toBytes_le.1 state.length_toBytes_le.2, hchunks]
  dsimp only
  rw [List.map_cons, List.map_nil, hleaf]
  rfl

/-- records of accounts in their serialized form -/
def serialized (x : Uint256 × AccountState) : Uint256 × Bytes := (x.1, x.2.toBytes)

theorem filter_serialized (n : Nat) (b : Bool) (items : List (Uint256 × AccountState)) :
    (items.map serialized).filter (fun x => x.1.getMsbD (255 - n) == b)
      = (BitTrie.side n b items).map serialized := by
  rw [List.filter_map]
  rfl

/-- **`build_trie_cells` computes the cells of the trie of the accounts.** -/
theorem buildTrieCells_eq : ∀ n (items : List (Uint256 × AccountState)),
    buildTrieCells c n (items.map serialized)
      = .ok (rootCell c (BitTrie.ofItems n items), cellsOf c (BitTrie.ofItems n items)) := by
  intro n
  induction n with
  | zero =>
    intro items
    match items with
    | [] => rfl
    | [(key, state)] => exact leafSubtree_eq key state
    | (key, state) :: _ :: _ => exact leafSubtree_eq key state
  | succ n ih =>
    intro items
    match items with
    | [] => rfl
    | [(key, state)] => exact leafSubtree_eq key state
    | x :: y :: rest =>
      have hleft := ih (BitTrie.side n false (x :: y :: rest))
      have hright := ih (BitTrie.side n true (x :: y :: rest))
      rw [← filter_serialized] at hleft hright
      simp only [beq_false, beq_true] at hleft hright
      rw [List.map_cons, List.map_cons] at hleft hright ⊢
      unfold buildTrieCells
      rw [hleft, hright]
      dsimp only
      rw [new_branch]
      rfl

/-! ## the bag of a proof -/

theorem Trie.root_mem {cell : Cell} {cells : List Cell} (h : Trie c cell cells) : cell ∈ cells := by
  cases h with
  | empty => exact List.mem_singleton_self _
  | leaf => exact List.mem_append_right _ (List.mem_singleton_self _)
  | branch => exact List.mem_append_right _ (List.mem_singleton_self _)

/-- references of a trie stay inside it -/
theorem Trie.closed {cell : Cell} {cells : List Cell} (h : Trie c cell cells) :
    ∀ d ∈ cells, ∀ r ∈ d.cellRefs, ∃ e ∈ cells, e.hash c = r := by
  induction h with
  | empty cell hrefs =>
    intro d hd r hr
    rw [List.mem_singleton.mp hd, hrefs] at hr
    cases hr
  | leaf cell chunks hchunks hrefs =>
    intro d hd r hr
    rcases List.mem_append.mp hd with hd | hd
    · rw [hchunks d hd] at hr
      cases hr
    · rw [List.mem_singleton.mp hd, hrefs] at hr
      obtain ⟨e, he, rfl⟩ := List.mem_map.mp hr
      exact ⟨e, List.mem_append_left _ he, rfl⟩
  | branch cell left right leftCells rightCells hleft hright hrefs ihl ihr =>
    intro d hd r hr
    rcases List.mem_append.mp hd with hd | hd
    · rcases List.mem_append.mp hd with hd | hd
      · obtain ⟨e, he, heq⟩ := ihl d hd r hr
        exact ⟨e, List.mem_append_left _ (List.mem_append_left _ he), heq⟩
      · obtain ⟨e, he, heq⟩ := ihr d hd r hr
        exact ⟨e, List.mem_append_left _ (List.mem_append_right _ he), heq⟩
    · rw [List.mem_singleton.mp hd, hrefs] at hr
      rcases List.mem_cons.mp hr with rfl | hr
      · exact ⟨left, List.mem_append_left _ (List.mem_append_left _ hleft.root_mem), rfl⟩
      · rw [List.mem_singleton.mp hr]
        exact ⟨right, List.mem_append_left _ (List.mem_append_right _ hright.root_mem), rfl⟩

/-- **Every descent in a trie ends**, in any graph that has the edges of its cells. -/
theorem Trie.acc {next : Uint256 → List Uint256} {cell : Cell} {cells : List Cell}
    (h : Trie c cell cells) (hnext : ∀ d ∈ cells, next (d.hash c) = d.cellRefs) :
    Acc (fun a b => a ∈ next b) (cell.hash c) := by
  induction h with
  | empty cell hrefs =>
    refine Acc.intro _ fun r hr => ?_
    rw [hnext cell (List.mem_singleton_self _), hrefs] at hr
    cases hr
  | leaf cell chunks hchunks hrefs =>
    refine Acc.intro _ fun r hr => ?_
    rw [hnext cell (List.mem_append_right _ (List.mem_singleton_self _)), hrefs] at hr
    obtain ⟨d, hd, rfl⟩ := List.mem_map.mp hr
    refine Acc.intro _ fun r' hr' => ?_
    rw [hnext d (List.mem_append_left _ hd), hchunks d hd] at hr'
    cases hr'
  | branch cell left right leftCells rightCells _ _ hrefs ihl ihr =>
    refine Acc.intro _ fun r hr => ?_
    rw [hnext cell (List.mem_append_right _ (List.mem_singleton_self _)), hrefs] at hr
    rcases List.mem_cons.mp hr with rfl | hr
    · exact ihl fun d hd => hnext d (List.mem_append_left _ (List.mem_append_left _ hd))
    · rw [List.mem_singleton.mp hr]
      exact ihr fun d hd => hnext d (List.mem_append_left _ (List.mem_append_right _ hd))

theorem foldl_cellMap (cells : List Cell) (m : OrdMap Uint256 Cell) (h : Uint256) :
    ((cells.foldl (fun m cell => m.insert (cell.hash c) cell) m).get? h = m.get? h
        ∧ ∀ d ∈ cells, d.hash c ≠ h)
      ∨ ∃ d ∈ cells, d.hash c = h
        ∧ (cells.foldl (fun m cell => m.insert (cell.hash c) cell) m).get? h = some d := by
  induction cells generalizing m with
  | nil => exact Or.inl ⟨rfl, fun d hd => nomatch hd⟩
  | cons cell cells ih =>
    rw [List.foldl_cons]
    rcases ih (m.insert (cell.hash c) cell) with ⟨hget, hno⟩ | ⟨d, hd, hh, hget⟩
    · by_cases hc : cell.hash c = h
      · refine Or.inr ⟨cell, List.mem_cons_self, hc, ?_⟩
        rw [hget, ← hc, OrdMap.get?_insert_self]
      · refine Or.inl ⟨?_, fun d hd => ?_⟩
        · rw [hget, OrdMap.get?_insert_of_ne _ _ (Ne.symm hc)]
        · rcases List.mem_cons.mp hd with rfl | hd
          · exact hc
          · exact hno d hd
    · exact Or.inr ⟨d, List.mem_cons_of_mem _ hd, hh, hget⟩

/-- a cell map holds cells of the list under their hashes -/
theorem mem_of_cellMap {cells : List Cell} {h : Uint256} {d : Cell}
    (hg : (cellMap c cells).get? h = some d) : d ∈ cells ∧ d.hash c = h := by
  unfold cellMap at hg
  rcases foldl_cellMap (c := c) cells OrdMap.empty h with ⟨hget, _⟩ | ⟨e, he, hh, hget⟩
  · rw [hget] at hg
    cases hg
  · rw [hget] at hg
    cases hg
    exact ⟨he, hh⟩

theorem cellMap_of_mem {cells : List Cell} {d : Cell} (hd : d ∈ cells) :
    ∃ e ∈ cells, e.hash c = d.hash c ∧ (cellMap c cells).get? (d.hash c) = some e := by
  unfold cellMap
  rcases foldl_cellMap (c := c) cells OrdMap.empty (d.hash c) with ⟨_, hno⟩ | h
  · exact absurd rfl (hno d hd)
  · exact h

/-- no two cells of a list share a hash -/
def NoCollision (c : Crypto) (cells : List Cell) : Prop :=
  ∀ a ∈ cells, ∀ b ∈ cells, a.hash c = b.hash c → a = b

theorem NoCollision.mono {cells cells' : List Cell} (h : NoCollision c cells')
    (hsub : ∀ d ∈ cells, d ∈ cells') : NoCollision c cells :=
  fun a ha b hb heq => h a (hsub a ha) b (hsub b hb) heq

theorem NoCollision.parts {as bs as' bs' : List Cell} (h : NoCollision c (as' ++ bs'))
    (ha : ∀ d ∈ as, d ∈ as') (hb : ∀ d ∈ bs, d ∈ bs') : NoCollision c (as ++ bs) := by
  refine h.mono fun d hd => ?_
  rcases List.mem_append.mp hd with hd | hd
  · exact List.mem_append_left _ (ha d hd)
  · exact List.mem_append_right _ (hb d hd)

theorem cellMap_get {cells : List Cell} (hinj : NoCollision c cells) {d : Cell} (hd : d ∈ cells) :
    (cellMap c cells).get? (d.hash c) = some d := by
  obtain ⟨e, he, hh, hget⟩ := cellMap_of_mem (c := c) hd
  rw [hget, hinj e he d hd hh]

/-! ## the proof of a state -/

namespace ShardStateTree
variable (self : ShardStateTree)

/-- the accounts by their ids -/
def accountItems : List (Uint256 × AccountState) :=
  self.accounts.entries.map (fun x => (x.1.id, x.2))

/-- the trie over the ids -/
def trie : AccountTrie := BitTrie.ofItems 256 self.accountItems

theorem buildTrieCells_items :
    buildTrieCells c 256 self.items = .ok (rootCell c self.trie, cellsOf c self.trie) := by
  have hitems : self.items = self.accountItems.map serialized := by
    unfold items accountItems
    rw [List.map_map]
    rfl
  rw [hitems]
  exact buildTrieCells_eq 256 self.accountItems

theorem trieCells_eq : self.trieCells c = cellsOf c self.trie := by
  unfold trieCells
  rw [buildTrieCells_items]

theorem stateRootHash_eq : self.stateRootHash c = (rootCell c self.trie).hash c := by
  unfold stateRootHash
  rw [buildTrieCells_items]

/-- the trie of a state, whose root hash is the state root -/
theorem exists_trie : ∃ root, buildTrieCells c 256 self.items = .ok (root, self.trieCells c)
    ∧ Trie c root (self.trieCells c) ∧ self.stateRootHash c = root.hash c := by
  rw [trieCells_eq]
  exact ⟨_, self.buildTrieCells_items, cellsOf_trie _, self.stateRootHash_eq⟩

/-- a generated proof has the state root and the cells of the trie -/
theorem generateProof_spec {target : AccountId} {proof : MerkleProof}
    (h : self.generateProof c target = .ok proof) : proof.rootHash = self.stateRootHash c
      ∧ proof.proofBoc.cells = cellMap c (self.trieCells c) := by
  obtain ⟨root, hb, _, hroot⟩ := self.exists_trie (c := c)
  unfold generateProof at h
  rw [hb] at h
  dsimp only at h
  rw [hroot]
  unfold BagOfCells.new at h
  split_ifs at h
  cases hv : BagOfCells.verifyDag ⟨root.hash c, cellMap c (self.trieCells c)⟩ with
  | error e =>
    rw [hv] at h
    cases h
  | ok u =>
    rw [hv] at h
    cases h
    exact ⟨rfl, rfl⟩

/-- the bag of a state -/
def bag (c : Crypto) : BagOfCells := ⟨self.stateRootHash c, cellMap c (self.trieCells c)⟩

theorem bag_verifyDag (hinj : NoCollision c (self.trieCells c)) :
    (self.bag c).verifyDag = .ok () := by
  obtain ⟨root, _, htrie, hroot⟩ := self.exists_trie (c := c)
  refine BagOfCells.verifyDag_ok ?_
  show Acc (fun a b => a ∈ BagOfCells.refsIn (cellMap c (self.trieCells c)) b) (self.stateRootHash c)
  rw [hroot]
  refine htrie.acc fun d hd => ?_
  unfold BagOfCells.refsIn
  rw [cellMap_get hinj hd]

/-- **A proof is generated** if no two cells of the trie share a hash. -/
theorem generateProof_eq (target : AccountId) (hinj : NoCollision c (self.trieCells c)) :
    self.generateProof c target
      = .ok ⟨MERKLE_PROOF_MAGIC, target.id, self.stateRootHash c, self.bag c⟩ := by
  have hdag := self.bag_verifyDag hinj
  obtain ⟨root, hb, htrie, hroot⟩ := self.exists_trie (c := c)
  have hheld : (cellMap c (self.trieCells c)).contains (root.hash c) = true :=
    OrdMap.contains_iff.mpr ⟨root, cellMap_get hinj htrie.root_mem⟩
  unfold bag at hdag ⊢
  unfold generateProof
  rw [hb]
  rw [hroot] at hdag ⊢
  unfold BagOfCells.new
  dsimp only
  rw [hheld, hdag]
  rfl

theorem generateProof_ok (target : AccountId) (hinj : NoCollision c (self.trieCells c)) :
    ∃ proof, self.generateProof c target = .ok proof :=
  ⟨_, self.generateProof_eq target hinj⟩

end ShardStateTree

end

end Onx
