import Onx.Storage.Journal

/-!
# The state store

Cells with reference counts, accounts, block headers and shard roots in one directory.  Every
operation that writes collects its changes in a batch and commits the batch.

* `adjustCell`        one more or one less on a root and what it holds, into a batch;
* `commitBatch`       the batch of a block;
* `Batch.pending`     what an operation reads: the batch, or else the store;
* `Batch.after`       what the store holds after the commit of a batch;
* `call_ok`, `call_error`   an operation commits the whole of its batch, or changes nothing.
-/

namespace Onx.Storage

def CELL_REFS_LEN : Nat := 8

structure BlockCommitment where
  header : BlockHeader
  state : ShardStateTree
  cellBocs : List BagOfCells

/-- `?` on a result of the state model -/
def ofState {α : Type} : Except StateModelError α → Except StorageError α
  | .ok x => .ok x
  | .error e => .error (.state e)

/-! ## records -/

def encodeCellRecord (n : Uint64) (cell : Cell) : Bytes := encodeWord 8 n ++ cell.toBytes

def decodeAccount (v : Bytes) : Except StorageError AccountState :=
  match AccountState.fromBytes v with
  | .error e => .error (.state e)
  | .ok (s, n) => if n ≠ v.length then .error (.corrupt "trailing account bytes") else .ok s

section
variable (c : Crypto)

def decodeCellRecord (h : Uint256) (v : Bytes) : Except StorageError (Uint64 × Cell) :=
  if v.length < CELL_REFS_LEN then .error (.corrupt "truncated cell record")
  else match Cell.fromBytes (v.drop 8) with
  | .error e => .error (.state e)
  | .ok (cell, used) =>
    if used + 8 ≠ v.length ∨ cell.hash c ≠ h then .error (.corrupt "invalid cell record")
    else .ok (decodeWord 64 (v.take 8), cell)

def headerHash (header : BlockHeader) : Uint256 :=
  domainHash c BlockHeader.DOMAIN_TAG header.toBytes

/-! ## reading -/

def getCell (d : Disk) (h : Uint256) : Except StorageError (Option Cell) :=
  match d.read (.cell h) with
  | none => .ok none
  | some v => (decodeCellRecord c h v).map (fun x => some x.2)

def cellRefcount (d : Disk) (h : Uint256) : Except StorageError (Option Uint64) :=
  match d.read (.cell h) with
  | none => .ok none
  | some v => (decodeCellRecord c h v).map (fun x => some x.1)

end

def getAccount (d : Disk) (shard : ShardIdent) (a : AccountId) :
    Except StorageError (Option AccountState) :=
  match d.read (.account shard a) with
  | none => .ok none
  | some v => (decodeAccount v).map some

/-- names and contents of the files in a directory, in ascending order of names -/
def readDir (d : Disk) (cf : Text) : List (Text × Bytes) :=
  (d.files.entries.filter (fun e => (cf ++ ['/']).isPrefixOf e.1)).map
    (fun e => (e.1.drop (cf.length + 1), e.2))

/-- the loop of `load_shard_state` -/
def loadAccounts (start : Text) :
    List (Text × Bytes) → ShardStateTree → Except StorageError ShardStateTree
  | [], t => .ok t
  | (name, v) :: rest, t =>
    if start.isPrefixOf name then
      match unhex name with
      | .error e => .error e
      | .ok key =>
        if key.length ≠ 44 then .error (.corrupt "invalid account key")
        else match decodeAccount v with
        | .error e => .error e
        | .ok s => loadAccounts start rest (t.insert ⟨decodeWord 256 (key.drop 12)⟩ s)
    else loadAccounts start rest t

def loadShardState (d : Disk) (shard : ShardIdent) : Except StorageError ShardStateTree :=
  loadAccounts (hex shard.toBytes) (readDir d ACCOUNTS) ShardStateTree.new

def shardStateRoot (d : Disk) (shard : ShardIdent) : Except StorageError (Option Uint256) :=
  match d.read (.shardState shard) with
  | none => .ok none
  | some v =>
    if v.length = 32 then .ok (some (decodeWord 256 v))
    else .error (.corrupt "invalid shard root length")

/-! ## changes of a batch -/

namespace Batch

/-- what an operation reads while it fills a batch: removals do not count -/
def pending (b : Batch) (d : Disk) (k : FileKey) : Option Bytes := (b.lastPut k).or (d.read k)

/-- what the commit of a batch leaves -/
def after (b : Batch) (d : Disk) (k : FileKey) : Option Bytes :=
  (b.lastPut k).or (if k ∈ b.removes then none else d.read k)

end Batch

section
variable (c : Crypto) (d : Disk)

/-- cells in the order of the list, which stands for the order of a hash map -/
def putCells : List Cell → Batch → Except StorageError Batch
  | [], b => .ok b
  | cell :: cells, b =>
    match d.read (.cell (cell.hash c)) with
    | some v =>
      match decodeCellRecord c (cell.hash c) v with
      | .error e => .error e
      | .ok (_, old) =>
        if old ≠ cell then .error (.corrupt "cell hash maps to different bytes")
        else putCells cells b
    | none => putCells cells (b.pushPut (.cell (cell.hash c)) (encodeCellRecord 0 cell))

/-- the body of `adjust_cell`: the cells to go on with, and the batch -/
def adjustOne (up : Bool) (h : Uint256) (b : Batch) :
    Except StorageError (List Uint256 × Batch) :=
  match b.pending d (.cell h) with
  | none => .error (.corrupt "referenced cell is absent")
  | some v =>
    match decodeCellRecord c h v with
    | .error e => .error e
    | .ok (n, cell) =>
      if up then
        if n.toNat + 1 < 2^64 then
          .ok (cell.cellRefs, b.pushPut (.cell h) (encodeCellRecord (n + 1) cell))
        else .error (.corrupt "cell refcount overflow")
      else if n = 0 then .error (.corrupt "cell refcount underflow")
      else if n = 1 then .ok (cell.cellRefs, b.pushRemove (.cell h))
      else .ok ([], b.pushPut (.cell h) (encodeCellRecord (n - 1) cell))

/-- `adjust_cell` from nothing seen -/
def adjustCell (h : Uint256) (up : Bool) (b : Batch) : Except StorageError Batch :=
  match Dfs.visit (adjustOne c d up) (d.files.size + b.puts.length + 1) h ([], b) with
  | .error .fuel => .error .depth
  | .error (.fail e) => .error e
  | .ok (_, b') => .ok b'

def verifyBocs : List BagOfCells → Except StorageError Unit
  | [] => .ok ()
  | boc :: bocs =>
    match ofState boc.verifyDag with
    | .error e => .error e
    | .ok () => verifyBocs bocs

def putBocs : List BagOfCells → Batch → Except StorageError Batch
  | [], b => .ok b
  | boc :: bocs, b =>
    match putCells c d boc.cells.values b with
    | .error e => .error e
    | .ok b' => putBocs bocs b'

/-- the removal of the old accounts of a shard and the puts of the new ones -/
def replaceAccounts (shard : ShardIdent) (old new : ShardStateTree) (b : Batch) : Batch :=
  new.accounts.entries.foldl (fun b x => b.pushPut (.account shard x.1) x.2.toBytes)
    (old.accounts.keys.foldl (fun b a => b.pushRemove (.account shard a)) b)

def dropRoot (root : Option Uint256) (b : Batch) : Except StorageError Batch :=
  match root with
  | some root => adjustCell c d root false b
  | none => .ok b

/-- the batch of `commit_block` -/
def commitBatch (block : BlockCommitment) : Except StorageError Batch :=
  let actual := block.state.stateRootHash c
  let expected := block.header.stateRootHash
  if actual ≠ expected then .error (.rootMismatch expected actual)
  else do
    verifyBocs block.cellBocs
    let proof ← ofState (block.state.generateProof c ⟨0⟩)
    let b1 ← putBocs c d block.cellBocs Batch.default
    let b2 ← putCells c d proof.proofBoc.cells.values b1
    let shard := block.header.shard
    let oldRoot ← shardStateRoot d shard
    let old ← loadShardState d shard
    let b3 := replaceAccounts shard old block.state b2
    let b4 ← adjustCell c d proof.rootHash true b3
    let b5 ← dropRoot c d oldRoot b4
    .ok ((b5.pushPut (.blockHeader (headerHash c block.header)) block.header.toBytes).pushPut
      (.shardState shard) (encodeWord 32 actual))

end

/-! ## operations -/

namespace StateStorage
variable (c : Crypto)

def putCell (cell : Cell) (d : Disk) : Except StorageError Uint256 × Disk :=
  match putCells c d [cell] Batch.default with
  | .error e => (.error e, d)
  | .ok b =>
    match commit b d with
    | (.error e, d') => (.error e, d')
    | (.ok (), d') => (.ok (cell.hash c), d')

def putBoc (boc : BagOfCells) (d : Disk) : Except StorageError Unit × Disk :=
  match ofState boc.verifyDag with
  | .error e => (.error e, d)
  | .ok () =>
    match putCells c d boc.cells.values Batch.default with
    | .error e => (.error e, d)
    | .ok b => commit b d

def commitBlock (block : BlockCommitment) (d : Disk) : Except StorageError Unit × Disk :=
  match commitBatch c d block with
  | .error e => (.error e, d)
  | .ok b => commit b d

def changeRoot (root : Uint256) (up : Bool) (d : Disk) : Except StorageError Unit × Disk :=
  match adjustCell c d root up Batch.default with
  | .error e => (.error e, d)
  | .ok b => commit b d

def retainCellRoot (root : Uint256) (d : Disk) : Except StorageError Unit × Disk :=
  changeRoot c root true d

def releaseCellRoot (root : Uint256) (d : Disk) : Except StorageError Unit × Disk :=
  changeRoot c root false d

end StateStorage

/-- a writing call of a client -/
inductive Call where
  | putCell (cell : Cell)
  | putBoc (boc : BagOfCells)
  | commitBlock (block : BlockCommitment)
  | retainCellRoot (root : Uint256)
  | releaseCellRoot (root : Uint256)

section
variable (c : Crypto)

/-- the effect of a call; the hash that `put_cell` returns is left out -/
def Call.exec (d : Disk) : Call → Except StorageError Unit × Disk
  | .putCell cell =>
    ((StateStorage.putCell c cell d).1.map (fun _ => ()), (StateStorage.putCell c cell d).2)
  | .putBoc boc => StateStorage.putBoc c boc d
  | .commitBlock block => StateStorage.commitBlock c block d
  | .retainCellRoot root => StateStorage.retainCellRoot c root d
  | .releaseCellRoot root => StateStorage.releaseCellRoot c root d

/-- the batch that a call commits -/
def Call.batch (d : Disk) : Call → Except StorageError Batch
  | .putCell cell => putCells c d [cell] Batch.default
  | .putBoc boc =>
    match ofState boc.verifyDag with
    | .error e => .error e
    | .ok () => putCells c d boc.cells.values Batch.default
  | .commitBlock block => commitBatch c d block
  | .retainCellRoot root => adjustCell c d root true Batch.default
  | .releaseCellRoot root => adjustCell c d root false Batch.default

end

section
open StateStorage
variable {c : Crypto} {d : Disk} {call : Call} {b : Batch} {e : StorageError}

/-- a call commits its batch, if it can fill one -/
theorem exec_eq (call : Call) (d : Disk) : call.exec c d = match call.batch c d with
    | .error e => (.error e, d)
    | .ok b => (.ok (), (commit b d).2) := by
  have hcommit : ∀ b, commit b d = (.ok (), (commit b d).2) := by
    intro b
    rw [recover_journalText]
  cases call with
  | putCell cell =>
    show ((putCell c cell d).1.map (fun _ => ()), (putCell c cell d).2) = _
    unfold putCell
    dsimp only [Call.batch]
    cases putCells c d [cell] Batch.default with
    | error e => rfl
    | ok b =>
      dsimp only
      rw [hcommit]
      rfl
  | putBoc boc =>
    show putBoc c boc d = _
    unfold putBoc
    dsimp only [Call.batch]
    cases ofState boc.verifyDag with
    | error e => rfl
    | ok u =>
      dsimp only
      cases putCells c d boc.cells.values Batch.default with
      | error e => rfl
      | ok b => exact hcommit b
  | commitBlock block =>
    show commitBlock c block d = _
    unfold commitBlock
    dsimp only [Call.batch]
    cases commitBatch c d block with
    | error e => rfl
    | ok b => exact hcommit b
  | retainCellRoot root =>
    show changeRoot c root true d = _
    unfold changeRoot
    dsimp only [Call.batch]
    cases adjustCell c d root true Batch.default with
    | error e => rfl
    | ok b => exact hcommit b
  | releaseCellRoot root =>
    show changeRoot c root false d = _
    unfold changeRoot
    dsimp only [Call.batch]
    cases adjustCell c d root false Batch.default with
    | error e => rfl
    | ok b => exact hcommit b

/-- **A call whose batch is filled succeeds** and commits the batch. -/
theorem exec_ok (h : call.batch c d = .ok b) : call.exec c d = (.ok (), (commit b d).2) := by
  rw [exec_eq, h]

/-- **A call whose batch is not filled fails** and changes nothing. -/
theorem exec_error (h : call.batch c d = .error e) : call.exec c d = (.error e, d) := by
  rw [exec_eq, h]

/-! ## records read back -/

theorem decodeCellRecord_encode (n : Uint64) (cell : Cell) :
    decodeCellRecord c (cell.hash c) (encodeCellRecord n cell) = .ok (n, cell) := by
  have hlen : (encodeCellRecord n cell).length = 8 + cell.toBytes.length := by
    unfold encodeCellRecord
    rw [List.length_append, length_encodeWord]
  have hread := cell.fromBytes_toBytes []
  rw [List.append_nil] at hread
  unfold decodeCellRecord
  rw [if_neg (by rw [hlen]; show ¬ 8 + _ < 8; omega)]
  have hdrop : (encodeCellRecord n cell).drop 8 = cell.toBytes :=
    List.drop_left' (length_encodeWord 8 n)
  have htake : (encodeCellRecord n cell).take 8 = encodeWord 8 n :=
    List.take_left' (length_encodeWord 8 n)
  rw [hdrop, htake, hread]
  dsimp only
  rw [if_neg, decodeWord_encodeWord (n:=8) rfl]
  rw [hlen]
  rintro (h | h)
  · exact h (Nat.add_comm _ _)
  · exact h rfl

/-- a record is decoded under the hash of its cell only -/
theorem hash_of_decode {h : Uint256} {v : Bytes} {n : Uint64} {cell : Cell}
    (hd : decodeCellRecord c h v = .ok (n, cell)) : cell.hash c = h := by
  unfold decodeCellRecord at hd
  split_ifs at hd
  cases hf : Cell.fromBytes (v.drop 8) with
  | error e =>
    rw [hf] at hd
    cases hd
  | ok r =>
    obtain ⟨cell', used⟩ := r
    rw [hf] at hd
    dsimp only at hd
    split_ifs at hd with hbad
    cases hd
    by_contra hne
    exact hbad (Or.inr hne)

theorem decodeAccount_toBytes (s : AccountState) : decodeAccount s.toBytes = .ok s := by
  have h := s.fromBytes_toBytes []
  rw [List.append_nil] at h
  unfold decodeAccount
  rw [h]
  exact if_neg (fun hne => hne rfl)

/-! ## batches -/

theorem read_after (b : Batch) (d : Disk) (k : FileKey) : (commit b d).2.read k = b.after d k :=
  read_commit b d k

theorem pending_of_lastPut {b' : Batch} {k : FileKey} (h : b'.lastPut k = b.lastPut k) :
    b'.pending d k = b.pending d k := by
  unfold Batch.pending
  rw [h]

theorem after_of_not_removed {k : FileKey} (h : k ∉ b.removes) : b.after d k = b.pending d k := by
  unfold Batch.after Batch.pending
  rw [if_neg h]

end

end Onx.Storage
