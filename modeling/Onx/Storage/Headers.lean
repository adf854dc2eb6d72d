import Onx.DataStructures.BlockCodec
import Onx.Storage.Durable

/-!
# Stored headers

A commit writes its header under the header's hash, beside the shard's root, and nothing removes a header.
`commit_block` does not look at the header it writes, but `get_block_header` decodes what it reads, so a header
that is not valid is stored and then never read.

* `getBlockHeader`        `get_block_header`, with the texts of its errors;
* `recorded`              the headers of the commits that succeed, in their order;
* `after_blockHeader`     one commit;
* `headers_run`           under a hash is the last header that has it;
* `headers_stored`        **what is read of the headers**, and what the shard roots say of them.
-/

namespace Onx

/-! ## the texts of errors -/

/-- `{:02x}` and `{:08x}` -/
def hexText (v : Bytes) : String := String.ofList (Storage.hex v)

def PrimitiveError.display : PrimitiveError → String
  | .truncated expected actual =>
    "truncated input: expected " ++ toString expected ++ " bytes, got " ++ toString actual
  | .trailingBytes consumed actual =>
    "trailing bytes: consumed " ++ toString consumed ++ " of " ++ toString actual ++ " available bytes"
  | .lengthOutOfRange declared max =>
    "length prefix " ++ toString declared ++ " exceeds maximum " ++ toString max
  | .nonCanonicalEncoding => "non-canonical point or scalar encoding"
  | .invalidDomainTag => "invalid domain separation tag"
  | .signatureVerificationFailed => "signature verification failed"

def DataStructureError.display : DataStructureError → String
  | .primitive e => "Primitive error: " ++ e.display
  | .invalidShardMarker => "Invalid shard identifier: missing binary '1' marker bit"
  | .shardPrefixLengthExceeded length =>
    "Shard prefix length " ++ toString length ++ " exceeds maximum of 60 bits"
  | .addressShardMismatch => "Account address does not match active shard prefix"
  | .invalidMessageType tag => "Invalid message type tag: 0x" ++ hexText (encodeWord 1 tag)
  | .headerMagicMismatch magic =>
    "Header magic constructor mismatch: expected 0x1F2E3D4C, got 0x" ++ hexText (encodeWord 4 magic)
  | .mergeParentReferenceInconsistency =>
    "Merge parent reference inconsistency between prev_ref_hash_2 and MERGE_RESULT flag"
  | .truncatedInput expected got =>
    "Truncated input: expected at least " ++ toString expected ++ " bytes, got " ++ toString got
  | .trailingBytes remaining => "Unexpected trailing bytes: " ++ toString remaining ++ " bytes left"

end Onx

namespace Onx.Storage
open Checked Runs

/-! ## reading a header -/

def getBlockHeader (d : Disk) (hash : Uint256) : Run StorageError (Option BlockHeader) :=
  match d.read (.blockHeader hash) with
  | none => pure none
  | some v => do
    let header ← ExceptT.adapt (fun e => .corrupt e.display) (BlockHeader.fromBytes v)
    pure (some header)

section
variable {c : Crypto} {d : Disk} {w : World} {block : BlockCommitment} {b : Batch} {call : Call} {hash : Uint256}

theorem getBlockHeader_none (h : d.read (.blockHeader hash) = none) : getBlockHeader d hash = pure none := by
  unfold getBlockHeader
  rw [h]

/-- a valid header is read, and another is refused -/
theorem getBlockHeader_some {header : BlockHeader} (h : d.read (.blockHeader hash) = some header.toBytes) :
    (header.Valid → getBlockHeader d hash = pure (some header))
    ∧ (¬ header.Valid → ∃ e : DataStructureError, getBlockHeader d hash = throw (.corrupt e.display)) := by
  have hreads := BlockHeader.fromBytes_reads header.toBytes
  rw [BlockHeader.ofFields_toBytes] at hreads
  unfold getBlockHeader
  rw [h]
  rcases hreads with ⟨⟨_, hvalid⟩, hread⟩ | ⟨hnot, e, he⟩
  · dsimp only
    rw [hread]
    exact ⟨fun _ => rfl, fun hno => absurd hvalid hno⟩
  · dsimp only
    rw [he]
    exact ⟨fun hvalid => absurd ⟨BlockHeader.length_toBytes header, hvalid⟩ hnot, fun _ => ⟨e, rfl⟩⟩

/-! ## commits -/

/-- **The headers after the commit of a block.** -/
theorem after_blockHeader {s : Stages} (h : s.Of c d block b) (hash : Uint256) :
    b.after d (.blockHeader hash) = if hash = headerHash c block.header
      then some block.header.toBytes else d.read (.blockHeader hash) := by
  split_ifs with heq
  · unfold Batch.after
    rw [h.batch_eq, heq, lastPut_pushPut, if_neg FileKey.noConfusion, lastPut_pushPut, if_pos rfl]
    rfl
  · have hne : FileKey.blockHeader hash ≠ .blockHeader (headerHash c block.header) :=
      fun he => heq (FileKey.blockHeader.inj he)
    obtain ⟨hput, hrem⟩ := h.after_other (fun _ he => FileKey.noConfusion he) hne FileKey.noConfusion
    obtain ⟨hput', hrem'⟩ := replaceAccounts_other block.header.shard s.old block.state s.cells
      (k := .blockHeader hash) fun _ he => FileKey.noConfusion he
    unfold Batch.after
    rw [hput, hput', h.cellPuts.other _ fun _ he => FileKey.noConfusion he, if_neg]
    · rfl
    · rw [hrem, hrem', h.cells_removes]
      exact List.not_mem_nil

/-! ## runs -/

/-- the header that a call writes -/
def written (c : Crypto) (w : World) : Call → List BlockHeader
  | .commitBlock block =>
    match ((Call.commitBlock block).exec c w.disk).1 with
    | .ok () => [block.header]
    | .error _ => []
  | _ => []

/-- the headers of the commits that succeed -/
def recorded (c : Crypto) : World → List Call → List BlockHeader
  | _, [] => []
  | w, call :: es => written c w call ++ recorded c (w.step c call) es

theorem recorded_concat (w : World) (es : List Call) (call : Call) :
    recorded c w (es ++ [call]) = recorded c w es ++ written c (run (World.step c) w es) call := by
  induction es generalizing w with
  | nil => exact List.append_nil _
  | cons e es ih =>
    show written c w e ++ recorded c (w.step c e) (es ++ [call]) = _
    rw [ih, ← List.append_assoc]
    rfl

/-- the last of the headers that has the property -/
def lastWith (p : BlockHeader → Bool) (headers : List BlockHeader) : Option BlockHeader := headers.reverse.find? p

theorem lastWith_concat (p : BlockHeader → Bool) (headers : List BlockHeader) (header : BlockHeader) :
    lastWith p (headers ++ [header]) = if p header then some header else lastWith p headers := by
  unfold lastWith
  rw [List.reverse_append, List.reverse_singleton, List.singleton_append, List.find?_cons]
  cases p header <;> rfl

theorem mem_of_lastWith {p : BlockHeader → Bool} {headers : List BlockHeader} {header : BlockHeader}
    (h : lastWith p headers = some header) : header ∈ headers ∧ p header :=
  ⟨List.mem_reverse.mp (List.mem_of_find?_eq_some h), List.find?_some h⟩

theorem lastWith_eq_none {p : BlockHeader → Bool} {headers : List BlockHeader} :
    lastWith p headers = none ↔ ∀ header ∈ headers, ¬ p header := by
  unfold lastWith
  rw [List.find?_eq_none]
  exact forall_congr' fun _ => by rw [List.mem_reverse]

theorem written_of_ok (h : (Call.commitBlock block).batch c w.disk = .ok b) :
    written c w (.commitBlock block) = [block.header] := by
  unfold written
  dsimp only
  rw [exec_ok h]

theorem written_of_error {e : StorageError} (h : call.batch c w.disk = .error e) : written c w call = [] := by
  cases call with
  | commitBlock block =>
    unfold written
    dsimp only
    rw [exec_error h]
  | _ => rfl

/-- the headers that the store holds, and the roots of the shards -/
structure HoldsHeaders (c : Crypto) (headers : List BlockHeader) (w : World) : Prop where
  read_eq : ∀ hash, w.disk.read (.blockHeader hash)
    = (lastWith (fun h => headerHash c h = hash) headers).map BlockHeader.toBytes
  root_eq : ∀ shard, (lastWith (fun h => h.shard = shard) headers).map BlockHeader.stateRootHash
    = (w.committed shard).map fun state => state.stateRootHash c

/-- a commit writes one header, and the root of its shard -/
theorem headers_commit {headers : List BlockHeader} (h : HoldsHeaders c headers w)
    (hb : (Call.commitBlock block).batch c w.disk = .ok b) :
    HoldsHeaders c (headers ++ [block.header])
      { w.record (.commitBlock block) with disk := (commit b w.disk).2 } := by
  obtain ⟨s, hs⟩ := commitBatch_cases (show commitBatch c w.disk block = .ok b from hb)
  refine ⟨fun hash => ?_, fun shard => ?_⟩
  · show (commit b w.disk).2.read _ = _
    rw [read_after, after_blockHeader hs, lastWith_concat, h.read_eq]
    by_cases hhash : headerHash c block.header = hash
    · rw [if_pos hhash.symm, if_pos (decide_eq_true hhash)]
      rfl
    · rw [if_neg (Ne.symm hhash), if_neg (by rwa [decide_eq_true_iff])]
  · show _ = (Function.update w.committed block.header.shard (some block.state) shard).map _
    rw [lastWith_concat]
    by_cases hshard : block.header.shard = shard
    · rw [if_pos (decide_eq_true hshard), ← hshard, Function.update_self]
      exact congrArg some hs.root.symm
    · rw [if_neg (by rwa [decide_eq_true_iff]), Function.update_of_ne (Ne.symm hshard)]
      exact h.root_eq shard

/-- **Every call keeps the headers stored.** -/
theorem headers_step {headers : List BlockHeader} (h : HoldsHeaders c headers w) (call : Call) :
    HoldsHeaders c (headers ++ written c w call) (w.step c call) := by
  cases hb : call.batch c w.disk with
  | error e =>
    rw [written_of_error hb, List.append_nil, step_of_error hb]
    exact h
  | ok b =>
    rw [step_of_ok hb]
    by_cases hcall : ∃ block, call = .commitBlock block
    · obtain ⟨block, rfl⟩ := hcall
      rw [written_of_ok hb]
      exact headers_commit h hb
    · have hno : ∀ block, call ≠ .commitBlock block := fun block heq => hcall ⟨block, heq⟩
      have hother : written c w call = [] ∧ (w.record call).committed = w.committed := by
        cases call with
        | commitBlock block => exact absurd rfl (hno block)
        | _ => exact ⟨rfl, rfl⟩
      rw [hother.1, List.append_nil]
      refine ⟨fun hash => ?_, fun shard => ?_⟩
      · have hcells := batch_cells hb hno (k := .blockHeader hash) fun _ heq => FileKey.noConfusion heq
        exact (read_commit_of_cells hcells.1 hcells.2).trans (h.read_eq hash)
      · show _ = ((w.record call).committed shard).map _
        rw [hother.2]
        exact h.root_eq shard

theorem headers_run (es : List Call) :
    HoldsHeaders c (recorded c World.init es) (run (World.step c) World.init es) := by
  induction es using List.reverseRecOn with
  | nil => exact ⟨fun _ => rfl, fun _ => rfl⟩
  | append_singleton es call ih =>
    rw [run_concat, recorded_concat]
    exact headers_step ih call

/-- the only header with its hash is found under it -/
theorem HoldsHeaders.found {headers : List BlockHeader} (h : HoldsHeaders c headers w) {header : BlockHeader}
    (hmem : header ∈ headers) (honly : ∀ other ∈ headers, headerHash c other = headerHash c header → other = header) :
    w.disk.read (.blockHeader (headerHash c header)) = some header.toBytes := by
  obtain ⟨other, hother⟩ : ∃ other, lastWith (fun h => headerHash c h = headerHash c header) headers = some other := by
    refine Option.ne_none_iff_exists'.mp fun hno => ?_
    exact lastWith_eq_none.mp hno header hmem (decide_eq_true rfl)
  obtain ⟨hin, hsame⟩ := mem_of_lastWith hother
  obtain rfl := honly other hin (of_decide_eq_true hsame)
  rw [h.read_eq, hother]
  rfl

/-- what is not written is not found -/
theorem HoldsHeaders.absent {headers : List BlockHeader} (h : HoldsHeaders c headers w)
    (hnone : ∀ header ∈ headers, headerHash c header ≠ hash) : w.disk.read (.blockHeader hash) = none := by
  rw [h.read_eq, lastWith_eq_none.mpr fun header hmem hsame => hnone header hmem (of_decide_eq_true hsame)]
  rfl

/-- what is read was written -/
theorem HoldsHeaders.of_read {headers : List BlockHeader} (h : HoldsHeaders c headers w) {header : BlockHeader}
    (hread : getBlockHeader w.disk hash = pure (some header)) : header ∈ headers ∧ headerHash c header = hash := by
  cases hlast : lastWith (fun h => headerHash c h = hash) headers with
  | none =>
    rw [getBlockHeader_none (by rw [h.read_eq, hlast]; rfl)] at hread
    cases Except.ok.inj (Option.some.inj hread)
  | some other =>
    obtain ⟨hin, hsame⟩ := mem_of_lastWith hlast
    have hfound : w.disk.read (.blockHeader hash) = some other.toBytes := by
      rw [h.read_eq, hlast]
      rfl
    obtain ⟨hvalid, hinvalid⟩ := getBlockHeader_some hfound
    by_cases hok : other.Valid
    · rw [hvalid hok] at hread
      obtain rfl := Option.some.inj (Except.ok.inj (Option.some.inj hread))
      exact ⟨hin, of_decide_eq_true hsame⟩
    · obtain ⟨e, he⟩ := hinvalid hok
      rw [he] at hread
      cases Option.some.inj hread

end

/-- **What is read of the headers** after any calls: under its hash each header of a commit, unless another has
the same hash and as long as the header is valid, and nothing else.  The root and the state of each shard are
those of the last header of the shard. -/
theorem headers_stored (c : Crypto) (es : List Call) :
    (∀ header ∈ recorded c World.init es,
      (∀ other ∈ recorded c World.init es, headerHash c other = headerHash c header → other = header) →
      (header.Valid → getBlockHeader (run (World.step c) World.init es).disk (headerHash c header)
        = pure (some header))
      ∧ (¬ header.Valid → ∃ e : DataStructureError,
        getBlockHeader (run (World.step c) World.init es).disk (headerHash c header) = throw (.corrupt e.display)))
    ∧ (∀ hash header, getBlockHeader (run (World.step c) World.init es).disk hash = pure (some header) →
      header ∈ recorded c World.init es ∧ headerHash c header = hash)
    ∧ (∀ hash, (∀ header ∈ recorded c World.init es, headerHash c header ≠ hash) →
      getBlockHeader (run (World.step c) World.init es).disk hash = pure none)
    ∧ ∀ shard, ∃ state : Option ShardStateTree,
      loadShardState (run (World.step c) World.init es).disk shard = .ok (state.getD ShardStateTree.new)
      ∧ shardStateRoot (run (World.step c) World.init es).disk shard
        = .ok ((lastWith (fun h => h.shard = shard) (recorded c World.init es)).map BlockHeader.stateRootHash)
      ∧ (lastWith (fun h => h.shard = shard) (recorded c World.init es)).map BlockHeader.stateRootHash
        = state.map fun state => state.stateRootHash c := by
  have hheaders := headers_run (c := c) es
  have hholds := holds_run (c := c) es
  refine ⟨fun header hmem honly => ?_, fun hash header hread => ?_, fun hash hnone => ?_, fun shard => ?_⟩
  · exact getBlockHeader_some (hheaders.found hmem honly)
  · exact hheaders.of_read hread
  · exact getBlockHeader_none (hheaders.absent hnone)
  · refine ⟨_, hholds.loadShardState shard, ?_, hheaders.root_eq shard⟩
    rw [hholds.shardStateRoot, hheaders.root_eq]

/-- a header without the magic number is stored, and refused -/
example : (getBlockHeader (run (World.step sampleCrypto) World.init [.commitBlock sampleBlock]).disk
    (headerHash sampleCrypto sampleBlock.header)).run
    = some (.error (.corrupt "Header magic constructor mismatch: expected 0x1F2E3D4C, got 0x00000000")) := by
  decide +kernel

end Onx.Storage
