import Onx.Blocks.Index
import Onx.Sharding.Tree

/-!
# Blocks and the shards of their parents

A block should continue the chain of its own shard: it has the shard of its parent, or one of the
two children of a shard that split, or the common parent of the two shards it merges.
`validate_candidate` compares no shards at all.

* `step_chained_iff`    a call keeps the index chained exactly when the candidates it imports stay in
                        their shards;
* `index_chained_iff`   so every run does exactly when every step does;
* `shard_abandoned`     a run that does not.
-/

namespace Onx.Blocks
open Sharding

/-! ## shards of a block and its parents -/

/-- the shards that `split_leaf` makes of a shard -/
def prefixChildren (shard : ShardIdent) : List ShardIdent :=
  match ShardTreeNode.splitLeaf (.newLeaf shard) with
  | .ok (.internal _ (.leaf left _ _) (.leaf right _ _)) => [left, right]
  | _ => []

/-- the shard of a block fits those of its parents -/
structure ContinuesShard (header parent : BlockHeader) (parent2 : Option BlockHeader) : Prop where
  workchain : header.shard.workchainId = parent.shard.workchainId
  workchain2 : ∀ p2, parent2 = some p2 → header.shard.workchainId = p2.shard.workchainId
  shard : header.shard = parent.shard
    ∨ isSplitCommit parent.flags = true ∧ header.shard ∈ prefixChildren parent.shard
    ∨ ∃ p2, parent2 = some p2 ∧ commonParent parent.shard p2.shard = .ok header.shard

/-- the block has the shard of its parent, in the workchain of the other parent if there is one, or
is the merge of the shards of both -/
def StaysInShard (header parent : BlockHeader) (parent2 : Option BlockHeader) : Prop :=
  (header.shard = parent.shard
      ∧ ∀ p2, parent2 = some p2 → header.shard.workchainId = p2.shard.workchainId)
    ∨ ∃ p2, parent2 = some p2 ∧ commonParent parent.shard p2.shard = .ok header.shard

/-- behind a parent that did not commit a split nothing else is left -/
theorem continuesShard_iff {header parent : BlockHeader} {parent2 : Option BlockHeader}
    (hopen : anyCommitted parent parent2 = false) :
    ContinuesShard header parent parent2 ↔ StaysInShard header parent parent2 := by
  have hsplit : isSplitCommit parent.flags = false := by
    unfold anyCommitted committed at hopen
    simp only [Bool.or_eq_false_iff] at hopen
    exact hopen.1.1
  constructor
  · rintro ⟨_, hw2, hsame | ⟨hs, _⟩ | hmerge⟩
    · exact Or.inl ⟨hsame, hw2⟩
    · rw [hsplit] at hs
      cases hs
    · exact Or.inr hmerge
  · rintro (⟨hsame, hw2⟩ | ⟨p2, rfl, hmerge⟩)
    · exact ⟨by rw [hsame], hw2, Or.inl hsame⟩
    · obtain ⟨w, p, b, _, h1, h2, h3⟩ := commonParent_iff.mp hmerge
      refine ⟨by rw [h3, h1]; rfl, ?_, Or.inr (Or.inr ⟨p2, rfl, hmerge⟩)⟩
      rintro q hq
      cases hq
      rw [h3, h2]
      rfl

/-! ## parents in an index -/

/-- the parents of a header, looked up in an index -/
structure Resolved (blocks : OrdMap Uint256 StoredBlock) (header : BlockHeader)
    (parent : StoredBlock) (parent2 : Option BlockHeader) : Prop where
  first : blocks.get? header.prevRefHash = some parent
  second : secondParent header blocks = .ok parent2

section
variable {c : Crypto} {blocks blocks' : OrdMap Uint256 StoredBlock}

theorem Resolved.mono (hgrow : ∀ hash b, blocks.get? hash = some b → blocks'.get? hash = some b)
    {header : BlockHeader} {parent : StoredBlock} {parent2 : Option BlockHeader}
    (h : Resolved blocks header parent parent2) : Resolved blocks' header parent parent2 := by
  refine ⟨hgrow _ _ h.first, ?_⟩
  have hsecond := h.second
  unfold secondParent at hsecond ⊢
  split_ifs at hsecond ⊢ with hmerge
  · cases hp : blocks.get? header.prevRefHash2 with
    | none =>
      rw [hp] at hsecond
      cases hsecond
    | some b =>
      rw [hp] at hsecond
      rw [hgrow _ _ hp]
      exact hsecond
  · exact hsecond

theorem Resolved.unique {header : BlockHeader} {p p' : StoredBlock} {q q' : Option BlockHeader}
    (h : Resolved blocks header p q) (h' : Resolved blocks header p' q') : p = p' ∧ q = q' := by
  have hp := h.first.symm.trans h'.first
  have hq := h.second.symm.trans h'.second
  cases hp
  cases hq
  exact ⟨rfl, rfl⟩

theorem Linked.resolved {header : BlockHeader} (h : Linked blocks header) :
    ∃ parent parent2, Resolved blocks header parent parent2 := by
  obtain ⟨parent, hparent, hrest⟩ := h
  cases hmerge : isMergeResult header.flags with
  | true =>
    rw [if_pos hmerge] at hrest
    obtain ⟨parent2, hparent2, _⟩ := hrest
    refine ⟨parent, some parent2.header, hparent, ?_⟩
    unfold secondParent
    rw [if_pos hmerge, hparent2]
  | false =>
    refine ⟨parent, none, hparent, ?_⟩
    unfold secondParent
    rw [if_neg (by simp [hmerge])]

/-- the property: every imported block continues the shard of its parents -/
def ShardChained (trusted : List Uint256) (blocks : OrdMap Uint256 StoredBlock) : Prop :=
  ∀ hash b, blocks.get? hash = some b → hash ∉ trusted →
    ∃ parent parent2, Resolved blocks b.header parent parent2
      ∧ ContinuesShard b.header parent.header parent2

/-- the condition on a candidate, in the index it is checked against -/
def CandidateStays (candidate : SyncCandidate) (staged : OrdMap Uint256 StoredBlock) : Prop :=
  ∃ parent parent2, Resolved staged candidate.header parent parent2
    ∧ StaysInShard candidate.header parent.header parent2

/-- the trusted hashes are held -/
def TrustedHeld (trusted : List Uint256) (blocks : OrdMap Uint256 StoredBlock) : Prop :=
  ∀ hash ∈ trusted, ∃ b, blocks.get? hash = some b

theorem TrustedHeld.insert {trusted : List Uint256} (h : TrustedHeld trusted blocks) {hash : Uint256}
    {b : StoredBlock} : TrustedHeld trusted (blocks.insert hash b) := by
  intro k hk
  obtain ⟨b', hb'⟩ := h k hk
  rw [OrdMap.get?_insert]
  split_ifs with heq
  · exact ⟨b, rfl⟩
  · exact ⟨b', hb'⟩

/-! ## one candidate -/

/-- a block added under a free hash leaves the others as they were -/
theorem chained_insert_iff {trusted trusted' : List Uint256} (hj : Justified c trusted blocks)
    {hash : Uint256} {b : StoredBlock} (hfresh : blocks.get? hash = none)
    (hsame : ∀ k, k ≠ hash → (k ∈ trusted' ↔ k ∈ trusted)) :
    ShardChained trusted' (blocks.insert hash b) ↔ ShardChained trusted blocks
      ∧ (hash ∉ trusted' → ∃ parent parent2, Resolved (blocks.insert hash b) b.header parent parent2
        ∧ ContinuesShard b.header parent.header parent2) := by
  have hgrow : ∀ k b', blocks.get? k = some b' → (blocks.insert hash b).get? k = some b' :=
    fun _ _ hb => OrdMap.get?_insert_fresh hfresh hb
  have hne : ∀ k b', blocks.get? k = some b' → k ≠ hash := by
    rintro k b' hb' rfl
    rw [hfresh] at hb'
    cases hb'
  constructor
  · intro h
    refine ⟨fun k b' hb' hun => ?_, fun hun => h hash b (by rw [OrdMap.get?_insert, if_pos rfl]) hun⟩
    -- the parents were held before, so they are the ones the new index finds
    obtain ⟨p, q, hres, hcont⟩ := h k b' (hgrow _ _ hb') (by rwa [hsame k (hne k b' hb')])
    obtain ⟨p', q', hres'⟩ := (hj.linked k b' hb' hun).resolved
    obtain ⟨rfl, rfl⟩ := hres.unique (hres'.mono hgrow)
    exact ⟨p, q, hres', hcont⟩
  · rintro ⟨hold, hnew⟩ k b' hb' hun
    rw [OrdMap.get?_insert] at hb'
    split_ifs at hb' with heq
    · cases hb'
      rw [heq] at hun
      exact hnew hun
    · obtain ⟨p, q, hres, hcont⟩ := hold k b' hb' (by rwa [hsame k heq] at hun)
      exact ⟨p, q, hres.mono hgrow, hcont⟩

theorem candidate_chained_iff {trusted : List Uint256} (hj : Justified c trusted blocks)
    (ht : TrustedHeld trusted blocks) {candidate : SyncCandidate}
    (h : validateCandidate c candidate blocks = .ok blocks') :
    ShardChained trusted blocks' ↔ ShardChained trusted blocks ∧ CandidateStays candidate blocks := by
  obtain ⟨⟨parent, parent2, hadm⟩, rfl⟩ := validateCandidate_cases h
  have hres : Resolved blocks candidate.header parent parent2 := ⟨hadm.resolved, hadm.resolved2⟩
  have hopen := ((validateBlockSuccessor_iff c).mp hadm.successor).2
  have hgrow : ∀ k b', blocks.get? k = some b' →
      (blocks.insert (candidate.header.blockHash c) candidate.stored).get? k = some b' :=
    fun _ _ hb => OrdMap.get?_insert_fresh hadm.fresh hb
  have hun : candidate.header.blockHash c ∉ trusted := by
    intro hm
    obtain ⟨b, hb⟩ := ht _ hm
    rw [hadm.fresh] at hb
    cases hb
  rw [chained_insert_iff hj hadm.fresh (fun _ _ => Iff.rfl)]
  refine and_congr Iff.rfl ?_
  constructor
  · intro hnew
    obtain ⟨p, q, hpq, hcont⟩ := hnew hun
    obtain ⟨rfl, rfl⟩ := hpq.unique (hres.mono hgrow)
    exact ⟨p, q, hres, (continuesShard_iff hopen).mp hcont⟩
  · rintro ⟨p, q, hpq, hstay⟩ _
    obtain ⟨rfl, rfl⟩ := hpq.unique hres
    exact ⟨p, q, hres.mono hgrow, (continuesShard_iff hopen).mpr hstay⟩

/-! ## a call -/

/-- the candidates of a batch stay in their shards, each in the index it is checked against -/
def BatchStays (c : Crypto) : List SyncCandidate → OrdMap Uint256 StoredBlock → Prop
  | [], _ => True
  | candidate :: rest, staged => CandidateStays candidate staged
      ∧ BatchStays c rest (staged.insert (candidate.header.blockHash c) candidate.stored)

theorem batch_chained_iff {cs : List SyncCandidate} {trusted : List Uint256}
    (hj : Justified c trusted blocks) (ht : TrustedHeld trusted blocks)
    (h : validateAll c cs blocks = .ok blocks') :
    TrustedHeld trusted blocks'
      ∧ (ShardChained trusted blocks' ↔ ShardChained trusted blocks ∧ BatchStays c cs blocks) := by
  induction cs generalizing blocks with
  | nil =>
    cases h
    exact ⟨ht, by simp [BatchStays]⟩
  | cons cand cs ih =>
    unfold validateAll at h
    cases hc : validateCandidate c cand blocks with
    | error e =>
      rw [hc] at h
      cases h
    | ok mid =>
      rw [hc] at h
      have hchain := candidate_chained_iff hj ht hc
      have hjmid := validateCandidate_justified hj hc
      obtain ⟨_, rfl⟩ := validateCandidate_cases hc
      obtain ⟨htrust, hiff⟩ := ih hjmid ht.insert h
      refine ⟨htrust, ?_⟩
      rw [hiff, hchain, and_assoc]
      rfl

/-- a batch that passes the checks stays in its shards; a trusted insert is free -/
def CallStays (c : Crypto) (w : SyncRun) : SyncCall → Prop
  | .insertTrusted .. => True
  | .importBatch cs =>
    (w.engine.importBatch c cs).1 = .ok () → BatchStays c cs w.engine.blocks
  | .importReverseBatch cs =>
    (w.engine.importReverseBatch c cs).1 = .ok () → BatchStays c cs.reverse w.engine.blocks

theorem importBatch_chained_iff (e : BlockSyncEngine) (cs : List SyncCandidate)
    {trusted : List Uint256} (hj : Justified c trusted e.blocks) (ht : TrustedHeld trusted e.blocks) :
    TrustedHeld trusted (e.importBatch c cs).2.blocks
      ∧ (ShardChained trusted (e.importBatch c cs).2.blocks ↔ ShardChained trusted e.blocks
        ∧ ((e.importBatch c cs).1 = .ok () → BatchStays c cs e.blocks)) := by
  unfold BlockSyncEngine.importBatch
  cases h : validateAll c cs e.blocks with
  | error err => exact ⟨ht, by simp⟩
  | ok staged =>
    obtain ⟨htrust, hiff⟩ := batch_chained_iff hj ht h
    exact ⟨htrust, by simpa using hiff⟩

/-- what the index of a run satisfies before every call -/
structure RunOk (c : Crypto) (w : SyncRun) : Prop where
  justified : Justified c w.trusted w.engine.blocks
  held : TrustedHeld w.trusted w.engine.blocks

theorem step_chained_iff (w : SyncRun) (call : SyncCall) (hok : RunOk c w) :
    TrustedHeld (w.step c call).trusted (w.step c call).engine.blocks
      ∧ (ShardChained (w.step c call).trusted (w.step c call).engine.blocks ↔
        ShardChained w.trusted w.engine.blocks ∧ CallStays c w call) := by
  cases call with
  | importBatch cs => exact importBatch_chained_iff w.engine cs hok.justified hok.held
  | importReverseBatch cs => exact importBatch_chained_iff w.engine cs.reverse hok.justified hok.held
  | insertTrusted header extra =>
    unfold SyncRun.step SyncCall.trusts SyncCall.exec CallStays
    dsimp only
    rcases insertTrusted_cases (c := c) w.engine header extra with ⟨err, h⟩ | ⟨h, hfresh, _⟩
    · rw [h]
      exact ⟨hok.held, by simp⟩
    · rw [h]
      dsimp only [List.cons_append, List.nil_append]
      have hself : (w.engine.blocks.insert (header.blockHash c) ⟨header, extra⟩).get?
          (header.blockHash c) = some ⟨header, extra⟩ := by
        rw [OrdMap.get?_insert, if_pos rfl]
      refine ⟨fun k hk => ?_, ?_⟩
      · rcases List.mem_cons.mp hk with rfl | hk
        · exact ⟨_, hself⟩
        · exact hok.held.insert k hk
      -- the new hash is trusted, so only the blocks held before count
      rw [chained_insert_iff hok.justified hfresh
        (fun k hk => by rw [List.mem_cons, or_iff_right hk])]
      simp

theorem step_ok (w : SyncRun) (call : SyncCall) (hok : RunOk c w) : RunOk c (w.step c call) :=
  ⟨step_justified w call hok.justified, (step_chained_iff w call hok).1⟩

theorem init_ok : RunOk c SyncRun.init :=
  ⟨run_justified [], fun _ hm => (nomatch hm)⟩

end

/-- **Every imported block of a run continues the shard of its parents exactly when every batch the
run accepts stays in its shards.** -/
theorem index_chained_iff (c : Crypto) (calls : List SyncCall) :
    ShardChained (Runs.run (SyncRun.step c) SyncRun.init calls).trusted
        (Runs.run (SyncRun.step c) SyncRun.init calls).engine.blocks
      ↔ Runs.Along (SyncRun.step c) (CallStays c) SyncRun.init calls := by
  have hrun := @Runs.holds_iff_along _ _ (SyncRun.step c) (CallStays c) (RunOk c)
    (fun w => ShardChained w.trusted w.engine.blocks)
    step_ok (fun w call hok => (step_chained_iff w call hok).2) _ calls init_ok
  rw [hrun]
  exact and_iff_right fun _ _ hb => (nomatch hb)

/-! ## a jump between workchains -/

/-- a masterchain block whose parent is a block of the basic workchain -/
def jumpingCandidate : SyncCandidate :=
  ⟨sampleHeader WorkchainIdent.MASTERCHAIN 1
      ((sampleHeader WorkchainIdent.BASIC 0 0).blockHash sampleCrypto), ⟨0, 0, 0⟩, some ⟨[]⟩, none⟩

def jumpingCalls : List SyncCall :=
  [.insertTrusted (sampleHeader WorkchainIdent.BASIC 0 0) none, .importBatch [jumpingCandidate]]

/-- **A block of another workchain is imported** behind a shard block. -/
theorem shard_abandoned : ¬ ShardChained
    (Runs.run (SyncRun.step sampleCrypto) SyncRun.init jumpingCalls).trusted
    (Runs.run (SyncRun.step sampleCrypto) SyncRun.init jumpingCalls).engine.blocks := by
  intro h
  obtain ⟨p, q, hres, hcont⟩ := h (jumpingCandidate.header.blockHash sampleCrypto)
    jumpingCandidate.stored (by decide +kernel) (by decide +kernel)
  have hparent : (Runs.run (SyncRun.step sampleCrypto) SyncRun.init jumpingCalls).engine.blocks.get?
      jumpingCandidate.header.prevRefHash = some ⟨sampleHeader WorkchainIdent.BASIC 0 0, none⟩ := by
    decide +kernel
  have hp := hparent.symm.trans hres.first
  cases hp
  exact absurd hcont.workchain (by decide)

end Onx.Blocks
