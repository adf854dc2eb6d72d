import Onx.Blocks.Sync
import Mathlib.Order.MinMax

/-!
# The synchronization index

What an engine holds after any calls of `insert_trusted`, `import_batch` and
`import_reverse_batch`, accepted or refused.  The run remembers beside the engine which hashes were
inserted as trusted.

* `Linked`, `Coupled`    the parents and the masterchain blocks of an imported block;
* `Justified`            the invariant of the index;
* `run_justified`        it holds after every run;
* `reaches_trusted`      so `prev_ref_hash` leads from every block to a trusted one;
* `index_justified`      both together.
-/

namespace Onx.Blocks

/-! ## what an index holds for a block -/

/-- the parents of a header are held and lie before it -/
def Linked (blocks : OrdMap Uint256 StoredBlock) (header : BlockHeader) : Prop :=
  ∃ parent, blocks.get? header.prevRefHash = some parent ∧
    if isMergeResult header.flags then
      ∃ parent2, blocks.get? header.prevRefHash2 = some parent2
        ∧ header.seqNo.toNat = max parent.header.seqNo.toNat parent2.header.seqNo.toNat + 1
        ∧ NotBefore header parent.header ∧ NotBefore header parent2.header
    else header.seqNo.toNat = parent.header.seqNo.toNat + 1 ∧ NotBefore header parent.header

/-- the masterchain block a shard header refers to is held, and so is one that lists it -/
structure Coupled (c : Crypto) (blocks : OrdMap Uint256 StoredBlock) (header : BlockHeader) :
    Prop where
  master : ∃ b, blocks.get? header.masterRefHash = some b
    ∧ b.header.shard.workchainId.isMasterchain = true
    ∧ b.header.blockHash c = header.masterRefHash
  listed : ∃ hash b extra, blocks.get? hash = some b
    ∧ b.header.shard.workchainId.isMasterchain = true ∧ b.masterchainExtra = some extra
    ∧ ShardEntry.mk header.shard (header.blockHash c) header.seqNo ∈ extra.shardEntries

/-- a masterchain block carries a validated extra, and no other block carries one -/
def ExtraFits (b : StoredBlock) : Prop :=
  if b.header.shard.workchainId.isMasterchain then
    ∃ extra, b.masterchainExtra = some extra ∧ extra.validate = .ok ()
  else b.masterchainExtra = none

/-- the invariant of the index -/
structure Justified (c : Crypto) (trusted : List Uint256) (blocks : OrdMap Uint256 StoredBlock) :
    Prop where
  key : ∀ hash b, blocks.get? hash = some b → b.header.blockHash c = hash
  extra : ∀ hash b, blocks.get? hash = some b → ExtraFits b
  linked : ∀ hash b, blocks.get? hash = some b → hash ∉ trusted → Linked blocks b.header
  coupled : ∀ hash b, blocks.get? hash = some b → hash ∉ trusted →
    b.header.shard.workchainId.isMasterchain = false → Coupled c blocks b.header

section
variable {c : Crypto} {blocks blocks' : OrdMap Uint256 StoredBlock}

theorem Linked.mono (hgrow : ∀ hash b, blocks.get? hash = some b → blocks'.get? hash = some b)
    {header : BlockHeader} (h : Linked blocks header) : Linked blocks' header := by
  obtain ⟨parent, hparent, hrest⟩ := h
  refine ⟨parent, hgrow _ _ hparent, ?_⟩
  split_ifs at hrest ⊢ with hmerge
  · obtain ⟨parent2, hparent2, hafter⟩ := hrest
    exact ⟨parent2, hgrow _ _ hparent2, hafter⟩
  · exact hrest

theorem Coupled.mono (hgrow : ∀ hash b, blocks.get? hash = some b → blocks'.get? hash = some b)
    {header : BlockHeader} (h : Coupled c blocks header) : Coupled c blocks' header := by
  obtain ⟨⟨m, hm, hmaster⟩, hash, b, extra, hb, hlisted⟩ := h
  exact ⟨⟨m, hgrow _ _ hm, hmaster⟩, hash, b, extra, hgrow _ _ hb, hlisted⟩

/-- a block that fits under a free hash keeps the invariant -/
theorem Justified.insert {trusted trusted' : List Uint256} (hj : Justified c trusted blocks)
    {b : StoredBlock} (hfresh : blocks.get? (b.header.blockHash c) = none)
    (hsub : ∀ hash ∈ trusted, hash ∈ trusted') (hextra : ExtraFits b)
    (hnew : b.header.blockHash c ∉ trusted' → Linked blocks b.header
      ∧ (b.header.shard.workchainId.isMasterchain = false → Coupled c blocks b.header)) :
    Justified c trusted' (blocks.insert (b.header.blockHash c) b) := by
  have hgrow : ∀ hash b', blocks.get? hash = some b' →
      (blocks.insert (b.header.blockHash c) b).get? hash = some b' :=
    fun _ _ hb => OrdMap.get?_insert_fresh hfresh hb
  -- a block of the new index is the new one or was held before
  have hcases : ∀ hash b', (blocks.insert (b.header.blockHash c) b).get? hash = some b' →
      (hash = b.header.blockHash c ∧ b' = b) ∨ blocks.get? hash = some b' := by
    intro hash b' hb
    rw [OrdMap.get?_insert] at hb
    split_ifs at hb with heq
    · exact Or.inl ⟨heq, by simpa using hb.symm⟩
    · exact Or.inr hb
  refine ⟨fun hash b' hb => ?_, fun hash b' hb => ?_, fun hash b' hb hun => ?_,
    fun hash b' hb hun hshard => ?_⟩
  · rcases hcases hash b' hb with ⟨rfl, rfl⟩ | hold
    · rfl
    · exact hj.key hash b' hold
  · rcases hcases hash b' hb with ⟨rfl, rfl⟩ | hold
    · exact hextra
    · exact hj.extra hash b' hold
  · rcases hcases hash b' hb with ⟨rfl, rfl⟩ | hold
    · exact (hnew hun).1.mono hgrow
    · exact (hj.linked hash b' hold (fun hm => hun (hsub _ hm))).mono hgrow
  · rcases hcases hash b' hb with ⟨rfl, rfl⟩ | hold
    · exact ((hnew hun).2 hshard).mono hgrow
    · exact (hj.coupled hash b' hold (fun hm => hun (hsub _ hm)) hshard).mono hgrow

/-! ## one candidate -/

theorem validateRoleFields_extra {candidate : SyncCandidate}
    (h : validateRoleFields candidate = .ok ()) : ExtraFits candidate.stored := by
  unfold validateRoleFields at h
  unfold ExtraFits
  cases hmaster : candidate.header.shard.workchainId.isMasterchain with
  | true =>
    rw [if_pos hmaster] at h
    rw [if_pos (show candidate.stored.header.shard.workchainId.isMasterchain = true from hmaster)]
    cases hextra : candidate.masterchainExtra with
    | none =>
      rw [hextra] at h
      cases h
    | some extra =>
      cases hval : extra.validate with
      | error e =>
        simp only [hextra, hval] at h
        cases h
      | ok u => exact ⟨extra, hextra, hval⟩
  | false =>
    rw [if_neg (by simp [hmaster])] at h
    rw [if_neg (by simp [SyncCandidate.stored, hmaster])]
    split_ifs at h with hsome
    exact Option.not_isSome_iff_eq_none.mp hsome

theorem Admits.linked {candidate : SyncCandidate} {parent : StoredBlock}
    {parent2 : Option BlockHeader} (h : Admits c candidate blocks parent parent2) :
    Linked blocks candidate.header := by
  have hcont := ((validateBlockSuccessor_iff c).mp h.successor).1.parents
  refine ⟨parent, h.resolved, ?_⟩
  have hsecond := h.resolved2
  unfold Continues at hcont
  unfold secondParent at hsecond
  split_ifs at hcont hsecond ⊢ with hmerge
  · obtain ⟨p2, rfl, _, hseq, hafter, _⟩ := hcont
    cases hp2 : blocks.get? candidate.header.prevRefHash2 with
    | none =>
      rw [hp2] at hsecond
      cases hsecond
    | some b2 =>
      rw [hp2] at hsecond
      cases hsecond
      exact ⟨b2, rfl, hseq, hafter⟩
  · exact ⟨hcont.2.1, hcont.2.2.1⟩

theorem validateMasterRef_ok {header : BlockHeader} {resolved : Option BlockHeader}
    (hshard : header.shard.workchainId.isMasterchain = false)
    (h : validateMasterRef c header resolved = .ok ()) :
    ∃ m, resolved = some m ∧ m.shard.workchainId.isMasterchain = true
      ∧ header.masterRefHash = m.blockHash c := by
  unfold validateMasterRef at h
  rw [if_neg (by simp [hshard])] at h
  cases resolved with
  | none => cases h
  | some m =>
    dsimp only at h
    split_ifs at h with hm
    exact ⟨m, rfl, hm⟩

theorem isCanonical_iff {x : MasterchainBlockExtra} {shard : ShardIdent} {hash : Uint256}
    {seqNo : Uint32} :
    x.isCanonical shard hash seqNo = true ↔ ShardEntry.mk shard hash seqNo ∈ x.shardEntries := by
  unfold MasterchainBlockExtra.isCanonical
  rw [List.any_eq_true]
  constructor
  · rintro ⟨⟨s, bh, n⟩, hmem, heq⟩
    simp only [Bool.and_eq_true, decide_eq_true_eq] at heq
    obtain ⟨⟨rfl, rfl⟩, rfl⟩ := heq
    exact hmem
  · intro hmem
    exact ⟨_, hmem, by simp⟩

theorem Admits.coupled {candidate : SyncCandidate} {parent : StoredBlock}
    {parent2 : Option BlockHeader} {trusted : List Uint256} (hj : Justified c trusted blocks)
    (h : Admits c candidate blocks parent parent2)
    (hshard : candidate.header.shard.workchainId.isMasterchain = false) :
    Coupled c blocks candidate.header := by
  have hcpl := h.coupling
  unfold validateCoupling at hcpl
  simp only [hshard, Bool.false_eq_true, if_false] at hcpl
  cases hm : blocks.get? candidate.header.masterRefHash with
  | none => simp [hm] at hcpl
  | some m =>
    cases href : validateMasterRef c candidate.header (some m.header) with
    | error e => simp [hm, href] at hcpl
    | ok u =>
      obtain ⟨m', hsome, hmaster, hhash⟩ := validateMasterRef_ok hshard href
      cases hsome
      cases hproof : candidate.canonicalityProof with
      | none => simp [hm, href, hproof] at hcpl
      | some proofHash =>
        cases hp : blocks.get? proofHash with
        | none => simp [hm, href, hproof, hp] at hcpl
        | some proof =>
          cases hextra : proof.masterchainExtra with
          | none => simp [hm, href, hproof, hp, hextra] at hcpl
          | some extra =>
            simp only [hm, href, hproof, hp, hextra] at hcpl
            split_ifs at hcpl with hcan
            -- only a masterchain block carries an extra
            have hpm : proof.header.shard.workchainId.isMasterchain = true := by
              have hfits := hj.extra proofHash proof hp
              unfold ExtraFits at hfits
              split_ifs at hfits with hmc
              · exact hmc
              · rw [hextra] at hfits
                cases hfits
            exact ⟨⟨m, hm, hmaster, hhash.symm⟩, proofHash, proof, extra, hp, hpm, hextra,
              isCanonical_iff.mp hcan⟩

theorem validateCandidate_justified {candidate : SyncCandidate} {trusted : List Uint256}
    (hj : Justified c trusted blocks) (h : validateCandidate c candidate blocks = .ok blocks') :
    Justified c trusted blocks' := by
  obtain ⟨⟨parent, parent2, hadm⟩, rfl⟩ := validateCandidate_cases h
  exact hj.insert (b:=candidate.stored) hadm.fresh (fun _ hm => hm)
    (validateRoleFields_extra hadm.role) (fun _ => ⟨hadm.linked, hadm.coupled hj⟩)

theorem validateAll_justified {cs : List SyncCandidate} {trusted : List Uint256}
    (hj : Justified c trusted blocks) (h : validateAll c cs blocks = .ok blocks') :
    Justified c trusted blocks' := by
  induction cs generalizing blocks with
  | nil =>
    cases h
    exact hj
  | cons cand cs ih =>
    unfold validateAll at h
    cases hc : validateCandidate c cand blocks with
    | error e =>
      rw [hc] at h
      cases h
    | ok mid =>
      rw [hc] at h
      exact ih (validateCandidate_justified hj hc) h

end

/-! ## runs -/

/-- a call of an engine -/
inductive SyncCall where
  | insertTrusted (header : BlockHeader) (extra : Option MasterchainBlockExtra)
  | importBatch (candidates : List SyncCandidate)
  | importReverseBatch (candidates : List SyncCandidate)

def SyncCall.exec (c : Crypto) (e : BlockSyncEngine) :
    SyncCall → Except SyncError Unit × BlockSyncEngine
  | .insertTrusted header extra => e.insertTrusted c header extra
  | .importBatch cs => e.importBatch c cs
  | .importReverseBatch cs => e.importReverseBatch c cs

/-- the hash that an accepted call adds as trusted -/
def SyncCall.trusts (c : Crypto) (e : BlockSyncEngine) : SyncCall → List Uint256
  | .insertTrusted header extra =>
    match (e.insertTrusted c header extra).1 with
    | .ok () => [header.blockHash c]
    | .error _ => []
  | _ => []

/-- an engine and the hashes that were inserted as trusted -/
structure SyncRun where
  engine : BlockSyncEngine
  trusted : List Uint256

def SyncRun.init : SyncRun := ⟨BlockSyncEngine.default, []⟩

def SyncRun.step (c : Crypto) (w : SyncRun) (call : SyncCall) : SyncRun where
  engine := (call.exec c w.engine).2
  trusted := call.trusts c w.engine ++ w.trusted

section
variable {c : Crypto}

theorem insertTrusted_cases (e : BlockSyncEngine) (header : BlockHeader)
    (extra : Option MasterchainBlockExtra) :
    (∃ err, e.insertTrusted c header extra = (.error err, e)) ∨
    e.insertTrusted c header extra
        = (.ok (), ⟨e.blocks.insert (header.blockHash c) ⟨header, extra⟩⟩)
      ∧ e.blocks.get? (header.blockHash c) = none ∧ ExtraFits ⟨header, extra⟩ := by
  unfold BlockSyncEngine.insertTrusted
  dsimp only
  split
  · next err hrole => exact Or.inl ⟨err, rfl⟩
  · next hrole =>
    have hextra := validateRoleFields_extra hrole
    split_ifs with hdup
    · exact Or.inl ⟨_, rfl⟩
    · refine Or.inr ⟨rfl, ?_, hextra⟩
      rw [OrdMap.contains_iff] at hdup
      push Not at hdup
      exact Option.eq_none_iff_forall_ne_some.mpr hdup

theorem importBatch_justified (e : BlockSyncEngine) (cs : List SyncCandidate)
    {trusted : List Uint256} (hj : Justified c trusted e.blocks) :
    Justified c trusted (e.importBatch c cs).2.blocks := by
  unfold BlockSyncEngine.importBatch
  cases h : validateAll c cs e.blocks with
  | error err => exact hj
  | ok staged => exact validateAll_justified hj h

theorem step_justified (w : SyncRun) (call : SyncCall)
    (hj : Justified c w.trusted w.engine.blocks) :
    Justified c (w.step c call).trusted (w.step c call).engine.blocks := by
  cases call with
  | importBatch cs => exact importBatch_justified w.engine cs hj
  | importReverseBatch cs => exact importBatch_justified w.engine cs.reverse hj
  | insertTrusted header extra =>
    unfold SyncRun.step SyncCall.trusts SyncCall.exec
    dsimp only
    rcases insertTrusted_cases (c := c) w.engine header extra with ⟨err, h⟩ | ⟨h, hfresh, hextra⟩
    · rw [h]
      exact hj
    · rw [h]
      exact hj.insert (b:=⟨header, extra⟩) hfresh (fun _ hm => List.mem_cons_of_mem _ hm) hextra
        (fun hun => absurd List.mem_cons_self hun)

theorem run_justified (calls : List SyncCall) :
    Justified c (Runs.run (SyncRun.step c) SyncRun.init calls).trusted
      (Runs.run (SyncRun.step c) SyncRun.init calls).engine.blocks := by
  refine Runs.run_inv (I := fun (w : SyncRun) => Justified c w.trusted w.engine.blocks)
    (fun w call hj => step_justified w call hj) calls ?_
  exact ⟨fun _ _ h => (nomatch h), fun _ _ h => (nomatch h), fun _ _ h => (nomatch h),
    fun _ _ h => (nomatch h)⟩

/-! ## ancestors -/

/-- `prev_ref_hash` leads to a trusted block, through held blocks of descending sequence number -/
inductive ReachesTrusted (trusted : List Uint256) (blocks : OrdMap Uint256 StoredBlock) :
    Uint256 → Prop
  | anchor {hash b} : blocks.get? hash = some b → hash ∈ trusted →
      ReachesTrusted trusted blocks hash
  | parent {hash b parent} : blocks.get? hash = some b →
      blocks.get? b.header.prevRefHash = some parent →
      parent.header.seqNo.toNat < b.header.seqNo.toNat →
      ReachesTrusted trusted blocks b.header.prevRefHash → ReachesTrusted trusted blocks hash

theorem Linked.prev {blocks : OrdMap Uint256 StoredBlock} {header : BlockHeader}
    (h : Linked blocks header) : ∃ parent, blocks.get? header.prevRefHash = some parent
      ∧ parent.header.seqNo.toNat < header.seqNo.toNat := by
  obtain ⟨parent, hparent, hrest⟩ := h
  refine ⟨parent, hparent, ?_⟩
  split_ifs at hrest with hmerge
  · obtain ⟨parent2, _, hseq, _⟩ := hrest
    omega
  · have hseq := hrest.1
    omega

theorem reaches_trusted {trusted : List Uint256} {blocks : OrdMap Uint256 StoredBlock}
    (hj : Justified c trusted blocks) (hash : Uint256) (b : StoredBlock)
    (hb : blocks.get? hash = some b) : ReachesTrusted trusted blocks hash := by
  -- the sequence number descends along parents
  induction hn : b.header.seqNo.toNat using Nat.strong_induction_on generalizing hash b with
  | _ n ih =>
    by_cases hmem : hash ∈ trusted
    · exact .anchor hb hmem
    · obtain ⟨parent, hparent, hlt⟩ := (hj.linked hash b hb hmem).prev
      exact .parent hb hparent hlt (ih _ (hn ▸ hlt) _ parent hparent rfl)

end

/-- **The index is justified after every run, and every block in it descends from a trusted one.** -/
theorem index_justified (c : Crypto) (calls : List SyncCall) :
    Justified c (Runs.run (SyncRun.step c) SyncRun.init calls).trusted
        (Runs.run (SyncRun.step c) SyncRun.init calls).engine.blocks
      ∧ ∀ hash b, (Runs.run (SyncRun.step c) SyncRun.init calls).engine.blocks.get? hash = some b →
        ReachesTrusted (Runs.run (SyncRun.step c) SyncRun.init calls).trusted
          (Runs.run (SyncRun.step c) SyncRun.init calls).engine.blocks hash :=
  ⟨run_justified calls, fun hash b hb => reaches_trusted (run_justified calls) hash b hb⟩

end Onx.Blocks
