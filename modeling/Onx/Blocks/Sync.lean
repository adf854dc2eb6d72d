import Onx.Blocks.Masterchain
import Onx.Lib.Runs

/-!
# Header synchronization

The index of held blocks and the import of downloaded batches.  A batch is staged on a copy of
the index and replaces it only when every candidate passes.

* `validateCandidate_spec`, `importBatch_spec`, `run_spec`   what a candidate, a batch and a run
                            add: the header and the extra as supplied, under a hash not held before;
* `batch_independent`       an import is all or nothing, and does not depend on how the candidates
                            are split into batches or ordered;
* `held_parent`             every block of a run is an anchor or the successor of a held block;
* `same_configuration_iff`  when two engines agree on the shard configuration behind a masterchain
                            hash.  The hash covers the header alone, so they agree only as far as
                            their peers supplied the same extras;
* `configurations_differ`   two engines that do not.
-/

namespace Onx.Blocks

structure SyncCandidate where
  header : BlockHeader
  recomputedRoots : RecomputedRoots
  masterchainExtra : Option MasterchainBlockExtra
  canonicalityProof : Option Uint256
deriving DecidableEq

structure StoredBlock where
  header : BlockHeader
  masterchainExtra : Option MasterchainBlockExtra
deriving DecidableEq

structure BlockSyncEngine where
  blocks : OrdMap Uint256 StoredBlock

inductive SyncError where
  | block (e : BlocksError)
  | duplicateBlock (hash : Uint256)
  | missingParent (hash : Uint256)
  | missingMasterchainProof (hash : Uint256)
  | missingMasterchainExtra
  | unexpectedMasterchainExtra
  | missingCanonicalityProof
  | unexpectedCanonicalityProof
  | invalidCanonicalityProof (hash : Uint256)
deriving DecidableEq

/-- a masterchain block carries an extra and no proof, a shard block a proof and no extra -/
def validateRoleFields (candidate : SyncCandidate) : Except SyncError Unit :=
  if candidate.header.shard.workchainId.isMasterchain then
    match candidate.masterchainExtra with
    | none => .error .missingMasterchainExtra
    | some extra =>
      match extra.validate with
      | .error e => .error (.block e)
      | .ok () =>
        if candidate.canonicalityProof.isSome then .error .unexpectedCanonicalityProof else .ok ()
  else if candidate.masterchainExtra.isSome then .error .unexpectedMasterchainExtra
  else if candidate.canonicalityProof.isNone then .error .missingCanonicalityProof
  else .ok ()

section
variable (c : Crypto)

/-- the second parent of a merge result -/
def secondParent (header : BlockHeader) (staged : OrdMap Uint256 StoredBlock) :
    Except SyncError (Option BlockHeader) :=
  if isMergeResult header.flags then
    match staged.get? header.prevRefHash2 with
    | none => .error (.missingParent header.prevRefHash2)
    | some parent2 => .ok (some parent2.header)
  else .ok none

/-- the masterchain reference and, for a shard block, the commitment in the block named as proof -/
def validateCoupling (candidate : SyncCandidate) (staged : OrdMap Uint256 StoredBlock) :
    Except SyncError Unit :=
  let header := candidate.header
  if header.shard.workchainId.isMasterchain then
    match validateMasterRef c header none with
    | .error e => .error (.block e)
    | .ok () => .ok ()
  else
    match staged.get? header.masterRefHash with
    | none => .error (.missingMasterchainProof header.masterRefHash)
    | some master =>
      match validateMasterRef c header (some master.header) with
      | .error e => .error (.block e)
      | .ok () =>
        match candidate.canonicalityProof with
        -- `expect("checked above")`: the role check refuses such a candidate
        | none => .error .missingCanonicalityProof
        | some proofHash =>
          match staged.get? proofHash with
          | none => .error (.missingMasterchainProof proofHash)
          | some proof =>
            match proof.masterchainExtra with
            | none => .error .missingMasterchainExtra
            | some extra =>
              if extra.isCanonical header.shard (header.blockHash c) header.seqNo then .ok ()
              else .error (.invalidCanonicalityProof proofHash)

def validateCandidate (candidate : SyncCandidate) (staged : OrdMap Uint256 StoredBlock) :
    Except SyncError (OrdMap Uint256 StoredBlock) :=
  match validateRoleFields candidate with
  | .error e => .error e
  | .ok () =>
    let hash := candidate.header.blockHash c
    if staged.contains hash then .error (.duplicateBlock hash)
    else match staged.get? candidate.header.prevRefHash with
    | none => .error (.missingParent candidate.header.prevRefHash)
    | some parent =>
      match secondParent candidate.header staged with
      | .error e => .error e
      | .ok parent2 =>
        match validateBlockSuccessor c candidate.header parent.header parent2
            candidate.recomputedRoots with
        | .error e => .error (.block e)
        | .ok () =>
          match validateCoupling c candidate staged with
          | .error e => .error e
          | .ok () => .ok (staged.insert hash ⟨candidate.header, candidate.masterchainExtra⟩)

/-- the loop of `import_batch` over the staged index -/
def validateAll : List SyncCandidate → OrdMap Uint256 StoredBlock →
    Except SyncError (OrdMap Uint256 StoredBlock)
  | [], staged => .ok staged
  | candidate :: rest, staged =>
    match validateCandidate c candidate staged with
    | .error e => .error e
    | .ok staged' => validateAll rest staged'

namespace BlockSyncEngine
variable (self : BlockSyncEngine)

def default : BlockSyncEngine := ⟨OrdMap.empty⟩

def insertTrusted (header : BlockHeader) (extra : Option MasterchainBlockExtra) :
    Except SyncError Unit × BlockSyncEngine :=
  let candidate : SyncCandidate :=
    { canonicalityProof := if header.shard.workchainId.isMasterchain then none else some 0
      recomputedRoots := ⟨header.stateRootHash, header.inMsgRootHash, header.outMsgRootHash⟩
      header := header
      masterchainExtra := extra }
  match validateRoleFields candidate with
  | .error e => (.error e, self)
  | .ok () =>
    let hash := candidate.header.blockHash c
    if self.blocks.contains hash then (.error (.duplicateBlock hash), self)
    else (.ok (), ⟨self.blocks.insert hash ⟨candidate.header, candidate.masterchainExtra⟩⟩)

def importBatch (candidates : List SyncCandidate) : Except SyncError Unit × BlockSyncEngine :=
  match validateAll c candidates self.blocks with
  | .error e => (.error e, self)
  | .ok staged => (.ok (), ⟨staged⟩)

def importReverseBatch (candidates : List SyncCandidate) :
    Except SyncError Unit × BlockSyncEngine :=
  self.importBatch c candidates.reverse

def header (hash : Uint256) : Option BlockHeader := (self.blocks.get? hash).map StoredBlock.header

/-- the verdict of the `is_canonical` check on a shard header with this proof -/
def provesCanonical (proof : Uint256) (header : BlockHeader) : Bool :=
  match self.blocks.get? proof with
  | none => false
  | some stored =>
    match stored.masterchainExtra with
    | none => false
    | some extra => extra.isCanonical header.shard (header.blockHash c) header.seqNo

end BlockSyncEngine

/-! ## runs -/

/-- an index of trusted anchors; an anchor that is refused changes nothing -/
def ofAnchors (anchors : List (BlockHeader × Option MasterchainBlockExtra)) : BlockSyncEngine :=
  Runs.run (fun e a => (e.insertTrusted c a.1 a.2).2) BlockSyncEngine.default anchors

/-- a response from a peer, ancestor first or descendant first -/
inductive Batch where
  | forward (candidates : List SyncCandidate)
  | reverse (candidates : List SyncCandidate)

/-- the candidates of a batch, ancestor first -/
def Batch.candidates : Batch → List SyncCandidate
  | .forward cs => cs
  | .reverse cs => cs.reverse

def Batch.importTo (e : BlockSyncEngine) : Batch → Except SyncError Unit × BlockSyncEngine
  | .forward cs => e.importBatch c cs
  | .reverse cs => e.importReverseBatch c cs

def Batch.apply (e : BlockSyncEngine) (b : Batch) : BlockSyncEngine := (b.importTo c e).2

/-- the candidates of the batches a run accepts -/
def accepted : BlockSyncEngine → List Batch → List SyncCandidate
  | _, [] => []
  | e, b :: bs =>
    (match (b.importTo c e).1 with
      | .ok () => b.candidates
      | .error _ => []) ++ accepted (b.apply c e) bs

end

/-! ## what an import adds -/

section
variable {c : Crypto}

/-- what a candidate is stored as -/
def SyncCandidate.stored (candidate : SyncCandidate) : StoredBlock :=
  ⟨candidate.header, candidate.masterchainExtra⟩

/-- a candidate passes the checks against a staged index, with these parents -/
structure Admits (c : Crypto) (candidate : SyncCandidate) (staged : OrdMap Uint256 StoredBlock)
    (parent : StoredBlock) (parent2 : Option BlockHeader) : Prop where
  role : validateRoleFields candidate = .ok ()
  fresh : staged.get? (candidate.header.blockHash c) = none
  resolved : staged.get? candidate.header.prevRefHash = some parent
  resolved2 : secondParent candidate.header staged = .ok parent2
  successor : validateBlockSuccessor c candidate.header parent.header parent2
    candidate.recomputedRoots = .ok ()
  coupling : validateCoupling c candidate staged = .ok ()

theorem validateCandidate_cases {candidate : SyncCandidate}
    {staged staged' : OrdMap Uint256 StoredBlock}
    (h : validateCandidate c candidate staged = .ok staged') :
    (∃ parent parent2, Admits c candidate staged parent parent2)
      ∧ staged' = staged.insert (candidate.header.blockHash c) candidate.stored := by
  unfold validateCandidate at h
  cases hrole : validateRoleFields candidate with
  | error e =>
    rw [hrole] at h
    cases h
  | ok u =>
    rw [hrole] at h
    dsimp only at h
    split_ifs at h with hdup
    have hfresh : staged.get? (candidate.header.blockHash c) = none := by
      cases hg : staged.get? (candidate.header.blockHash c) with
      | none => rfl
      | some b => exact absurd (OrdMap.contains_iff.mpr ⟨b, hg⟩) hdup
    cases hpar : staged.get? candidate.header.prevRefHash with
    | none =>
      rw [hpar] at h
      cases h
    | some parent =>
      rw [hpar] at h
      cases hsec : secondParent candidate.header staged with
      | error e =>
        rw [hsec] at h
        cases h
      | ok parent2 =>
        rw [hsec] at h
        dsimp only at h
        cases hval : validateBlockSuccessor c candidate.header parent.header parent2
            candidate.recomputedRoots with
        | error e =>
          rw [hval] at h
          cases h
        | ok u =>
          rw [hval] at h
          cases hcpl : validateCoupling c candidate staged with
          | error e =>
            rw [hcpl] at h
            cases h
          | ok u =>
            rw [hcpl] at h
            cases h
            exact ⟨⟨parent, parent2, hrole, hfresh, hpar, hsec, hval, hcpl⟩, rfl⟩

theorem validateCandidate_spec {candidate : SyncCandidate} {staged staged' : OrdMap Uint256 StoredBlock}
    (h : validateCandidate c candidate staged = .ok staged') :
    staged.get? (candidate.header.blockHash c) = none
      ∧ (∃ parent, staged.get? candidate.header.prevRefHash = some parent
        ∧ parent.header.seqNo.toNat < candidate.header.seqNo.toNat)
      ∧ staged' = staged.insert (candidate.header.blockHash c) candidate.stored := by
  obtain ⟨⟨parent, parent2, hadm⟩, hins⟩ := validateCandidate_cases h
  exact ⟨hadm.fresh, ⟨parent, hadm.resolved, (validateBlockSuccessor_ok c hadm.successor).2.1⟩, hins⟩

/-- a staged index holds what it held before and the candidates -/
theorem validateAll_spec {cs : List SyncCandidate} {staged staged' : OrdMap Uint256 StoredBlock}
    (h : validateAll c cs staged = .ok staged') :
    (∀ cand ∈ cs, staged.get? (cand.header.blockHash c) = none)
      ∧ ∀ hash b, staged'.get? hash = some b ↔ staged.get? hash = some b
        ∨ ∃ cand ∈ cs, cand.header.blockHash c = hash ∧ b = cand.stored := by
  induction cs generalizing staged with
  | nil =>
    cases h
    exact ⟨(fun _ hm => nomatch hm), fun hash b => by simp⟩
  | cons cand cs ih =>
    unfold validateAll at h
    cases hc : validateCandidate c cand staged with
    | error e =>
      rw [hc] at h
      cases h
    | ok mid =>
      rw [hc] at h
      obtain ⟨hfresh, _, rfl⟩ := validateCandidate_spec hc
      obtain ⟨hnew, hget⟩ := ih h
      have hold : ∀ hash, (staged.insert (cand.header.blockHash c) cand.stored).get? hash = none →
          staged.get? hash = none := by
        intro hash hnone
        rw [OrdMap.get?_insert] at hnone
        split_ifs at hnone
        exact hnone
      refine ⟨?_, fun hash b => ?_⟩
      · intro cand' hm
        rcases List.mem_cons.mp hm with rfl | hm
        · exact hfresh
        · exact hold _ (hnew cand' hm)
      · rw [hget, OrdMap.get?_insert]
        constructor
        · rintro (hin | ⟨cand', hm, hhash, hb⟩)
          · split_ifs at hin with heq
            · cases hin
              exact Or.inr ⟨cand, List.mem_cons_self, heq.symm, rfl⟩
            · exact Or.inl hin
          · exact Or.inr ⟨cand', List.mem_cons_of_mem _ hm, hhash, hb⟩
        · rintro (hin | ⟨cand', hm, hhash, hb⟩)
          · left
            rw [if_neg fun heq => ?_]
            · exact hin
            · rw [heq, hfresh] at hin
              cases hin
          · rcases List.mem_cons.mp hm with rfl | hm
            · left
              rw [if_pos hhash.symm, hb]
            · exact Or.inr ⟨cand', hm, hhash, hb⟩

theorem importTo_eq (e : BlockSyncEngine) (b : Batch) :
    b.importTo c e = e.importBatch c b.candidates := by
  cases b <;> rfl

theorem importBatch_spec (e : BlockSyncEngine) (cs : List SyncCandidate) :
    (∃ err, e.importBatch c cs = (.error err, e)) ∨
    ∃ e', e.importBatch c cs = (.ok (), e')
      ∧ (∀ cand ∈ cs, e.blocks.get? (cand.header.blockHash c) = none)
      ∧ ∀ hash b, e'.blocks.get? hash = some b ↔ e.blocks.get? hash = some b
        ∨ ∃ cand ∈ cs, cand.header.blockHash c = hash ∧ b = cand.stored := by
  unfold BlockSyncEngine.importBatch
  cases h : validateAll c cs e.blocks with
  | error err => exact Or.inl ⟨err, rfl⟩
  | ok staged =>
    obtain ⟨hfresh, hget⟩ := validateAll_spec h
    exact Or.inr ⟨⟨staged⟩, rfl, hfresh, hget⟩

/-- **After a run an engine holds what it held before and what it accepted, nothing overwritten.** -/
theorem run_spec (e : BlockSyncEngine) (bs : List Batch) :
    (∀ cand ∈ accepted c e bs, e.blocks.get? (cand.header.blockHash c) = none)
      ∧ ∀ hash b, (Runs.run (Batch.apply c) e bs).blocks.get? hash = some b
        ↔ e.blocks.get? hash = some b
          ∨ ∃ cand ∈ accepted c e bs, cand.header.blockHash c = hash ∧ b = cand.stored := by
  induction bs generalizing e with
  | nil => exact ⟨(fun _ hm => nomatch hm), fun hash b => by simp [accepted]⟩
  | cons batch bs ih =>
    obtain ⟨hnew, hget⟩ := ih (batch.apply c e)
    unfold accepted
    rw [Runs.run_cons]
    rcases importBatch_spec (c := c) e batch.candidates with ⟨err, hr⟩ | ⟨e', hr, hfresh, hadd⟩
    · have hsame : batch.apply c e = e := by
        rw [Batch.apply, importTo_eq, hr]
      rw [hsame] at hnew hget ⊢
      rw [importTo_eq, hr]
      exact ⟨hnew, hget⟩
    · have hnext : batch.apply c e = e' := by
        rw [Batch.apply, importTo_eq, hr]
      rw [hnext] at hnew hget ⊢
      rw [importTo_eq, hr]
      dsimp only
      refine ⟨?_, fun hash b => ?_⟩
      · intro cand hm
        rcases List.mem_append.mp hm with hm | hm
        · exact hfresh cand hm
        · cases hg : e.blocks.get? (cand.header.blockHash c) with
          | none => rfl
          | some b =>
            have hheld := (hadd _ b).mpr (Or.inl hg)
            rw [hnew cand hm] at hheld
            cases hheld
      · rw [hget, hadd, or_assoc]
        refine or_congr Iff.rfl ?_
        simp only [List.mem_append, or_and_right, exists_or]

/-! ## splitting and ordering a batch -/

theorem validateAll_append (xs ys : List SyncCandidate) (staged : OrdMap Uint256 StoredBlock) :
    validateAll c (xs ++ ys) staged = match validateAll c xs staged with
      | .error e => .error e
      | .ok mid => validateAll c ys mid := by
  induction xs generalizing staged with
  | nil => rfl
  | cons x xs ih =>
    simp only [List.cons_append, validateAll]
    cases validateCandidate c x staged with
    | error e => rfl
    | ok next => exact ih next

/-- **The staged index depends on which candidates passed, not on their order.** -/
theorem validateAll_perm {xs ys : List SyncCandidate} (hperm : xs.Perm ys)
    {staged s₁ s₂ : OrdMap Uint256 StoredBlock} (h₁ : validateAll c xs staged = .ok s₁)
    (h₂ : validateAll c ys staged = .ok s₂) : s₁ = s₂ := by
  refine OrdMap.ext_get? fun hash => Option.ext fun b => ?_
  rw [(validateAll_spec h₁).2, (validateAll_spec h₂).2]
  refine or_congr_right (exists_congr fun cand => ?_)
  rw [hperm.mem_iff]

namespace BlockSyncEngine
variable {e e' : BlockSyncEngine} {xs ys : List SyncCandidate}

theorem importBatch_ok_iff :
    e.importBatch c xs = (.ok (), e') ↔ validateAll c xs e.blocks = .ok e'.blocks := by
  unfold importBatch
  cases validateAll c xs e.blocks with
  | error err => exact ⟨(nomatch ·), (nomatch ·)⟩
  | ok staged =>
    constructor
    · intro h
      cases h
      rfl
    · intro h
      cases h
      rfl

/-- a refused batch changes nothing -/
theorem importBatch_error {err : SyncError} (h : e.importBatch c xs = (.error err, e')) :
    e' = e := by
  unfold importBatch at h
  cases hv : validateAll c xs e.blocks with
  | error err' =>
    rw [hv] at h
    cases h
    rfl
  | ok staged =>
    rw [hv] at h
    cases h

/-- **A batch in two parts** is the first part and then the second. -/
theorem importBatch_append_ok : e.importBatch c (xs ++ ys) = (.ok (), e') ↔
    ∃ mid, e.importBatch c xs = (.ok (), mid) ∧ mid.importBatch c ys = (.ok (), e') := by
  rw [importBatch_ok_iff, validateAll_append]
  constructor
  · intro h
    cases hx : validateAll c xs e.blocks with
    | error err =>
      rw [hx] at h
      cases h
    | ok mid =>
      rw [hx] at h
      exact ⟨⟨mid⟩, importBatch_ok_iff.mpr hx, importBatch_ok_iff.mpr h⟩
  · rintro ⟨mid, hx, hy⟩
    rw [importBatch_ok_iff.mp hx]
    exact importBatch_ok_iff.mp hy

theorem importBatch_perm {e₁ e₂ : BlockSyncEngine} (hperm : xs.Perm ys)
    (h₁ : e.importBatch c xs = (.ok (), e₁)) (h₂ : e.importBatch c ys = (.ok (), e₂)) :
    e₁ = e₂ := by
  have hblocks : e₁.blocks = e₂.blocks :=
    validateAll_perm hperm (importBatch_ok_iff.mp h₁) (importBatch_ok_iff.mp h₂)
  cases e₁
  cases e₂
  exact congrArg BlockSyncEngine.mk hblocks

end BlockSyncEngine

/-- **An import is all or nothing, whatever the batches and the order**: a batch passes exactly if
its parts pass one after the other, and leaves the same index; a refused one leaves the index as it
was; two orders that both pass leave one index; and a response is imported as its reverse. -/
theorem batch_independent (c : Crypto) (e : BlockSyncEngine) :
    (∀ xs ys e', e.importBatch c (xs ++ ys) = (.ok (), e') ↔
      ∃ mid, e.importBatch c xs = (.ok (), mid) ∧ mid.importBatch c ys = (.ok (), e')) ∧
    (∀ xs err e', e.importBatch c xs = (.error err, e') → e' = e) ∧
    (∀ xs ys e₁ e₂, xs.Perm ys → e.importBatch c xs = (.ok (), e₁) →
      e.importBatch c ys = (.ok (), e₂) → e₁ = e₂) ∧
    ∀ xs, e.importReverseBatch c xs.reverse = e.importBatch c xs := by
  refine ⟨fun _ _ _ => BlockSyncEngine.importBatch_append_ok,
    fun _ _ _ => BlockSyncEngine.importBatch_error,
    fun _ _ _ _ => BlockSyncEngine.importBatch_perm, fun xs => ?_⟩
  unfold BlockSyncEngine.importReverseBatch
  rw [List.reverse_reverse]

/-! ## ancestry -/

/-- every block is held in `origin`, or its parent is held and comes before it -/
def Rooted (origin blocks : OrdMap Uint256 StoredBlock) : Prop :=
  ∀ hash b, blocks.get? hash = some b → origin.get? hash = some b ∨
    ∃ parent, blocks.get? b.header.prevRefHash = some parent
      ∧ parent.header.seqNo.toNat < b.header.seqNo.toNat

theorem validateCandidate_rooted {candidate : SyncCandidate}
    {origin staged staged' : OrdMap Uint256 StoredBlock} (hroot : Rooted origin staged)
    (h : validateCandidate c candidate staged = .ok staged') : Rooted origin staged' := by
  obtain ⟨hfresh, ⟨parent, hparent, hseq⟩, rfl⟩ := validateCandidate_spec h
  intro hash b hb
  rw [OrdMap.get?_insert] at hb
  split_ifs at hb with heq
  · cases hb
    -- a block held before is still held, so parents stay
    exact Or.inr ⟨parent, OrdMap.get?_insert_fresh hfresh hparent, hseq⟩
  · rcases hroot hash b hb with hin | ⟨p, hp, hlt⟩
    · exact Or.inl hin
    · exact Or.inr ⟨p, OrdMap.get?_insert_fresh hfresh hp, hlt⟩

theorem validateAll_rooted {cs : List SyncCandidate}
    {origin staged staged' : OrdMap Uint256 StoredBlock} (hroot : Rooted origin staged)
    (h : validateAll c cs staged = .ok staged') : Rooted origin staged' := by
  induction cs generalizing staged with
  | nil =>
    cases h
    exact hroot
  | cons cand cs ih =>
    unfold validateAll at h
    cases hc : validateCandidate c cand staged with
    | error e =>
      rw [hc] at h
      cases h
    | ok mid =>
      rw [hc] at h
      exact ih (validateCandidate_rooted hroot hc) h

/-- **Every block an engine holds is one it started with, or the successor of a held block.** -/
theorem held_parent (e : BlockSyncEngine) (bs : List Batch) :
    Rooted e.blocks (Runs.run (Batch.apply c) e bs).blocks := by
  refine Runs.run_inv (I := fun (e' : BlockSyncEngine) => Rooted e.blocks e'.blocks)
    (fun e' batch h => ?_) bs (fun _ _ hb => Or.inl hb)
  rw [Batch.apply, importTo_eq, BlockSyncEngine.importBatch]
  cases hv : validateAll c batch.candidates e'.blocks with
  | error err => exact h
  | ok staged => exact validateAll_rooted h hv

/-! ## two engines -/

/-- engines that hold the masterchain block of a hash hold one configuration for it, so a shard
header with that hash as its proof gets one verdict -/
def SameConfiguration (c : Crypto) (e₁ e₂ : BlockSyncEngine) : Prop :=
  ∀ hash b₁ b₂, e₁.blocks.get? hash = some b₁ → e₂.blocks.get? hash = some b₂ →
    b₁.header.shard.workchainId.isMasterchain = true →
    b₁.masterchainExtra = b₂.masterchainExtra
      ∧ ∀ header, e₁.provesCanonical c hash header = e₂.provesCanonical c hash header

/-- candidates with one masterchain header carry one extra -/
def SameSupply (cs₁ cs₂ : List SyncCandidate) : Prop :=
  ∀ c₁ ∈ cs₁, ∀ c₂ ∈ cs₂, c₁.header = c₂.header →
    c₁.header.shard.workchainId.isMasterchain = true → c₁.masterchainExtra = c₂.masterchainExtra

theorem provesCanonical_congr {e₁ e₂ : BlockSyncEngine} {hash : Uint256} {b₁ b₂ : StoredBlock}
    (h₁ : e₁.blocks.get? hash = some b₁) (h₂ : e₂.blocks.get? hash = some b₂)
    (hextra : b₁.masterchainExtra = b₂.masterchainExtra) (header : BlockHeader) :
    e₁.provesCanonical c hash header = e₂.provesCanonical c hash header := by
  unfold BlockSyncEngine.provesCanonical
  rw [h₁, h₂]
  dsimp only
  rw [hextra]

/-- **Two engines from the same anchors agree on every configuration exactly when the batches they
accepted carry one extra for each masterchain header**, if SHA-256 has no collision among the
headers they accepted. -/
theorem same_configuration_iff (c : Crypto)
    (anchors : List (BlockHeader × Option MasterchainBlockExtra)) (bs₁ bs₂ : List Batch)
    (hcoll : ∀ c₁ ∈ accepted c (ofAnchors c anchors) bs₁,
      ∀ c₂ ∈ accepted c (ofAnchors c anchors) bs₂,
      c.sha256 (BlockHeader.DOMAIN_TAG.bytes ++ c₁.header.toBytes)
        = c.sha256 (BlockHeader.DOMAIN_TAG.bytes ++ c₂.header.toBytes) →
      BlockHeader.DOMAIN_TAG.bytes ++ c₁.header.toBytes
        = BlockHeader.DOMAIN_TAG.bytes ++ c₂.header.toBytes) :
    SameConfiguration c (Runs.run (Batch.apply c) (ofAnchors c anchors) bs₁)
        (Runs.run (Batch.apply c) (ofAnchors c anchors) bs₂)
      ↔ SameSupply (accepted c (ofAnchors c anchors) bs₁)
        (accepted c (ofAnchors c anchors) bs₂) := by
  obtain ⟨hnew₁, hget₁⟩ := run_spec (c := c) (ofAnchors c anchors) bs₁
  obtain ⟨hnew₂, hget₂⟩ := run_spec (c := c) (ofAnchors c anchors) bs₂
  constructor
  · intro hsame c₁ h₁ c₂ h₂ hheader hmaster
    have hheld₁ := (hget₁ (c₁.header.blockHash c) c₁.stored).mpr (Or.inr ⟨c₁, h₁, rfl, rfl⟩)
    have hheld₂ := (hget₂ (c₁.header.blockHash c) c₂.stored).mpr
      (Or.inr ⟨c₂, h₂, by rw [hheader], rfl⟩)
    exact (hsame _ _ _ hheld₁ hheld₂ hmaster).1
  · intro hsupply hash b₁ b₂ hb₁ hb₂ hmaster
    have hextra : b₁.masterchainExtra = b₂.masterchainExtra := by
      rcases (hget₁ hash b₁).mp hb₁ with hin₁ | ⟨c₁, h₁, hhash₁, rfl⟩ <;>
        rcases (hget₂ hash b₂).mp hb₂ with hin₂ | ⟨c₂, h₂, hhash₂, rfl⟩
      · rw [hin₁] at hin₂
        cases hin₂
        rfl
      -- an accepted hash was not held at the start
      · rw [← hhash₂, hnew₂ c₂ h₂] at hin₁
        cases hin₁
      · rw [← hhash₁, hnew₁ c₁ h₁] at hin₂
        cases hin₂
      · have hbytes := hcoll c₁ h₁ c₂ h₂ (hhash₁.trans hhash₂.symm)
        have hheader := BlockHeader.toBytes_inj (List.append_cancel_left hbytes)
        exact hsupply c₁ h₁ c₂ h₂ hheader hmaster
    exact ⟨hextra, provesCanonical_congr hb₁ hb₂ hextra⟩

end

/-! ## a sample chain -/

def sampleHeader (workchain : WorkchainIdent) (seqNo : Uint32) (parent : Uint256) : BlockHeader where
  magicConstructor := 0x1F2E3D4C
  shard := ShardIdent.root workchain
  seqNo := seqNo
  flags := 0
  genUtime := 0
  startLt := 0
  endLt := 0
  prevKeyBlock := 0
  prevRefHash := parent
  prevRefHash2 := 0
  masterRefHash := 0
  stateRootHash := 0
  inMsgRootHash := 0
  outMsgRootHash := 0

/-- a masterchain anchor with an empty configuration -/
def sampleAnchor : BlockHeader × Option MasterchainBlockExtra :=
  (sampleHeader WorkchainIdent.MASTERCHAIN 0 0, some ⟨[]⟩)

/-- the next masterchain block, with the configuration a peer sends along -/
def sampleCandidate (entries : List ShardEntry) : SyncCandidate :=
  ⟨sampleHeader WorkchainIdent.MASTERCHAIN 1 (sampleAnchor.1.blockHash sampleCrypto), ⟨0, 0, 0⟩,
    some ⟨entries⟩, none⟩

theorem same_configuration_iff_sample :
    SameConfiguration sampleCrypto
        (Runs.run (Batch.apply sampleCrypto) (ofAnchors sampleCrypto [sampleAnchor])
          [.forward [sampleCandidate []]])
        (Runs.run (Batch.apply sampleCrypto) (ofAnchors sampleCrypto [sampleAnchor])
          [.reverse [sampleCandidate []]])
      ↔ SameSupply (accepted sampleCrypto (ofAnchors sampleCrypto [sampleAnchor])
          [.forward [sampleCandidate []]])
        (accepted sampleCrypto (ofAnchors sampleCrypto [sampleAnchor])
          [.reverse [sampleCandidate []]]) :=
  same_configuration_iff sampleCrypto [sampleAnchor] _ _ (by decide +kernel)

/-- **One header with two configurations** is accepted, each by another engine. -/
theorem configurations_differ : ¬ SameConfiguration sampleCrypto
    (Runs.run (Batch.apply sampleCrypto) (ofAnchors sampleCrypto [sampleAnchor])
      [.forward [sampleCandidate []]])
    (Runs.run (Batch.apply sampleCrypto) (ofAnchors sampleCrypto [sampleAnchor])
      [.forward [sampleCandidate [⟨ShardIdent.root WorkchainIdent.BASIC, 5, 1⟩]]]) := by
  intro hsame
  have hdiff := (hsame ((sampleCandidate []).header.blockHash sampleCrypto)
    (sampleCandidate []).stored
    (sampleCandidate [⟨ShardIdent.root WorkchainIdent.BASIC, 5, 1⟩]).stored
    (by decide +kernel) (by decide +kernel) (by decide +kernel)).1
  exact absurd hdiff (by decide +kernel)

end Onx.Blocks
