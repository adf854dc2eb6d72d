import Onx.DataStructures.Block

/-!
# Structural block validity

Header flags, and the checks that make a header a successor of one parent, or of two for a merge
result.

* `Continues`, `OtherRules`      what the checks demand of a header and its parents;
* `validateBlockSuccessor_iff`   the checks pass exactly when that holds and no parent is committed;
* `validateBlockSuccessor_ok`    what an accepted successor satisfies.
-/

namespace Onx.Blocks

inductive BlocksError where
  | dataStructure (e : DataStructureError)
  | unresolvableParent
  | sequenceDiscontinuity (expected actual : Uint32)
  | nonMonotonicTime
  | stateRootMismatch
  | conflictingSplitMergeFlags (flags : Uint16)
  | reservedFlagBitSet (flags : Uint16)
  | invalidSuccessorAfterCommit
  | unsortedShardEntries
  | duplicateShardEntry
  | invalidMasterchainReference
deriving DecidableEq

/-! ## flags -/

def SPLIT_PREPARE : Uint16 := 0x0001
def SPLIT_COMMIT : Uint16 := 0x0002
def MERGE_PREPARE : Uint16 := 0x0004
def MERGE_COMMIT : Uint16 := 0x0008
def MERGE_RESULT : Uint16 := 0x0010

def ANNOUNCEMENT_MASK : Uint16 := SPLIT_PREPARE ||| SPLIT_COMMIT ||| MERGE_PREPARE ||| MERGE_COMMIT
def RESERVED_MASK : Uint16 := ~~~(ANNOUNCEMENT_MASK ||| MERGE_RESULT)

def countOnes (x : Uint16) : Nat := (List.range 16).countP (fun i => x.getLsbD i)

/-- at most one announcement, and no reserved bit -/
def validateFlags (flags : Uint16) : Except BlocksError Unit :=
  if flags &&& RESERVED_MASK ≠ 0 then .error (.reservedFlagBitSet flags)
  else if countOnes (flags &&& ANNOUNCEMENT_MASK) > 1 then
    .error (.conflictingSplitMergeFlags flags)
  else .ok ()

def isSplitCommit (flags : Uint16) : Bool := flags &&& SPLIT_COMMIT != 0
def isMergeCommit (flags : Uint16) : Bool := flags &&& MERGE_COMMIT != 0
def isMergeResult (flags : Uint16) : Bool := flags &&& MERGE_RESULT != 0

/-! ## successors -/

structure RecomputedRoots where
  stateRootHash : Uint256
  inMsgRootHash : Uint256
  outMsgRootHash : Uint256
deriving DecidableEq

section
variable (c : Crypto)

/-- the rules for a block with two parents -/
def validateMergeParents (header parent p2 : BlockHeader) : Except BlocksError Unit :=
  if header.prevRefHash ≠ parent.blockHash c ∨ header.prevRefHash2 ≠ p2.blockHash c then
    .error .unresolvableParent
  else
    let maxParentSeq := max parent.seqNo.toNat p2.seqNo.toNat
    if header.seqNo.toNat ≠ maxParentSeq + 1 then
      .error (.sequenceDiscontinuity (BitVec.ofNat 32 maxParentSeq + 1) header.seqNo)
    else if header.genUtime.toNat < parent.genUtime.toNat
        ∨ header.genUtime.toNat < p2.genUtime.toNat then
      .error .nonMonotonicTime
    else if header.startLt.toNat < parent.endLt.toNat ∨ header.startLt.toNat < p2.endLt.toNat
        ∨ header.startLt.toNat > header.endLt.toNat then
      .error .nonMonotonicTime
    else .ok ()

/-- the rules for a block with one parent -/
def validateSingleParent (header parent : BlockHeader) : Except BlocksError Unit :=
  if header.prevRefHash ≠ parent.blockHash c then .error .unresolvableParent
  else if header.seqNo.toNat ≠ parent.seqNo.toNat + 1 then
    .error (.sequenceDiscontinuity (parent.seqNo + 1) header.seqNo)
  else if header.genUtime.toNat < parent.genUtime.toNat then .error .nonMonotonicTime
  else if header.startLt.toNat < parent.endLt.toNat
      ∨ header.startLt.toNat > header.endLt.toNat then
    .error .nonMonotonicTime
  else .ok ()

def validateParents (header parent : BlockHeader) (parent2 : Option BlockHeader) :
    Except BlocksError Unit :=
  if isMergeResult header.flags then
    match parent2 with
    | none => .error .unresolvableParent
    | some p2 => validateMergeParents c header parent p2
  else validateSingleParent c header parent

/-- the parent closed its shard with a split or a merge -/
def committed (parent : BlockHeader) : Bool :=
  isSplitCommit parent.flags || isMergeCommit parent.flags

def validateBlockSuccessor (header parent : BlockHeader) (parent2 : Option BlockHeader)
    (recomputed : RecomputedRoots) : Except BlocksError Unit :=
  match validateFlags header.flags with
  | .error e => .error e
  | .ok () =>
    match validateParents c header parent parent2 with
    | .error e => .error e
    | .ok () =>
      if header.stateRootHash ≠ recomputed.stateRootHash
          ∨ header.inMsgRootHash ≠ recomputed.inMsgRootHash
          ∨ header.outMsgRootHash ≠ recomputed.outMsgRootHash then
        .error .stateRootMismatch
      else if committed parent then .error .invalidSuccessorAfterCommit
      else if (parent2.map committed).getD false then .error .invalidSuccessorAfterCommit
      else .ok ()

/-! ## what the checks demand -/

/-- the times of a header do not lie before the end of a parent -/
structure NotBefore (header parent : BlockHeader) : Prop where
  genUtime : parent.genUtime.toNat ≤ header.genUtime.toNat
  startLt : parent.endLt.toNat ≤ header.startLt.toNat

theorem validateSingleParent_iff {header parent : BlockHeader} :
    validateSingleParent c header parent = .ok () ↔
      header.prevRefHash = parent.blockHash c ∧ header.seqNo.toNat = parent.seqNo.toNat + 1
        ∧ NotBefore header parent ∧ header.startLt.toNat ≤ header.endLt.toNat := by
  unfold validateSingleParent
  split_ifs with hhash hseq htime hlt
  · exact iff_of_false (by simp) (fun h => hhash h.1)
  · exact iff_of_false (by simp) (fun h => hseq h.2.1)
  · exact iff_of_false (by simp) (fun h => absurd h.2.2.1.genUtime (by omega))
  · refine iff_of_false (by simp) (fun h => ?_)
    have := h.2.2.1.startLt
    omega
  · push Not at hhash hseq
    exact iff_of_true rfl ⟨hhash, hseq, ⟨by omega, by omega⟩, by omega⟩

theorem validateMergeParents_iff {header parent p2 : BlockHeader} :
    validateMergeParents c header parent p2 = .ok () ↔
      (header.prevRefHash = parent.blockHash c ∧ header.prevRefHash2 = p2.blockHash c)
        ∧ header.seqNo.toNat = max parent.seqNo.toNat p2.seqNo.toNat + 1
        ∧ (NotBefore header parent ∧ NotBefore header p2)
        ∧ header.startLt.toNat ≤ header.endLt.toNat := by
  unfold validateMergeParents
  dsimp only
  split_ifs with hhash hseq htime hlt
  · exact iff_of_false (by simp) (fun h => hhash.elim (absurd h.1.1) (absurd h.1.2))
  · exact iff_of_false (by simp) (fun h => hseq h.2.1)
  · refine iff_of_false (by simp) (fun h => ?_)
    have h1 := h.2.2.1.1.genUtime
    have h2 := h.2.2.1.2.genUtime
    omega
  · refine iff_of_false (by simp) (fun h => ?_)
    have h1 := h.2.2.1.1.startLt
    have h2 := h.2.2.1.2.startLt
    omega
  · push Not at hhash hseq
    exact iff_of_true rfl
      ⟨hhash, hseq, ⟨⟨by omega, by omega⟩, ⟨by omega, by omega⟩⟩, by omega⟩

/-- the block names its parents and comes after them -/
def Continues (header parent : BlockHeader) (parent2 : Option BlockHeader) : Prop :=
  if isMergeResult header.flags then
    ∃ p2, parent2 = some p2
      ∧ (header.prevRefHash = parent.blockHash c ∧ header.prevRefHash2 = p2.blockHash c)
      ∧ header.seqNo.toNat = max parent.seqNo.toNat p2.seqNo.toNat + 1
      ∧ (NotBefore header parent ∧ NotBefore header p2)
      ∧ header.startLt.toNat ≤ header.endLt.toNat
  else
    header.prevRefHash = parent.blockHash c ∧ header.seqNo.toNat = parent.seqNo.toNat + 1
      ∧ NotBefore header parent ∧ header.startLt.toNat ≤ header.endLt.toNat

theorem validateParents_iff {header parent : BlockHeader} {parent2 : Option BlockHeader} :
    validateParents c header parent parent2 = .ok () ↔ Continues c header parent parent2 := by
  unfold validateParents Continues
  split_ifs with hmerge
  · cases parent2 with
    | none => simp
    | some p2 => simp [validateMergeParents_iff]
  · exact validateSingleParent_iff c

theorem validateParents_ok {header parent : BlockHeader} {parent2 : Option BlockHeader}
    (h : validateParents c header parent parent2 = .ok ()) :
    header.prevRefHash = parent.blockHash c ∧ parent.seqNo.toNat < header.seqNo.toNat := by
  rw [validateParents_iff] at h
  unfold Continues at h
  split_ifs at h with hmerge
  · obtain ⟨p2, _, hhash, hseq, _⟩ := h
    exact ⟨hhash.1, by omega⟩
  · exact ⟨h.1, by omega⟩

/-- every rule of a successor but the one on committed parents -/
structure OtherRules (header parent : BlockHeader) (parent2 : Option BlockHeader)
    (recomputed : RecomputedRoots) : Prop where
  flags : validateFlags header.flags = .ok ()
  parents : Continues c header parent parent2
  roots : header.stateRootHash = recomputed.stateRootHash
    ∧ header.inMsgRootHash = recomputed.inMsgRootHash
    ∧ header.outMsgRootHash = recomputed.outMsgRootHash

/-- one of the parents that were passed closed its shard -/
def anyCommitted (parent : BlockHeader) (parent2 : Option BlockHeader) : Bool :=
  committed parent || (parent2.map committed).getD false

/-- **A successor is accepted exactly when the other rules hold and no parent is committed.** -/
theorem validateBlockSuccessor_iff {header parent : BlockHeader} {parent2 : Option BlockHeader}
    {recomputed : RecomputedRoots} :
    validateBlockSuccessor c header parent parent2 recomputed = .ok () ↔
      OtherRules c header parent parent2 recomputed ∧ anyCommitted parent parent2 = false := by
  unfold validateBlockSuccessor
  cases hflags : validateFlags header.flags with
  | error e =>
    refine iff_of_false (by simp) (fun h => ?_)
    have := h.1.flags
    rw [hflags] at this
    cases this
  | ok u =>
    cases hpar : validateParents c header parent parent2 with
    | error e =>
      refine iff_of_false (by simp) (fun h => ?_)
      have := (validateParents_iff c).mpr h.1.parents
      rw [hpar] at this
      cases this
    | ok u =>
      have hcont := (validateParents_iff c).mp hpar
      dsimp only
      split_ifs with hroots hcom hcom2
      · refine iff_of_false (by simp) (fun h => ?_)
        obtain ⟨h1, h2, h3⟩ := h.1.roots
        rcases hroots with hr | hr | hr
        · exact hr h1
        · exact hr h2
        · exact hr h3
      · refine iff_of_false (by simp) (fun h => ?_)
        have := h.2
        simp [anyCommitted, hcom] at this
      · refine iff_of_false (by simp) (fun h => ?_)
        have := h.2
        simp [anyCommitted, hcom2] at this
      · push Not at hroots
        refine iff_of_true rfl ⟨⟨hflags, hcont, hroots⟩, ?_⟩
        rw [anyCommitted, Bool.or_eq_false_iff]
        exact ⟨by simpa using hcom, by simpa using hcom2⟩

/-- an accepted successor names its parent by hash and comes after it -/
theorem validateBlockSuccessor_ok {header parent : BlockHeader} {parent2 : Option BlockHeader}
    {recomputed : RecomputedRoots}
    (h : validateBlockSuccessor c header parent parent2 recomputed = .ok ()) :
    header.prevRefHash = parent.blockHash c ∧ parent.seqNo.toNat < header.seqNo.toNat
      ∧ header.stateRootHash = recomputed.stateRootHash ∧ committed parent = false := by
  obtain ⟨hrules, hopen⟩ := (validateBlockSuccessor_iff c).mp h
  have hp := validateParents_ok c ((validateParents_iff c).mpr hrules.parents)
  rw [anyCommitted, Bool.or_eq_false_iff] at hopen
  exact ⟨hp.1, hp.2, hrules.roots.1, hopen.1⟩

end

end Onx.Blocks
