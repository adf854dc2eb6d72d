import Onx.Blocks.Sync

/-!
# Blocks after a committed split or merge

A `SPLIT_COMMIT` block is the last of its shard and is followed by blocks of its two children; a
`MERGE_COMMIT` block is followed by the merge result.  `forbiddenAfterCommit` is the rule of
malformed input for these flags, `SplitMergeRule` says that the successor check follows it.

* `split_merge_rule_iff`   the check follows the rule exactly where it forbids whatever names a
                           committed parent;
* `merge_never_completes`  a merge result of two committed siblings is refused.
-/

namespace Onx.Blocks

/-- the blocks that may not follow a committed parent: another block of a shard that split, and a
block with the last block of a merging shard as its sole parent -/
def forbiddenAfterCommit (header parent : BlockHeader) : Bool :=
  !isMergeResult header.flags &&
    (isMergeCommit parent.flags
      || isSplitCommit parent.flags && decide (header.shard = parent.shard))

/-- where the other rules hold, the check refuses the forbidden blocks and accepts the rest -/
def SplitMergeRule (c : Crypto) (header parent : BlockHeader) (parent2 : Option BlockHeader)
    (recomputed : RecomputedRoots) : Prop :=
  OtherRules c header parent parent2 recomputed →
    (validateBlockSuccessor c header parent parent2 recomputed = .ok ()
      ↔ forbiddenAfterCommit header parent = false)

theorem committed_of_forbidden {header parent : BlockHeader} {parent2 : Option BlockHeader}
    (h : forbiddenAfterCommit header parent = true) : anyCommitted parent parent2 = true := by
  unfold forbiddenAfterCommit at h
  rw [Bool.and_eq_true, Bool.or_eq_true, Bool.and_eq_true] at h
  unfold anyCommitted committed
  rcases h.2 with hm | hs
  · simp [hm]
  · simp [hs.1]

/-- **The check follows the rule exactly when no parent is committed or the block is forbidden**:
every block of a child shard and every merge result of committed parents is refused. -/
theorem split_merge_rule_iff (c : Crypto) (header parent : BlockHeader)
    (parent2 : Option BlockHeader) (recomputed : RecomputedRoots) :
    SplitMergeRule c header parent parent2 recomputed ↔
      (OtherRules c header parent parent2 recomputed → anyCommitted parent parent2 = true →
        forbiddenAfterCommit header parent = true) := by
  unfold SplitMergeRule
  refine forall_congr' fun hrules => ?_
  rw [validateBlockSuccessor_iff, and_iff_right hrules]
  cases hcom : anyCommitted parent parent2 with
  | true => simp
  | false =>
    -- a block that is forbidden has a committed parent
    have hfree : forbiddenAfterCommit header parent = false := by
      cases hforb : forbiddenAfterCommit header parent with
      | false => rfl
      | true =>
        rw [committed_of_forbidden hforb] at hcom
        cases hcom
    simp [hfree]

/-! ## a merge -/

/-- the last block of one of two siblings that merge -/
def mergingHeader (shardPrefix : Uint64) : BlockHeader :=
  { sampleHeader WorkchainIdent.BASIC 0 0 with
    shard := ⟨WorkchainIdent.BASIC, shardPrefix⟩
    flags := MERGE_COMMIT }

/-- the first block of the merged shard -/
def mergedHeader : BlockHeader :=
  { sampleHeader WorkchainIdent.BASIC 1 ((mergingHeader 0x4000000000000000).blockHash sampleCrypto) with
    flags := MERGE_RESULT
    prevRefHash2 := (mergingHeader 0xC000000000000000).blockHash sampleCrypto }

/-- **A merge cannot be completed**: its result is refused. -/
theorem merge_never_completes : ¬ SplitMergeRule sampleCrypto mergedHeader
    (mergingHeader 0x4000000000000000) (some (mergingHeader 0xC000000000000000)) ⟨0, 0, 0⟩ := by
  have hcont : Continues sampleCrypto mergedHeader (mergingHeader 0x4000000000000000)
      (some (mergingHeader 0xC000000000000000)) := by
    unfold Continues
    rw [if_pos (by decide)]
    exact ⟨_, rfl, ⟨rfl, rfl⟩, by decide, ⟨⟨by decide, by decide⟩, by decide, by decide⟩, by decide⟩
  intro h
  have hok := (h ⟨by decide, hcont, by decide⟩).mpr (by decide)
  rw [validateBlockSuccessor_iff] at hok
  exact absurd hok.2 (by decide)

end Onx.Blocks
