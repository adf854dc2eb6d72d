import Onx.DataStructures.Shard

/-!
# The shard tree

Splitting a leaf of the shard tree into its two children, and the parent of two siblings.

* `splitLeaf_ofPrefix`, `splitLeaf_ok`   a leaf splits when its prefix is shorter than 60 bits, into
                                         the prefixes with one more bit;
* `commonParent_iff`                     two shards have a common parent exactly when they are its
                                         children, in either order.
-/

namespace Onx.Sharding

inductive ShardingError where
  | invalidShardPrefixLength
  | invalidMergeSiblings
  | accountOutsideShard
  | messageOutsideShard
deriving DecidableEq

inductive ShardTreeNode where
  | leaf (shard : ShardIdent) (blockBytesAvg gasUsedAvg : Uint64)
  | internal (shard : ShardIdent) (left right : ShardTreeNode)

namespace ShardTreeNode

def newLeaf (shard : ShardIdent) : ShardTreeNode := .leaf shard 0 0

def splitLeaf : ShardTreeNode → Except ShardingError ShardTreeNode
  | .leaf shard _ _ =>
    match shard.prefixLen with
    | .error _ => .error .invalidShardPrefixLength
    | .ok len =>
      if len ≥ 60 then .error .invalidShardPrefixLength
      else
        let baseIdent := shard.shardPrefixIdent
        let child0Ident := (baseIdent &&& ~~~((1 : Uint64) <<< (63 - len))) ||| (1 : Uint64) <<< (62 - len)
        let child1Ident := baseIdent ||| (1 : Uint64) <<< (63 - len) ||| (1 : Uint64) <<< (62 - len)
        .ok (.internal shard (newLeaf ⟨shard.workchainId, child0Ident⟩)
          (newLeaf ⟨shard.workchainId, child1Ident⟩))
  | .internal .. => .error .invalidShardPrefixLength

variable {w : WorkchainIdent} {p : BitPrefix}

theorem splitLeaf_ofPrefix (hlen : p.len < 60) :
    splitLeaf (newLeaf (.ofPrefix w p)) = .ok (.internal (.ofPrefix w p)
      (newLeaf (.ofPrefix w (p.child false))) (newLeaf (.ofPrefix w (p.child true)))) := by
  unfold splitLeaf newLeaf
  dsimp only
  rw [ShardIdent.prefixLen_ofPrefix hlen.le]
  dsimp only
  rw [if_neg (by omega)]
  have h0 := BitPrefix.marked_child_false (w:=64) (p:=p) (by omega)
  have h1 := BitPrefix.marked_child_true (w:=64) (p:=p) (by omega)
  unfold ShardIdent.ofPrefix
  rw [← h0, ← h1]
  rfl

/-- a leaf that splits has a prefix shorter than 60 bits -/
theorem splitLeaf_ok {shard : ShardIdent} {t : ShardTreeNode}
    (h : splitLeaf (newLeaf shard) = .ok t) :
    ∃ p : BitPrefix, p.len < 60 ∧ shard = .ofPrefix shard.workchainId p := by
  unfold splitLeaf newLeaf at h
  dsimp only at h
  cases hlen : shard.prefixLen with
  | error e =>
    rw [hlen] at h
    cases h
  | ok len =>
    rw [hlen] at h
    dsimp only at h
    split_ifs at h with hge
    obtain ⟨p, rfl, _, hshard⟩ := ShardIdent.prefixLen_ok hlen
    exact ⟨p, by omega, hshard⟩

end ShardTreeNode

/-! ## siblings -/

def commonParent (first second : ShardIdent) : Except ShardingError ShardIdent :=
  match first.prefixLen with
  | .error _ => .error .invalidMergeSiblings
  | .ok length =>
    if length = 0 ∨ first.workchainId ≠ second.workchainId
        ∨ second.prefixLen.toOption ≠ some length then
      .error .invalidMergeSiblings
    else
      let childMask := (~~~0 : Uint64) <<< (64 - length)
      let differing := (first.shardPrefixIdent ^^^ second.shardPrefixIdent) &&& childMask
      if differing ≠ (1 : Uint64) <<< (64 - length) then .error .invalidMergeSiblings
      else
        match ShardIdent.fromPrefixBits first.workchainId first.shardPrefixIdent (length - 1) with
        | .error _ => .error .invalidMergeSiblings
        | .ok parent => .ok parent

variable {w : WorkchainIdent} {p : BitPrefix}

theorem commonParent_children (hlen : p.len < 60) (b : Bool) :
    commonParent (.ofPrefix w (p.child b)) (.ofPrefix w (p.child (!b))) = .ok (.ofPrefix w p) := by
  have hb : ∀ d, ShardIdent.prefixLen (.ofPrefix w (p.child d)) = .ok (p.len + 1) :=
    fun d => ShardIdent.prefixLen_ofPrefix (by rw [BitPrefix.child_len]; omega)
  have hsib := (BitPrefix.siblings_iff (w:=64) (p:=p.child b) (q:=p.child (!b)) rfl
    (by rw [BitPrefix.child_len]; omega) (by rw [BitPrefix.child_len]; omega)).mpr ⟨p, b, rfl, rfl⟩
  unfold commonParent
  rw [hb b, hb (!b)]
  dsimp only
  have hcond : ¬ (p.len + 1 = 0 ∨ (ShardIdent.ofPrefix w (p.child b)).workchainId
      ≠ (ShardIdent.ofPrefix w (p.child (!b))).workchainId
      ∨ (Except.ok (p.len + 1) : Except DataStructureError Nat).toOption ≠ some (p.len + 1)) := by
    rintro (h | h | h)
    · omega
    · exact h rfl
    · exact h rfl
  rw [if_neg hcond]
  refine (if_neg (not_not.mpr hsib)).trans ?_
  show (match ShardIdent.fromPrefixBits w (BitPrefix.marked 64 (p.child b)) p.len with
    | .error _ => Except.error ShardingError.invalidMergeSiblings
    | .ok parent => .ok parent) = _
  rw [ShardIdent.fromPrefixBits_ofPrefix hlen.le]

/-- **Two shards have a common parent exactly when they are its two children.** -/
theorem commonParent_iff {first second parent : ShardIdent} :
    commonParent first second = .ok parent ↔
      ∃ w p b, p.len < 60 ∧ first = .ofPrefix w (p.child b) ∧ second = .ofPrefix w (p.child (!b))
        ∧ parent = .ofPrefix w p := by
  constructor
  · intro h
    have hcopy := h
    unfold commonParent at h
    cases hlen : first.prefixLen with
    | error e =>
      rw [hlen] at h
      cases h
    | ok length =>
      rw [hlen] at h
      dsimp only at h
      split_ifs at h with hcond hdiff
      push Not at hcond hdiff
      obtain ⟨hpos, hwork, hsecond⟩ := hcond
      cases hlen2 : second.prefixLen with
      | error e =>
        rw [hlen2] at hsecond
        cases hsecond
      | ok length2 =>
        rw [hlen2] at hsecond
        have heq : length2 = length := by simpa [Except.toOption] using hsecond
        obtain ⟨p, hp, hp60, hfirst⟩ := ShardIdent.prefixLen_ok hlen
        obtain ⟨q, hq, hq60, hsec⟩ := ShardIdent.prefixLen_ok hlen2
        rw [hfirst, hsec, ← hp] at hdiff
        obtain ⟨r, b, rfl, rfl⟩ := (BitPrefix.siblings_iff (w:=64) (by omega) (by omega)
          (by omega)).mp hdiff
        rw [BitPrefix.child_len] at hp60
        rw [← hwork] at hsec
        refine ⟨first.workchainId, r, b, by omega, hfirst, hsec, ?_⟩
        rw [hfirst, hsec] at hcopy
        have hok := commonParent_children (w:=first.workchainId) (p:=r) (by omega) b
        have hboth := hcopy.symm.trans hok
        cases hboth
        rfl
  · rintro ⟨w, p, b, hlen, rfl, rfl, rfl⟩
    exact commonParent_children hlen b

end Onx.Sharding
