import Onx.DataStructures.Block
import Onx.Sharding.Partition

/-!
# The commitment to the shard tree

The hash of a node covers its shard and the hashes of its children, and not the loads of its leaves.  For
trees that `split_leaf` made it is a commitment to the active shards.

* `hash_bare`           the loads are not committed to;
* `bare_of_hash`        one hash, one tree up to the loads, or a SHA-256 collision between their nodes;
* `countP_leaves`       the leaves of a grown tree hold each address of its shard once;
* `bare_of_leaves`      a grown tree is determined by its leaves, in whatever order;
* `shard_tree_commits`  **equal hashes, equal active shards**, and no block has such a hash.
-/

namespace Onx.Sharding

namespace ShardTreeNode

def DOMAIN_TAG : DomainTag := BLOCK_HEADER_V1

def shard : ShardTreeNode → ShardIdent
  | .leaf shard _ _ => shard
  | .internal shard _ _ => shard

def hash (c : Crypto) : ShardTreeNode → Uint256
  | .leaf shard _ _ => domainHash c DOMAIN_TAG (0x00 :: shard.toBytes)
  | .internal shard left right =>
    domainHash c DOMAIN_TAG (0x01 :: (shard.toBytes ++ encodeWord 32 (left.hash c) ++ encodeWord 32 (right.hash c)))

/-- the bytes a node is the hash of -/
def preimage (c : Crypto) : ShardTreeNode → Bytes
  | .leaf shard _ _ => 0x00 :: shard.toBytes
  | .internal shard left right =>
    0x01 :: (shard.toBytes ++ encodeWord 32 (left.hash c) ++ encodeWord 32 (right.hash c))

theorem hash_eq (c : Crypto) (t : ShardTreeNode) : t.hash c = domainHash c DOMAIN_TAG (t.preimage c) := by
  cases t <;> rfl

/-- the preimages of the node and of all below it -/
def preimages (c : Crypto) : ShardTreeNode → List Bytes
  | .leaf shard bytes gas => [preimage c (.leaf shard bytes gas)]
  | .internal shard left right =>
    preimage c (.internal shard left right) :: (left.preimages c ++ right.preimages c)

theorem preimage_mem (c : Crypto) (t : ShardTreeNode) : t.preimage c ∈ t.preimages c := by
  cases t <;> exact List.mem_cons_self

/-- the tree without loads -/
def bare : ShardTreeNode → ShardTreeNode
  | .leaf shard _ _ => newLeaf shard
  | .internal shard left right => .internal shard left.bare right.bare

/-- the active shards -/
def leaves : ShardTreeNode → List ShardIdent
  | .leaf shard _ _ => [shard]
  | .internal _ left right => left.leaves ++ right.leaves

theorem hash_bare (c : Crypto) (t : ShardTreeNode) : t.bare.hash c = t.hash c := by
  induction t with
  | leaf shard bytes gas => rfl
  | internal shard left right ihl ihr =>
    unfold bare hash
    rw [ihl, ihr]

/-- no two of the byte strings collide -/
def Apart (c : Crypto) (xs : List Bytes) : Prop := Set.InjOn (domainHash c DOMAIN_TAG) {x | x ∈ xs}

theorem apart_iff {c : Crypto} {xs : List Bytes} :
    Apart c xs ↔ ∀ x ∈ xs, ∀ y ∈ xs, domainHash c DOMAIN_TAG x = domainHash c DOMAIN_TAG y → x = y :=
  ⟨fun h _ hx _ hy => h hx hy, fun h x hx y hy => h x hx y hy⟩

theorem Apart.mono {c : Crypto} {xs ys : List Bytes} (h : Apart c ys) (hsub : xs ⊆ ys) : Apart c xs :=
  Set.InjOn.mono (fun _ hx => hsub hx) h

section
variable {c : Crypto}

/-- **One hash, one tree** up to the loads. -/
theorem bare_of_hash : ∀ {t t' : ShardTreeNode}, Apart c (t.preimages c ++ t'.preimages c) →
    t.hash c = t'.hash c → t.bare = t'.bare := by
  intro t
  induction t with
  | leaf shard bytes gas =>
    intro t' hinj h
    rw [hash_eq, hash_eq] at h
    have hpre := hinj (List.mem_append_left _ (preimage_mem c _)) (List.mem_append_right _ (preimage_mem c _)) h
    cases t' with
    | leaf shard' bytes' gas' =>
      have hshard : shard = shard' := ShardIdent.toBytes_inj (List.cons.inj hpre).2
      rw [hshard]
      rfl
    | internal shard' left' right' => exact absurd (List.cons.inj hpre).1 (by decide)
  | internal shard left right ihl ihr =>
    intro t' hinj h
    rw [hash_eq, hash_eq] at h
    have hpre := hinj (List.mem_append_left _ (preimage_mem c _)) (List.mem_append_right _ (preimage_mem c _)) h
    cases t' with
    | leaf shard' bytes' gas' => exact absurd (List.cons.inj hpre).1 (by decide)
    | internal shard' left' right' =>
      obtain ⟨hrest, hright⟩ := append_inj_be (by simp) (List.cons.inj hpre).2
      obtain ⟨hshard, hleft⟩ := append_inj_be (by simp) hrest
      have hsub : Apart c ((left.preimages c ++ left'.preimages c) ++ (right.preimages c ++ right'.preimages c)) := by
        refine hinj.mono fun x hx => ?_
        simp only [preimages, List.mem_append, List.mem_cons] at hx ⊢
        tauto
      have hl := ihl (hsub.mono (List.subset_append_left _ _)) (encodeWord_inj (n := 32) rfl hleft)
      have hr := ihr (hsub.mono (List.subset_append_right _ _)) (encodeWord_inj (n := 32) rfl hright)
      unfold bare
      rw [ShardIdent.toBytes_inj hshard, hl, hr]

end

/-! ## trees that grow by splits -/

/-- each inner node was a leaf that `split_leaf` split, whatever became of its children -/
inductive Grown : ShardTreeNode → Prop where
  | leaf (shard : ShardIdent) (bytes gas : Uint64) : Grown (.leaf shard bytes gas)
  | split (bytes gas : Uint64) {shard : ShardIdent} {l r left right : ShardTreeNode} :
    splitLeaf (.leaf shard bytes gas) = .ok (.internal shard l r) →
    left.shard = l.shard → right.shard = r.shard → Grown left → Grown right →
    Grown (.internal shard left right)

/-- an inner node and its children, by their prefixes -/
theorem Grown.children {shard : ShardIdent} {left right : ShardTreeNode} (h : Grown (.internal shard left right)) :
    ∃ w p, p.len < 60 ∧ shard = .ofPrefix w p ∧ left.shard = .ofPrefix w (p.child false)
      ∧ right.shard = .ofPrefix w (p.child true) ∧ left.Grown ∧ right.Grown := by
  cases h with
  | split bytes gas hsplit hl hr hleft hright =>
    have hleaf : splitLeaf (newLeaf shard) = .ok (.internal shard _ _) := hsplit
    obtain ⟨p, hlen, hshard⟩ := splitLeaf_ok hleaf
    rw [hshard, splitLeaf_ofPrefix hlen] at hleaf
    cases hleaf
    exact ⟨_, p, hlen, hshard, hl, hr, hleft, hright⟩

end ShardTreeNode

/-- the address belongs to the shard -/
def holds (a : FullAddress) (s : ShardIdent) : Bool :=
  match s.validateFullAddress a with
  | .ok () => true
  | .error _ => false

section
variable {w : WorkchainIdent} {p : BitPrefix}

theorem holds_ofPrefix (hlen : p.len ≤ 60) (a : FullAddress) :
    holds a (.ofPrefix w p) = (decide (a.workchainId = w) && covered p a.accountId) := by
  unfold holds
  by_cases hw : a.workchainId = w
  · have hsame : (ShardIdent.ofPrefix w p).validateFullAddress a
        = (ShardIdent.ofPrefix w p).validateAccountId a.accountId := if_neg (not_not.mpr hw.symm)
    rw [hsame, decide_eq_true hw]
    unfold ShardIdent.validateAccountId
    rw [containsAccount_covered hlen]
    cases covered p a.accountId <;> rfl
  · have hother : (ShardIdent.ofPrefix w p).validateFullAddress a = .error .addressShardMismatch :=
      if_pos (Ne.symm hw)
    rw [hother, decide_eq_false hw]
    rfl

theorem holds_children (hlen : p.len < 60) (a : FullAddress) :
    (holds a (.ofPrefix w (p.child false))).toNat + (holds a (.ofPrefix w (p.child true))).toNat
      = (holds a (.ofPrefix w p)).toNat := by
  have hchild : ∀ b, (p.child b).len ≤ 60 := fun b => hlen
  have hsum := covered_children p hlen false a.accountId
  rw [holds_ofPrefix (hchild false), holds_ofPrefix (hchild true), holds_ofPrefix hlen.le]
  cases decide (a.workchainId = w) with
  | false => rfl
  | true => exact hsum

/-- shards that hold the same addresses are equal -/
theorem ofPrefix_of_holds {w' : WorkchainIdent} {q : BitPrefix} (hp : p.len ≤ 60) (hq : q.len ≤ 60)
    (h : ∀ a, holds a (.ofPrefix w p) = holds a (.ofPrefix w' q)) : w = w' ∧ p = q := by
  have hword : ∀ x < 2^256, ∀ v, (v = w ∧ p.covers 256 x) ↔ (v = w' ∧ q.covers 256 x) := by
    intro x hx v
    have ha := h ⟨v, ⟨BitVec.ofNatLT x hx⟩⟩
    rw [holds_ofPrefix hp, holds_ofPrefix hq, Bool.eq_iff_iff] at ha
    simpa [covered] using ha
  have hw : w = w' := by
    obtain ⟨hfirst, _⟩ := BitPrefix.covers_ends (w := 256) p
    exact ((hword _ (p.first_lt (by omega)) w).mp ⟨rfl, hfirst⟩).1
  refine ⟨hw, BitPrefix.covers_inj (w := 256) (by omega) (by omega) fun x hx => ?_⟩
  have hx := hword x hx w
  simpa [hw] using hx

/-- a shard with a prefix holds some address -/
theorem exists_holds (hlen : p.len ≤ 60) : ∃ a, holds a (.ofPrefix w p) = true := by
  obtain ⟨hfirst, _⟩ := BitPrefix.covers_ends (w := 256) p
  have hlt : p.bits * 2^(256 - p.len) < 2^256 := p.first_lt (by omega)
  refine ⟨⟨w, ⟨BitVec.ofNatLT _ hlt⟩⟩, ?_⟩
  rw [holds_ofPrefix hlen]
  simpa [covered] using hfirst

end

namespace ShardTreeNode

/-- **The leaves of a grown tree hold each address of its shard once,** and no other one. -/
theorem countP_leaves {t : ShardTreeNode} (h : t.Grown) (a : FullAddress) :
    t.leaves.countP (holds a) = (holds a t.shard).toNat := by
  induction t with
  | leaf shard bytes gas =>
    show [shard].countP (holds a) = (holds a shard).toNat
    rw [List.countP_singleton]
    cases holds a shard <;> rfl
  | internal shard left right ihl ihr =>
    obtain ⟨w, p, hlen, rfl, hl, hr, hleft, hright⟩ := h.children
    show (left.leaves ++ right.leaves).countP (holds a) = (holds a (.ofPrefix w p)).toNat
    rw [List.countP_append, ihl hleft, ihr hright, hl, hr, holds_children hlen]

theorem leaves_ne_nil (t : ShardTreeNode) : t.leaves ≠ [] := by
  induction t with
  | leaf shard bytes gas => exact List.cons_ne_nil _ _
  | internal shard left right ihl _ => exact fun h => ihl (List.append_eq_nil_iff.mp h).1

/-- a leaf holds nothing that the shard of the tree does not hold -/
theorem holds_of_leaf {t : ShardTreeNode} (h : t.Grown) {s : ShardIdent} (hs : s ∈ t.leaves) {a : FullAddress}
    (ha : holds a s = true) : holds a t.shard = true := by
  have hcount := countP_leaves h a
  have hpos : 0 < t.leaves.countP (holds a) := List.countP_pos_iff.mpr ⟨s, hs, ha⟩
  cases hshard : holds a t.shard with
  | true => rfl
  | false =>
    rw [hshard] at hcount
    exact absurd hcount hpos.ne'

/-- a leaf below a prefix has a prefix itself -/
theorem leaf_prefix {t : ShardTreeNode} (h : t.Grown) {w : WorkchainIdent} {p : BitPrefix} (hlen : p.len ≤ 60)
    (ht : t.shard = .ofPrefix w p) {s : ShardIdent} (hs : s ∈ t.leaves) :
    ∃ q : BitPrefix, q.len ≤ 60 ∧ s = .ofPrefix w q := by
  induction t generalizing p with
  | leaf shard bytes gas =>
    rw [List.mem_singleton.mp hs]
    exact ⟨p, hlen, ht⟩
  | internal shard left right ihl ihr =>
    obtain ⟨v, q, hq, hshard, hl, hr, hleft, hright⟩ := h.children
    have hv : v = w := congrArg ShardIdent.workchainId (hshard.symm.trans ht)
    rw [hv] at hl hr
    rcases List.mem_append.mp hs with hmem | hmem
    · exact ihl hleft (p := q.child false) hq hl hmem
    · exact ihr hright (p := q.child true) hq hr hmem

section
variable {w : WorkchainIdent} {p : BitPrefix} {left right : ShardTreeNode}

/-- a leaf is on one side -/
theorem leaf_side (hlen : p.len < 60) (hl : left.shard = .ofPrefix w (p.child false))
    (hr : right.shard = .ofPrefix w (p.child true)) (hleft : left.Grown) (hright : right.Grown) {s : ShardIdent}
    (hs : s ∈ left.leaves) : s ∉ right.leaves := by
  intro hs'
  obtain ⟨q, hq, rfl⟩ := leaf_prefix hleft (p := p.child false) hlen hl hs
  obtain ⟨a, ha⟩ := exists_holds (w := w) hq
  have hone := holds_children (w := w) hlen a
  rw [← hl, ← hr, holds_of_leaf hleft hs ha, holds_of_leaf hright hs' ha] at hone
  have hle := Bool.toNat_le (holds a (.ofPrefix w p))
  rw [← hone] at hle
  exact absurd hle (by decide)

theorem mem_left (hlen : p.len < 60) (hl : left.shard = .ofPrefix w (p.child false))
    (hr : right.shard = .ofPrefix w (p.child true)) (hleft : left.Grown) (hright : right.Grown) {s : ShardIdent}
    {ss : List ShardIdent} (hs : s ∈ left.leaves) (hmem : s ∈ ss ++ right.leaves) : s ∈ ss :=
  (List.mem_append.mp hmem).resolve_right (leaf_side hlen hl hr hleft hright hs)

theorem mem_right (hlen : p.len < 60) (hl : left.shard = .ofPrefix w (p.child false))
    (hr : right.shard = .ofPrefix w (p.child true)) (hleft : left.Grown) (hright : right.Grown) {s : ShardIdent}
    {ss : List ShardIdent} (hs : s ∈ right.leaves) (hmem : s ∈ left.leaves ++ ss) : s ∈ ss :=
  (List.mem_append.mp hmem).resolve_left fun hs' => leaf_side hlen hl hr hleft hright hs' hs

end

/-- the shard of a grown tree is known from its leaves -/
theorem holds_shard_of_leaves {t t' : ShardTreeNode} (h : t.Grown) (h' : t'.Grown)
    (hleaves : ∀ s ∈ t.leaves, s ∈ t'.leaves) {a : FullAddress} (ha : holds a t.shard = true) :
    holds a t'.shard = true := by
  have hcount := countP_leaves h a
  rw [ha] at hcount
  have hpos : 0 < t.leaves.countP (holds a) := hcount ▸ Nat.one_pos
  obtain ⟨s, hs, hsa⟩ := List.countP_pos_iff.mp hpos
  exact holds_of_leaf h' (hleaves s hs) hsa

/-- an inner node has two leaves at least -/
theorem not_one_leaf {shard s : ShardIdent} {left right : ShardTreeNode} (h : (internal shard left right).Grown)
    (hall : ∀ x ∈ (internal shard left right).leaves, x = s) : False := by
  obtain ⟨w, p, hlen, _, hl, hr, hleft, hright⟩ := h.children
  obtain ⟨x, hx⟩ := List.exists_mem_of_ne_nil _ left.leaves_ne_nil
  obtain ⟨y, hy⟩ := List.exists_mem_of_ne_nil _ right.leaves_ne_nil
  have hxy : x = y := (hall x (List.mem_append_left _ hx)).trans (hall y (List.mem_append_right _ hy)).symm
  exact leaf_side hlen hl hr hleft hright hx (hxy ▸ hy)

/-- **A grown tree is determined by its leaves.** -/
theorem bare_of_leaves : ∀ {t t' : ShardTreeNode}, t.Grown → t'.Grown →
    (∀ s, s ∈ t.leaves ↔ s ∈ t'.leaves) → t.bare = t'.bare := by
  intro t
  induction t with
  | leaf shard bytes gas =>
    intro t' h h' hleaves
    cases t' with
    | leaf shard' bytes' gas' =>
      have hshard : shard = shard' := List.mem_singleton.mp ((hleaves shard).mp List.mem_cons_self)
      rw [hshard]
      rfl
    | internal shard' left' right' =>
      exact (not_one_leaf h' fun x hx => List.mem_singleton.mp ((hleaves x).mpr hx)).elim
  | internal shard left right ihl ihr =>
    intro t' h h' hleaves
    cases t' with
    | leaf shard' bytes' gas' =>
      exact (not_one_leaf h fun x hx => List.mem_singleton.mp ((hleaves x).mp hx)).elim
    | internal shard' left' right' =>
      -- both have the same shard, and a leaf is on the same side of both
      have hshard : ∀ a, holds a shard = holds a shard' := by
        intro a
        rw [Bool.eq_iff_iff]
        exact ⟨holds_shard_of_leaves h h' fun s => (hleaves s).mp, holds_shard_of_leaves h' h fun s => (hleaves s).mpr⟩
      obtain ⟨w, p, hlen, rfl, hl, hr, hleft, hright⟩ := h.children
      obtain ⟨w', p', hlen', rfl, hl', hr', hleft', hright'⟩ := h'.children
      obtain ⟨rfl, rfl⟩ := ofPrefix_of_holds hlen.le hlen'.le hshard
      have hsideLeft : ∀ s, s ∈ left.leaves ↔ s ∈ left'.leaves := fun s =>
        ⟨fun hs => mem_left hlen hl hr' hleft hright' hs ((hleaves s).mp (List.mem_append_left _ hs)),
          fun hs => mem_left hlen hl' hr hleft' hright hs ((hleaves s).mpr (List.mem_append_left _ hs))⟩
      have hsideRight : ∀ s, s ∈ right.leaves ↔ s ∈ right'.leaves := fun s =>
        ⟨fun hs => mem_right hlen hl' hr hleft' hright hs ((hleaves s).mp (List.mem_append_right _ hs)),
          fun hs => mem_right hlen hl hr' hleft hright' hs ((hleaves s).mpr (List.mem_append_right _ hs))⟩
      unfold bare
      rw [ihl hleft hleft' hsideLeft, ihr hright hright' hsideRight]

theorem leaves_bare (t : ShardTreeNode) : t.bare.leaves = t.leaves := by
  induction t with
  | leaf shard bytes gas => rfl
  | internal shard left right ihl ihr =>
    unfold bare leaves
    rw [ihl, ihr]

/-! ## what the hash says -/

theorem length_preimage_le (c : Crypto) (t : ShardTreeNode) : (t.preimage c).length ≤ 77 := by
  cases t <;> simp [preimage]

/-- **The hash of a shard tree commits to the active shards.** The leaves of a tree that grew by splits hold
each address of its shard once, trees with one hash have the same leaves, and no block has such a hash,
although block hashes are made with the same tag. -/
theorem shard_tree_commits (c : Crypto) {t t' : ShardTreeNode} (h : t.Grown) (h' : t'.Grown)
    (hapart : Apart c (t.preimages c ++ t'.preimages c)) :
    (t.hash c = t'.hash c ↔ ∀ s, s ∈ t.leaves ↔ s ∈ t'.leaves)
    ∧ (∀ a, t.leaves.countP (holds a) = (holds a t.shard).toNat)
    ∧ ∀ header : BlockHeader, Apart c (header.toBytes :: t.preimages c) → header.blockHash c ≠ t.hash c := by
  refine ⟨⟨fun heq s => ?_, fun hleaves => ?_⟩, countP_leaves h, fun header hother heq => ?_⟩
  · rw [← leaves_bare t, ← leaves_bare t', bare_of_hash hapart heq]
  · rw [← hash_bare c t, ← hash_bare c t', bare_of_leaves h h' hleaves]
  · -- a header is longer than a node
    rw [hash_eq] at heq
    have hbytes := hother List.mem_cons_self (List.mem_cons_of_mem _ (preimage_mem c t)) heq
    have hlen := t.length_preimage_le c
    rw [← hbytes, BlockHeader.length_toBytes] at hlen
    exact absurd hlen (by decide)

/-- the root of a workchain, split, and its left child split again -/
def sampleTree (bytes gas : Uint64) : ShardTreeNode :=
  .internal (.root .BASIC)
    (.internal (.ofPrefix .BASIC (BitPrefix.root.child false))
      (.leaf (.ofPrefix .BASIC ((BitPrefix.root.child false).child false)) bytes gas)
      (newLeaf (.ofPrefix .BASIC ((BitPrefix.root.child false).child true))))
    (newLeaf (.ofPrefix .BASIC (BitPrefix.root.child true)))

theorem grown_sampleTree (bytes gas : Uint64) : (sampleTree bytes gas).Grown :=
  .split 0 0 (splitLeaf_ofPrefix (w := .BASIC) (p := BitPrefix.root) (by decide)) rfl rfl
    (.split 0 0 (splitLeaf_ofPrefix (w := .BASIC) (p := BitPrefix.root.child false) (by decide)) rfl rfl
      (.leaf _ _ _) (.leaf _ _ _)) (.leaf _ _ _)

theorem shard_tree_commits_sample :
    (sampleTree 0 0).hash sampleCrypto = (sampleTree 7 9).hash sampleCrypto := by
  have hapart : Apart sampleCrypto ((sampleTree 0 0).preimages sampleCrypto
      ++ (sampleTree 7 9).preimages sampleCrypto) :=
    apart_iff.mpr (by decide +kernel)
  exact (shard_tree_commits sampleCrypto (grown_sampleTree 0 0) (grown_sampleTree 7 9) hapart).1.mpr fun s => Iff.rfl

end ShardTreeNode

end Onx.Sharding
