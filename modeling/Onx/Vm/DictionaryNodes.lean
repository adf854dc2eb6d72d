import Onx.Vm.Dictionary

/-!
# What the operations on nodes do

* `common_cases`                         two keys continue, or part at a bit;
* `lookup_split`, `lookup_merge`         the keys of an edge that is split, and of one that is merged;
* `getNode_eq`, `insertNode_spec`, `removeNode_spec`   no operation panics where the keys have the
                                         length of the bits, and one key has another value;
* `nodeCell_ok`, `exists_serialize`      every node of keys of up to 1023 bits has a cell.
-/

namespace Onx.Vm
open Machine

/-! ## ranges -/

theorem getElem?_append_length (s : List Bool) (x : Bool) (r : List Bool) :
    (s ++ x :: r)[s.length]? = some x := by
  rw [List.getElem?_append_right (le_refl _), Nat.sub_self]
  rfl

theorem sliceFrom_append (s : List Bool) (x : Bool) (r : List Bool) :
    sliceFrom (s ++ x :: r) (s.length + 1) = some r := by
  have hlen : s.length + 1 ≤ (s ++ x :: r).length := by
    rw [List.length_append, List.length_cons]
    omega
  unfold sliceFrom
  rw [if_pos hlen, List.append_cons, List.drop_left']
  rw [List.length_append, List.length_singleton]

theorem sliceTo_append (s r : List Bool) : sliceTo (s ++ r) s.length = some s := by
  unfold sliceTo
  rw [if_pos (by rw [List.length_append]; omega), List.take_left]

theorem common_cons (x : Bool) (a b : List Bool) : common (x :: a) (x :: b) = common a b + 1 := by
  simp [common]

/-- two keys: the first continues in the second, or they part at a bit -/
theorem common_cases {a b : List Bool} (h : a.length ≤ b.length) :
    (∃ rest, b = a ++ rest ∧ common a b = a.length)
    ∨ ∃ s x ra rb, a = s ++ x :: ra ∧ b = s ++ (!x) :: rb ∧ common a b = s.length := by
  induction a generalizing b with
  | nil => exact Or.inl ⟨b, rfl, rfl⟩
  | cons x a ih =>
    cases b with
    | nil => exact absurd h (Nat.not_succ_le_zero _)
    | cons y b =>
      by_cases hxy : y = x
      · subst hxy
        rw [common_cons]
        rcases ih (Nat.le_of_succ_le_succ h) with ⟨rest, hb, hn⟩ | ⟨s, x, ra, rb, ha, hb, hn⟩
        · exact Or.inl ⟨rest, congrArg _ hb, congrArg Nat.succ hn⟩
        · exact Or.inr ⟨y :: s, x, ra, rb, congrArg _ ha, congrArg _ hb, congrArg Nat.succ hn⟩
      · refine Or.inr ⟨[], x, a, b, rfl, ?_, ?_⟩
        · show y :: b = (!x) :: b
          rw [Bool.eq_not_of_ne hxy]
        · simp [common, Ne.symm hxy]

/-! ## edges -/

theorem lookup_prepend (label : List Bool) (edge : Bool) (t : Node) (key : List Bool) :
    (prepend label edge t).lookup key
      = (Patricia.strip (label ++ [edge]) key).bind t.lookup := by
  cases t with
  | leaf suffix value =>
    have hleaf : (Patricia.leaf suffix value).lookup
        = fun rest => (Patricia.strip suffix rest).bind (Patricia.leaf [] value).lookup := by
      funext rest
      exact Patricia.lookup_leaf_strip suffix value rest
    rw [hleaf, ← Option.bind_assoc, ← Patricia.strip_append_left]
    exact Patricia.lookup_leaf_strip _ value key
  | branch childLabel zero one =>
    have hbranch : (Patricia.branch childLabel zero one).lookup
        = fun rest => (Patricia.strip childLabel rest).bind
          (Patricia.onFirst fun b => (Patricia.child zero one b).lookup) := by
      funext rest
      exact Patricia.lookup_branch childLabel zero one rest
    rw [hbranch, ← Option.bind_assoc, ← Patricia.strip_append_left]
    exact Patricia.lookup_branch _ zero one key

theorem prepend_eq_leaf (s : List Bool) (x : Bool) (r : List Bool) (value : Cell) :
    prepend s x (.leaf r value) = .leaf (s ++ x :: r) value := by
  simp [prepend]

theorem prepend_eq_branch (s : List Bool) (x : Bool) (r : List Bool) (zero one : Node) :
    prepend s x (.branch r zero one) = .branch (s ++ x :: r) zero one := by
  simp [prepend]

/-- a node behind an edge has the keys that take the edge -/
theorem lookup_prepend_append (label : List Bool) (edge : Bool) (t : Node) (more : List Bool) :
    (prepend label edge t).lookup (label ++ more)
      = Patricia.onFirst (fun b rest => if b = edge then t.lookup rest else none) more := by
  rw [lookup_prepend, Patricia.strip_append_left, Patricia.strip_append, Option.bind_some]
  cases more with
  | nil => rfl
  | cons b rest =>
    show (if edge = b then some rest else none).bind t.lookup = if b = edge then t.lookup rest else none
    by_cases h : b = edge
    · rw [if_pos h, if_pos h.symm]
      rfl
    · rw [if_neg h, if_neg (Ne.symm h)]
      rfl

theorem prefix_of_lookup_prepend {label : List Bool} {edge : Bool} {t : Node} {key : List Bool}
    (h : (prepend label edge t).lookup key ≠ none) : label <+: key := by
  by_contra hno
  rw [lookup_prepend, Patricia.strip_append_left, Patricia.strip_eq_none hno] at h
  exact h rfl

theorem fits_prepend {label : List Bool} {edge : Bool} {t : Node} {m : Nat} (h : t.Fits m) :
    (prepend label edge t).Fits (label.length + 1 + m) := by
  cases t with
  | leaf suffix value =>
    have hlen : suffix.length = m := h
    show (label ++ [edge] ++ suffix).length = _
    rw [List.length_append, List.length_append, List.length_singleton, hlen]
  | branch childLabel zero one =>
    obtain ⟨hlt, hz, ho⟩ := h
    have hlen : (label ++ [edge] ++ childLabel).length = label.length + 1 + childLabel.length := by
      rw [List.length_append, List.length_append, List.length_singleton]
    have hm : label.length + 1 + m - (label.length + 1 + childLabel.length) - 1
        = m - childLabel.length - 1 := by omega
    refine ⟨?_, ?_, ?_⟩
    · rw [hlen]
      omega
    · rw [hlen, hm]
      exact hz
    · rw [hlen, hm]
      exact ho

/-- a new leaf next to a node behind an edge -/
theorem lookup_split (s : List Bool) (x : Bool) (old : Node) (rb : List Bool) (value : Cell)
    (key : List Bool) : (Patricia.fork s x old (.leaf rb value)).lookup key
      = if key = s ++ (!x) :: rb then some value else (prepend s x old).lookup key := by
  rw [Patricia.lookup_fork]
  by_cases hs : s <+: key
  · obtain ⟨more, rfl⟩ := hs
    rw [Patricia.strip_append, lookup_prepend_append, Option.bind_some]
    cases more with
    | nil => simp [Patricia.onFirst]
    | cons y rest =>
      show (if y = x then old else .leaf rb value).lookup rest
        = if s ++ y :: rest = s ++ (!x) :: rb then some value
          else if y = x then old.lookup rest else none
      by_cases hy : y = x
      · subst hy
        simp
      · have hnot : y = !x := Bool.eq_not_of_ne hy
        subst hnot
        simp [Patricia.lookup_leaf, eq_comm]
  · have hne : ¬ (key = s ++ (!x) :: rb) := by
      rintro rfl
      exact hs (List.prefix_append _ _)
    rw [Patricia.strip_eq_none hs, if_neg hne]
    by_contra h
    exact hs (prefix_of_lookup_prepend (Ne.symm h))

/-! ## nodes -/

section
variable {σ : Type}

theorem getNode_eq (t : Node) (bits : List Bool) (s : σ) :
    getNode t bits s = .ok (t.lookup bits) s := by
  induction t generalizing bits with
  | leaf suffix value => rfl
  | branch label zero one ihz iho =>
    unfold getNode
    split_ifs with h
    · obtain ⟨more, rfl⟩ := List.isPrefixOf_iff_prefix.mp h.1
      cases more with
      | nil =>
        have hlen := h.2
        rw [List.append_nil] at hlen
        exact absurd hlen (Nat.lt_irrefl _)
      | cons b rest =>
        rw [getElem?_append_length, expect_some_bind, sliceFrom_append, expect_some_bind,
          Patricia.lookup_branch_append]
        cases b with
        | false => exact ihz rest
        | true => exact iho rest
    · have hnone : (Patricia.branch label zero one).lookup bits = none := by
        by_contra hsome
        obtain ⟨b, rest, rfl⟩ := Patricia.append_of_lookup hsome
        refine h ⟨List.isPrefixOf_iff_prefix.mpr (List.prefix_append _ _), ?_⟩
        rw [List.length_append, List.length_cons]
        omega
      rw [hnone]
      rfl

end

/-- the key of a leaf gets another value -/
theorem insertNode_same (suffix : List Bool) (prior value : Cell) (old : Option Cell) :
    insertNode (.leaf suffix prior) suffix value old = .ok (.leaf suffix value) (some prior) := by
  have hn : common suffix suffix = suffix.length := by
    rcases common_cases (le_refl suffix.length) with ⟨_, _, hn⟩ | ⟨s, x, ra, rb, ha, hb, _⟩
    · exact hn
    · rw [ha] at hb
      have hx := (List.cons.inj (List.append_cancel_left hb)).1
      cases x <;> cases hx
  unfold insertNode
  rw [if_pos ⟨hn, hn⟩]
  rfl

/-- a leaf whose key parts from the new one -/
theorem insertNode_leaf {s ra rb : List Bool} {x : Bool}
    (hn : common (s ++ x :: ra) (s ++ (!x) :: rb) = s.length) (prior value : Cell)
    (old : Option Cell) : insertNode (.leaf (s ++ x :: ra) prior) (s ++ (!x) :: rb) value old
      = .ok (Patricia.fork s x (.leaf ra prior) (.leaf rb value)) old := by
  have hne : ¬ (s.length = (s ++ x :: ra).length ∧ s.length = (s ++ (!x) :: rb).length) := by
    simp
  unfold insertNode
  rw [hn, if_neg hne, getElem?_append_length, sliceFrom_append, sliceFrom_append, sliceTo_append]
  rfl

/-- a label that parts from the key -/
theorem insertNode_label {s ra rb : List Bool} {x : Bool}
    (hn : common (s ++ x :: ra) (s ++ (!x) :: rb) = s.length) (zero one : Node) (value : Cell)
    (old : Option Cell) : insertNode (.branch (s ++ x :: ra) zero one) (s ++ (!x) :: rb) value old
      = .ok (Patricia.fork s x (.branch ra zero one) (.leaf rb value)) old := by
  have hlt : s.length < (s ++ x :: ra).length := by simp
  unfold insertNode
  rw [hn, if_pos hlt, getElem?_append_length, sliceFrom_append, sliceFrom_append, sliceTo_append]
  rfl

theorem insertNode_child {label rest : List Bool} {b : Bool} {zero one t' : Node} {value : Cell}
    {old old' : Option Cell} (hn : common label (label ++ b :: rest) = label.length)
    (h : insertNode (Patricia.child zero one b) rest value old = .ok t' old') :
    insertNode (.branch label zero one) (label ++ b :: rest) value old
      = .ok (Patricia.withChild label zero one b t') old' := by
  unfold insertNode
  rw [hn, if_neg (Nat.lt_irrefl _), getElem?_append_length, expect_some_bind, sliceFrom_append,
    expect_some_bind]
  cases b with
  | false => exact bind_ok h
  | true => exact bind_ok h

theorem lookup_label_eq_none (s ra rb : List Bool) (x : Bool) (zero one : Node) :
    (Patricia.branch (s ++ x :: ra) zero one).lookup (s ++ (!x) :: rb) = none := by
  by_contra hsome
  obtain ⟨b, rest, hmore⟩ := Patricia.append_of_lookup hsome
  rw [List.append_assoc] at hmore
  have hx := (List.cons.inj (List.append_cancel_left hmore)).1
  cases x <;> cases hx

/-- what an operation does below a node: one key has another value, the previous one is handed out -/
theorem insertNode_spec (t : Node) (value : Cell) {n : Nat} {bits : List Bool} (old : Option Cell)
    (ht : t.Fits n) (hbits : bits.length = n) :
    ∃ t', insertNode t bits value old = .ok t' ((t.lookup bits).or old) ∧ t'.Fits n
      ∧ ∀ key, t'.lookup key = if key = bits then some value else t.lookup key := by
  induction t generalizing n bits with
  | leaf suffix prior =>
    have hlen : suffix.length = n := ht
    rcases common_cases (a:=suffix) (b:=bits) (by omega)
      with ⟨rest, rfl, _⟩ | ⟨s, x, ra, rb, rfl, rfl, hn⟩
    · -- the same key
      have hrest : rest = [] := by
        rw [List.length_append] at hbits
        exact List.length_eq_zero_iff.mp (by omega)
      subst hrest
      rw [List.append_nil]
      refine ⟨.leaf suffix value, ?_, ht, fun key => ?_⟩
      · rw [insertNode_same, Patricia.lookup_leaf, if_pos rfl]
        rfl
      · rw [Patricia.lookup_leaf, Patricia.lookup_leaf]
        by_cases hk : suffix = key
        · rw [if_pos hk, if_pos hk.symm]
        · rw [if_neg hk, if_neg (Ne.symm hk), if_neg hk]
    · have hnone : (Patricia.leaf (s ++ x :: ra) prior).lookup (s ++ (!x) :: rb) = none := by
        simp [Patricia.lookup_leaf]
      refine ⟨Patricia.fork s x (.leaf ra prior) (.leaf rb value), ?_, ?_, fun key => ?_⟩
      · rw [insertNode_leaf hn, hnone]
        rfl
      · rw [List.length_append, List.length_cons] at hlen hbits
        have hm : n = s.length + 1 + ra.length := by omega
        rw [hm]
        exact Patricia.fits_fork rfl (show rb.length = ra.length by omega)
      · rw [lookup_split, prepend_eq_leaf]
  | branch label zero one ihz iho =>
    have hfits := ht
    obtain ⟨hlabel, hz, ho⟩ := ht
    rcases common_cases (a:=label) (b:=bits) (by omega)
      with ⟨rest, rfl, hn⟩ | ⟨s, x, ra, rb, rfl, rfl, hn⟩
    · -- below the branch
      cases rest with
      | nil =>
        rw [List.append_nil] at hbits
        omega
      | cons b rest =>
        have hrest : rest.length = n - label.length - 1 := by
          rw [List.length_append, List.length_cons] at hbits
          omega
        have hchild : ∃ t', insertNode (Patricia.child zero one b) rest value old
              = .ok t' (((Patricia.child zero one b).lookup rest).or old)
            ∧ t'.Fits (n - label.length - 1)
            ∧ ∀ key, t'.lookup key = if key = rest then some value
              else (Patricia.child zero one b).lookup key := by
          cases b with
          | false => exact ihz hz hrest
          | true => exact iho ho hrest
        obtain ⟨t', hrun, hfit, hlookup⟩ := hchild
        refine ⟨Patricia.withChild label zero one b t', ?_, Patricia.fits_withChild hfits hfit,
          Patricia.lookup_withChild hlookup⟩
        rw [insertNode_child hn hrun, Patricia.lookup_branch_append]
    · -- the label is split
      refine ⟨Patricia.fork s x (.branch ra zero one) (.leaf rb value), ?_, ?_, fun key => ?_⟩
      · rw [insertNode_label hn, lookup_label_eq_none]
        rfl
      · rw [List.length_append, List.length_cons] at hlabel hbits hz ho
        have hm : n = s.length + 1 + rb.length := by omega
        have hsub : n - (s.length + (ra.length + 1)) - 1 = rb.length - ra.length - 1 := by omega
        rw [hsub] at hz ho
        rw [hm]
        exact Patricia.fits_fork ⟨by omega, hz, ho⟩ rfl
      · rw [lookup_split, prepend_eq_branch]

/-- the values below a node that may be gone -/
def rootLookup (root : Option Node) (key : List Bool) : Option Cell :=
  root.bind fun t => t.lookup key

/-- the other child of a branch that loses one takes its place -/
theorem lookup_merge {label rest : List Bool} {zero one : Node} {b : Bool}
    (h : ∀ key, none = if key = rest then none else (Patricia.child zero one b).lookup key)
    (key : List Bool) : (prepend label (!b) (Patricia.child zero one !b)).lookup key
      = if key = label ++ b :: rest then none else (Patricia.branch label zero one).lookup key := by
  by_cases hs : label <+: key
  · obtain ⟨more, rfl⟩ := hs
    rw [lookup_prepend_append]
    cases more with
    | nil =>
      rw [if_neg (by simp), Patricia.lookup_branch, Patricia.strip_append]
      rfl
    | cons x more =>
      show (if x = !b then (Patricia.child zero one !b).lookup more else none) = _
      rw [Patricia.lookup_branch_append]
      by_cases hx : x = !b
      · subst hx
        simp
      · have hxb : x = b := by
          cases x <;> cases b <;> simp at hx ⊢
        subst hxb
        rw [if_neg hx]
        simpa using h more
  · have hne : ¬ (key = label ++ b :: rest) := by
      rintro rfl
      exact hs (List.prefix_append _ _)
    rw [if_neg hne, Patricia.lookup_branch, Patricia.strip_eq_none hs]
    by_contra hsome
    exact hs (prefix_of_lookup_prepend hsome)

/-- a node without a key is its own result -/
theorem unchanged_of_lookup {t : Node} {n : Nat} {bits : List Bool} {old : Option Cell}
    (hrun : removeNode t bits old = .ok (some t) old) (ht : t.Fits n) (h : t.lookup bits = none) :
    ∃ r, removeNode t bits old = .ok r ((t.lookup bits).or old)
      ∧ (∀ t', r = some t' → t'.Fits n)
      ∧ ∀ key, rootLookup r key = if key = bits then none else t.lookup key := by
  refine ⟨some t, ?_, fun t' ht' => ?_, fun key => ?_⟩
  · rw [hrun, h]
    rfl
  · cases ht'
    exact ht
  · show t.lookup key = _
    by_cases hk : key = bits
    · rw [if_pos hk, hk, h]
    · rw [if_neg hk]

theorem removeNode_same (suffix : List Bool) (value : Cell) (old : Option Cell) :
    removeNode (.leaf suffix value) suffix old = .ok none (some value) := by
  unfold removeNode
  rw [if_pos rfl]
  rfl

/-- a branch the key does not go below -/
theorem removeNode_outside {label bits : List Bool} (zero one : Node) (old : Option Cell)
    (h : ¬ ∃ b rest, bits = label ++ b :: rest) :
    removeNode (.branch label zero one) bits old = .ok (some (.branch label zero one)) old := by
  have hguard : ¬ label.isPrefixOf bits ∨ bits.length ≤ label.length := by
    by_contra hno
    rw [not_or, not_not, Nat.not_le] at hno
    obtain ⟨more, rfl⟩ := List.isPrefixOf_iff_prefix.mp hno.1
    cases more with
    | nil => simp at hno
    | cons b rest => exact h ⟨b, rest, rfl⟩
  unfold removeNode
  rw [if_pos hguard]
  rfl

/-- a branch with what is left of the child at a bit -/
def afterRemove (label : List Bool) (zero one : Node) (b : Bool) : Option Node → Node
  | some child => Patricia.withChild label zero one b child
  | none => prepend label (!b) (Patricia.child zero one !b)

theorem removeNode_child {label rest : List Bool} {b : Bool} {zero one : Node} {r : Option Node}
    {old old' : Option Cell} (h : removeNode (Patricia.child zero one b) rest old = .ok r old') :
    removeNode (.branch label zero one) (label ++ b :: rest) old
      = .ok (some (afterRemove label zero one b r)) old' := by
  have hguard : ¬ (¬ label.isPrefixOf (label ++ b :: rest) ∨
      (label ++ b :: rest).length ≤ label.length) := by
    have hpre := List.isPrefixOf_iff_prefix.mpr (List.prefix_append label (b :: rest))
    simp [hpre]
  unfold removeNode
  rw [if_neg hguard, getElem?_append_length, expect_some_bind, sliceFrom_append, expect_some_bind]
  cases b with
  | false =>
    refine (bind_ok h).trans ?_
    cases r <;> rfl
  | true =>
    refine (bind_ok h).trans ?_
    cases r <;> rfl

theorem fits_afterRemove {label : List Bool} {zero one : Node} {b : Bool} {r : Option Node}
    {n : Nat} (ht : (Patricia.branch label zero one).Fits n)
    (hr : ∀ t', r = some t' → t'.Fits (n - label.length - 1)) :
    (afterRemove label zero one b r).Fits n := by
  cases r with
  | some child => exact Patricia.fits_withChild ht (hr child rfl)
  | none =>
    have hlt := ht.1
    have hn : n = label.length + 1 + (n - label.length - 1) := by omega
    rw [hn]
    exact fits_prepend ((Patricia.fits_branch.mp ht).2 _)

theorem lookup_afterRemove {label rest : List Bool} {zero one : Node} {b : Bool} {r : Option Node}
    (h : ∀ key, rootLookup r key
      = if key = rest then none else (Patricia.child zero one b).lookup key) (key : List Bool) :
    (afterRemove label zero one b r).lookup key
      = if key = label ++ b :: rest then none else (Patricia.branch label zero one).lookup key := by
  cases r with
  | some child => exact Patricia.lookup_withChild h key
  | none => exact lookup_merge h key

theorem removeNode_spec (t : Node) {n : Nat} (bits : List Bool) (old : Option Cell)
    (ht : t.Fits n) : ∃ r, removeNode t bits old = .ok r ((t.lookup bits).or old)
      ∧ (∀ t', r = some t' → t'.Fits n)
      ∧ ∀ key, rootLookup r key = if key = bits then none else t.lookup key := by
  induction t generalizing n bits with
  | leaf suffix value =>
    by_cases h : suffix = bits
    · subst h
      refine ⟨none, ?_, fun _ ht' => (nomatch ht'), fun key => ?_⟩
      · rw [removeNode_same, Patricia.lookup_leaf, if_pos rfl]
        rfl
      · show none = _
        rw [Patricia.lookup_leaf]
        by_cases hk : key = suffix
        · rw [if_pos hk]
        · rw [if_neg hk, if_neg (Ne.symm hk)]
    · refine unchanged_of_lookup ?_ ht ?_
      · unfold removeNode
        rw [if_neg h]
        rfl
      · rw [Patricia.lookup_leaf, if_neg h]
  | branch label zero one ihz iho =>
    by_cases hin : ∃ b rest, bits = label ++ b :: rest
    · obtain ⟨b, rest, rfl⟩ := hin
      have hchild : ∃ r, removeNode (Patricia.child zero one b) rest old
            = .ok r (((Patricia.child zero one b).lookup rest).or old)
          ∧ (∀ t', r = some t' → t'.Fits (n - label.length - 1))
          ∧ ∀ key, rootLookup r key
            = if key = rest then none else (Patricia.child zero one b).lookup key := by
        cases b with
        | false => exact ihz rest ht.2.1
        | true => exact iho rest ht.2.2
      obtain ⟨r, hrun, hfit, hlookup⟩ := hchild
      refine ⟨some (afterRemove label zero one b r), ?_, fun t' ht' => ?_,
        lookup_afterRemove hlookup⟩
      · rw [removeNode_child hrun, Patricia.lookup_branch_append]
      · cases ht'
        exact fits_afterRemove ht hfit
    · refine unchanged_of_lookup (removeNode_outside zero one old hin) ht ?_
      by_contra hsome
      exact hin (Patricia.append_of_lookup hsome)

/-! ## cells of nodes -/

section
variable (c : Crypto)

/-- the cells a long label goes on in -/
def labelCells (bits : List Bool) : List Cell :=
  if bits.length ≤ 1000 then [] else (labelTail c (bits.drop 1000)).toOption.toList

theorem take_min_length (bits : List Bool) (n : Nat) :
    bits.take (min bits.length n) = bits.take n := by
  rw [List.take_eq_take_iff]
  omega

theorem length_pack (bits : List Bool) : (pack bits).length = (bits.length + 7) / 8 :=
  ByteBits.length_pack _ bits

theorem newCell_ok {data : Bytes} {refs : List Uint256} (hd : data.length ≤ MAX_CELL_DATA_BYTES)
    (hr : refs.length ≤ MAX_CELL_REFS) : newCell data refs = .ok ⟨data, refs, false, hd, hr⟩ := by
  unfold newCell Cell.new
  rw [Cell.newWithSpecial_eq hd hr]
  rfl

/-- a label that fits into one cell -/
theorem labelTail_ok {bits : List Bool} (h : bits.length ≤ 1000) :
    ∃ cell, labelTail c bits = .ok cell ∧ cell.dataBytes = 0xD2 :: pack bits
      ∧ cell.cellRefs = [] ∧ cell.isSpecial = false := by
  have hdata : (0xD2 :: pack bits).length ≤ MAX_CELL_DATA_BYTES := by
    rw [List.length_cons, length_pack]
    show _ ≤ 128
    omega
  refine ⟨⟨_, [], false, hdata, Nat.zero_le _⟩, ?_, rfl, rfl, rfl⟩
  rw [labelTail, dif_neg (by omega), take_min_length, List.take_of_length_le h]
  exact newCell_ok hdata _

theorem labelRefs_ok {bits : List Bool} (h : bits.length ≤ 2000) (refs : List Uint256) :
    labelRefs c bits refs = .ok ((labelCells c bits).map (Cell.hash c) ++ refs)
      ∧ (labelCells c bits).length ≤ 1 := by
  unfold labelRefs labelCells
  by_cases hlong : bits.length ≤ 1000
  · rw [if_neg (by omega), if_pos hlong]
    exact ⟨rfl, Nat.zero_le _⟩
  · have hmin : min bits.length 1000 = 1000 := by omega
    have hrest : (bits.drop 1000).length ≤ 1000 := by
      rw [List.length_drop]
      omega
    obtain ⟨tail, htail, _⟩ := labelTail_ok c hrest
    rw [hmin, if_pos (by omega), if_neg hlong, htail]
    exact ⟨rfl, le_refl _⟩

/-- **The cell of a node**: tag, label and references. -/
theorem nodeCell_ok (tag : Byte) {bits : List Bool} {refs : List Uint256}
    (hbits : bits.length ≤ 1023) (hrefs : refs.length ≤ 3) :
    ∃ cell, nodeCell c tag bits refs = .ok cell
      ∧ cell.dataBytes = tag :: (beBytes 2 bits.length ++ pack (bits.take 1000))
      ∧ cell.cellRefs = (labelCells c bits).map (Cell.hash c) ++ refs
      ∧ cell.isSpecial = false := by
  have hdata : (tag :: (beBytes 2 bits.length ++ pack (bits.take 1000))).length
      ≤ MAX_CELL_DATA_BYTES := by
    rw [List.length_cons, List.length_append, length_beBytes, length_pack, List.length_take]
    show _ ≤ 128
    omega
  obtain ⟨hlabel, hone⟩ := labelRefs_ok c (show bits.length ≤ 2000 by omega) refs
  have hr : ((labelCells c bits).map (Cell.hash c) ++ refs).length ≤ MAX_CELL_REFS := by
    rw [List.length_append, List.length_map]
    show _ ≤ 4
    omega
  refine ⟨⟨_, _, false, hdata, hr⟩, ?_, rfl, rfl, rfl⟩
  unfold nodeCell
  dsimp only
  rw [hlabel, take_min_length]
  exact newCell_ok hdata hr

theorem exists_serialize {t : Node} {n : Nat} (ht : t.Fits n) (hn : n ≤ 1023) :
    ∃ cell, serialize c t = .ok cell := by
  induction t generalizing n with
  | leaf suffix value =>
    have hlen : suffix.length = n := ht
    obtain ⟨cell, hcell, _⟩ := nodeCell_ok c 0xD0 (show suffix.length ≤ 1023 by omega)
      (show [value.hash c].length ≤ 3 by simp)
    exact ⟨cell, hcell⟩
  | branch label zero one ihz iho =>
    obtain ⟨hlabel, hz, ho⟩ := ht
    obtain ⟨zc, hzc⟩ := ihz hz (by omega)
    obtain ⟨oc, hoc⟩ := iho ho (by omega)
    obtain ⟨cell, hcell, _⟩ := nodeCell_ok c 0xD1 (show label.length ≤ 1023 by omega)
      (show [zc.hash c, oc.hash c].length ≤ 3 by simp)
    refine ⟨cell, ?_⟩
    unfold serialize
    rw [hzc, hoc]
    exact hcell

end

end Onx.Vm
