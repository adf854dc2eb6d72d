import Mathlib.Data.List.Basic

/-!
# Patricia tries

Compressed binary tries over bit strings: a leaf keeps the rest of its key, a branch the bits that
all keys below it share.

* `strip`        what is behind a label in a key;
* `lookup`       the value of a key, `Fits` when all keys below a node have `n` bits;
* `eq_of_lookup` **two tries with the same values are the same trie**, so the shape of a trie
                 does not depend on how it was made.
-/

/-- a node, with the bits that lead to it from its parent -/
inductive Patricia (α : Type) where
  | leaf (suffix : List Bool) (value : α)
  | branch (label : List Bool) (zero one : Patricia α)
deriving DecidableEq

namespace Patricia
variable {α : Type}

/-! ## labels -/

def strip : List Bool → List Bool → Option (List Bool)
  | [], key => some key
  | _ :: _, [] => none
  | a :: label, b :: key => if a = b then strip label key else none

theorem strip_eq_some_iff {label key rest : List Bool} :
    strip label key = some rest ↔ key = label ++ rest := by
  induction label generalizing key with
  | nil => simp [strip, eq_comm]
  | cons a label ih =>
    cases key with
    | nil => simp [strip]
    | cons b key =>
      unfold strip
      split_ifs with h
      · rw [ih, h, List.cons_append, List.cons.injEq, and_iff_right rfl]
      · refine ⟨fun h' => (nomatch h'), fun h' => ?_⟩
        exact absurd (List.cons.inj h').1.symm h

@[simp] theorem strip_append (label rest : List Bool) : strip label (label ++ rest) = some rest :=
  strip_eq_some_iff.mpr rfl

theorem strip_append_left (label more key : List Bool) :
    strip (label ++ more) key = (strip label key).bind (strip more) := by
  induction label generalizing key with
  | nil => rfl
  | cons a label ih =>
    cases key with
    | nil => rfl
    | cons b key =>
      show (if a = b then strip (label ++ more) key else none)
        = (if a = b then strip label key else none).bind (strip more)
      split_ifs
      · exact ih key
      · rfl

theorem strip_eq_none {label key : List Bool} (h : ¬ label <+: key) : strip label key = none := by
  cases hs : strip label key with
  | none => rfl
  | some rest => exact absurd ⟨rest, (strip_eq_some_iff.mp hs).symm⟩ h

/-- what two keys that part after a label share is within the label -/
theorem prefix_of_part {p label a b : List Bool} (h0 : p <+: label ++ false :: a)
    (h1 : p <+: label ++ true :: b) : p <+: label := by
  induction label generalizing p with
  | nil =>
    cases p with
    | nil => exact List.nil_prefix
    | cons x p =>
      have hx0 := (List.cons_prefix_cons.mp h0).1
      have hx1 := (List.cons_prefix_cons.mp h1).1
      rw [hx0] at hx1
      cases hx1
  | cons c label ih =>
    cases p with
    | nil => exact List.nil_prefix
    | cons x p =>
      obtain ⟨hx, h0⟩ := List.cons_prefix_cons.mp h0
      obtain ⟨_, h1⟩ := List.cons_prefix_cons.mp h1
      exact List.cons_prefix_cons.mpr ⟨hx, ih h0 h1⟩

/-! ## values -/

def lookup : Patricia α → List Bool → Option α
  | leaf suffix value, key => if suffix = key then some value else none
  | branch label zero one, key =>
    match strip label key with
    | some (true :: rest) => one.lookup rest
    | some (false :: rest) => zero.lookup rest
    | _ => none

/-- the child for a bit -/
def child (zero one : Patricia α) (b : Bool) : Patricia α := if b then one else zero

/-- by the first bit of what is left of a key; nothing if nothing is left -/
def onFirst (f : Bool → List Bool → Option α) : List Bool → Option α
  | [] => none
  | b :: rest => f b rest

theorem lookup_leaf (suffix : List Bool) (value : α) (key : List Bool) :
    (leaf suffix value).lookup key = if suffix = key then some value else none := rfl

theorem lookup_branch (label : List Bool) (zero one : Patricia α) (key : List Bool) :
    (branch label zero one).lookup key
      = (strip label key).bind (onFirst fun b => (child zero one b).lookup) := by
  show (match strip label key with
    | some (true :: rest) => one.lookup rest
    | some (false :: rest) => zero.lookup rest
    | _ => none) = _
  cases strip label key with
  | none => rfl
  | some rest =>
    cases rest with
    | nil => rfl
    | cons b rest => cases b <;> rfl

theorem lookup_leaf_strip (suffix : List Bool) (value : α) (key : List Bool) :
    (leaf suffix value).lookup key = (strip suffix key).bind (leaf [] value).lookup := by
  rw [lookup_leaf]
  by_cases h : suffix <+: key
  · obtain ⟨rest, rfl⟩ := h
    rw [strip_append, Option.bind_some, lookup_leaf]
    refine if_congr ?_ rfl rfl
    rw [List.self_eq_append_right, eq_comm]
  · rw [strip_eq_none h, if_neg]
    · rfl
    · intro heq
      rw [heq] at h
      exact h List.prefix_rfl

@[simp] theorem lookup_branch_append (label : List Bool) (zero one : Patricia α) (b : Bool)
    (rest : List Bool) :
    (branch label zero one).lookup (label ++ b :: rest) = (child zero one b).lookup rest := by
  rw [lookup_branch, strip_append]
  rfl

/-- a value is behind the label and a bit -/
theorem append_of_lookup {label : List Bool} {zero one : Patricia α} {key : List Bool}
    (h : (branch label zero one).lookup key ≠ none) : ∃ b rest, key = label ++ b :: rest := by
  rw [lookup_branch] at h
  cases hs : strip label key with
  | none =>
    rw [hs] at h
    exact absurd rfl h
  | some more =>
    rw [strip_eq_some_iff] at hs
    subst hs
    cases more with
    | nil =>
      rw [strip_append] at h
      exact absurd rfl h
    | cons b rest => exact ⟨b, rest, rfl⟩

/-- every key below the node has `n` bits -/
def Fits : Patricia α → Nat → Prop
  | leaf suffix _, n => suffix.length = n
  | branch label zero one, n =>
    label.length < n ∧ zero.Fits (n - label.length - 1) ∧ one.Fits (n - label.length - 1)

theorem fits_branch {label : List Bool} {zero one : Patricia α} {n : Nat} :
    (branch label zero one).Fits n ↔ label.length < n
      ∧ ∀ b, (child zero one b).Fits (n - label.length - 1) := by
  show label.length < n ∧ zero.Fits _ ∧ one.Fits _ ↔ _
  rw [Bool.forall_bool]
  exact Iff.rfl

theorem Fits.length_eq {t : Patricia α} {n : Nat} (h : t.Fits n) {key : List Bool}
    (hkey : t.lookup key ≠ none) : key.length = n := by
  induction t generalizing n key with
  | leaf suffix value =>
    rw [lookup_leaf] at hkey
    split_ifs at hkey with heq
    · rw [← heq]
      exact h
    · exact absurd rfl hkey
  | branch label zero one ihz iho =>
    obtain ⟨b, rest, rfl⟩ := append_of_lookup hkey
    obtain ⟨hlen, hz, ho⟩ := h
    rw [lookup_branch_append] at hkey
    have hb : rest.length = n - label.length - 1 := by
      cases b with
      | false => exact ihz hz hkey
      | true => exact iho ho hkey
    rw [List.length_append, List.length_cons]
    omega

/-- a node holds a key -/
theorem exists_lookup (t : Patricia α) : ∃ key, t.lookup key ≠ none := by
  induction t with
  | leaf suffix value =>
    refine ⟨suffix, ?_⟩
    rw [lookup_leaf, if_pos rfl]
    exact Option.some_ne_none value
  | branch label zero one ihz iho =>
    obtain ⟨key, hkey⟩ := ihz
    refine ⟨label ++ false :: key, ?_⟩
    rw [lookup_branch_append]
    exact hkey

/-- a branch holds a key on each side -/
theorem exists_lookup_side (label : List Bool) (zero one : Patricia α) (b : Bool) :
    ∃ key, (branch label zero one).lookup (label ++ b :: key) ≠ none := by
  obtain ⟨key, hkey⟩ := exists_lookup (child zero one b)
  refine ⟨key, ?_⟩
  rw [lookup_branch_append]
  exact hkey

/-! ## forks -/

/-- `old` at the bit `b` behind a label, `new` at the other one -/
def fork (label : List Bool) (b : Bool) (old new : Patricia α) : Patricia α :=
  if b then branch label new old else branch label old new

theorem lookup_fork (label : List Bool) (b : Bool) (old new : Patricia α) (key : List Bool) :
    (fork label b old new).lookup key
      = (strip label key).bind (onFirst fun x => (if x = b then old else new).lookup) := by
  have hchild : ∀ x, child (if b then new else old) (if b then old else new) x
      = if x = b then old else new := by
    intro x
    cases b <;> cases x <;> rfl
  have hfork : fork label b old new
      = branch label (if b then new else old) (if b then old else new) := by
    cases b <;> rfl
  rw [hfork, lookup_branch]
  simp only [hchild]

theorem fits_fork {label : List Bool} {b : Bool} {old new : Patricia α} {m : Nat}
    (hold : old.Fits m) (hnew : new.Fits m) :
    (fork label b old new).Fits (label.length + 1 + m) := by
  have hm : label.length + 1 + m - label.length - 1 = m := by omega
  have hlt : label.length < label.length + 1 + m := by omega
  cases b
  · exact ⟨hlt, by rwa [hm], by rwa [hm]⟩
  · exact ⟨hlt, by rwa [hm], by rwa [hm]⟩

/-- a branch with another child for a bit -/
def withChild (label : List Bool) (zero one : Patricia α) (b : Bool) (t : Patricia α) :
    Patricia α := if b then branch label zero t else branch label t one

/-- a child that differs at one key -/
theorem lookup_withChild {label rest : List Bool} {zero one t : Patricia α} {b : Bool}
    {v : Option α}
    (h : ∀ key, t.lookup key = if key = rest then v else (child zero one b).lookup key)
    (key : List Bool) : (withChild label zero one b t).lookup key
      = if key = label ++ b :: rest then v else (branch label zero one).lookup key := by
  have hwith : withChild label zero one b t
      = branch label (if b then zero else t) (if b then t else one) := by
    cases b <;> rfl
  rw [hwith]
  by_cases hlabel : label <+: key
  · obtain ⟨more, rfl⟩ := hlabel
    cases more with
    | nil =>
      have hne : ¬ (label ++ [] = label ++ b :: rest) := by simp
      rw [if_neg hne, lookup_branch, lookup_branch, strip_append]
      rfl
    | cons x more =>
      rw [lookup_branch_append, lookup_branch_append]
      by_cases hx : x = b
      · subst hx
        have ht : child (if x then zero else t) (if x then t else one) x = t := by
          cases x <;> rfl
        rw [ht, h]
        simp
      · have hother : child (if b then zero else t) (if b then t else one) x
            = child zero one x := by
          cases b <;> cases x <;> simp [child] at hx ⊢
        rw [hother]
        simp [hx]
  · have hne : ¬ (key = label ++ b :: rest) := by
      rintro rfl
      exact hlabel (List.prefix_append _ _)
    rw [if_neg hne, lookup_branch, lookup_branch, strip_eq_none hlabel]
    rfl

theorem fits_withChild {label : List Bool} {zero one t : Patricia α} {b : Bool} {n : Nat}
    (h : (branch label zero one).Fits n) (ht : t.Fits (n - label.length - 1)) :
    (withChild label zero one b t).Fits n := by
  obtain ⟨hlen, hz, ho⟩ := h
  cases b
  · exact ⟨hlen, ht, ho⟩
  · exact ⟨hlen, hz, ht⟩

/-! ## one trie for one map -/

/-- a leaf holds one key, a branch holds two -/
theorem leaf_ne_branch {suffix label : List Bool} {value : α} {zero one : Patricia α}
    (h : ∀ key, (leaf suffix value).lookup key = (branch label zero one).lookup key) : False := by
  have hkey : ∀ b, ∃ key, suffix = label ++ b :: key := by
    intro b
    obtain ⟨key, hkey⟩ := exists_lookup_side label zero one b
    rw [← h, lookup_leaf] at hkey
    refine ⟨key, ?_⟩
    by_contra hne
    rw [if_neg hne] at hkey
    exact hkey rfl
  obtain ⟨k0, h0⟩ := hkey false
  obtain ⟨k1, h1⟩ := hkey true
  rw [h0] at h1
  cases List.append_cancel_left h1

/-- the label of a branch is what its keys share -/
theorem label_prefix {label label' : List Bool} {zero one zero' one' : Patricia α}
    (h : ∀ key, (branch label zero one).lookup key = (branch label' zero' one').lookup key) :
    label' <+: label := by
  have hside : ∀ b, ∃ key, label' <+: label ++ b :: key := by
    intro b
    obtain ⟨key, hkey⟩ := exists_lookup_side label zero one b
    rw [h] at hkey
    obtain ⟨x, rest, heq⟩ := append_of_lookup hkey
    exact ⟨key, heq ▸ List.prefix_append _ _⟩
  obtain ⟨k0, h0⟩ := hside false
  obtain ⟨k1, h1⟩ := hside true
  exact prefix_of_part h0 h1

/-- **Two tries with the same values are the same trie.** -/
theorem eq_of_lookup {t t' : Patricia α} (h : ∀ key, t.lookup key = t'.lookup key) : t = t' := by
  induction t generalizing t' with
  | leaf suffix value =>
    cases t' with
    | leaf suffix' value' =>
      have hkey := h suffix
      rw [lookup_leaf, lookup_leaf, if_pos rfl] at hkey
      split_ifs at hkey with heq
      rw [heq, Option.some.inj hkey]
    | branch label zero one => exact (leaf_ne_branch h).elim
  | branch label zero one ihz iho =>
    cases t' with
    | leaf suffix value => exact (leaf_ne_branch fun key => (h key).symm).elim
    | branch label' zero' one' =>
      have hl : label = label' := by
        have h1 := label_prefix h
        have h2 := label_prefix fun key => (h key).symm
        exact h2.eq_of_length (Nat.le_antisymm h2.length_le h1.length_le)
      subst hl
      have hchild : ∀ b key, (child zero one b).lookup key = (child zero' one' b).lookup key := by
        intro b key
        have hkey := h (label ++ b :: key)
        rwa [lookup_branch_append, lookup_branch_append] at hkey
      have hz : zero = zero' := ihz (hchild false)
      have ho : one = one' := iho (hchild true)
      rw [hz, ho]

end Patricia
