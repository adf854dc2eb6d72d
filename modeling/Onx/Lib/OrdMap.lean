import Mathlib.Data.List.Lex
import Mathlib.Data.List.Sort
import Mathlib.Data.List.Nodup
import Mathlib.Algebra.Group.Nat.Defs
import Mathlib.Order.Basic
import Mathlib.Data.Finset.Basic

/-!
# Ordered finite maps

A finite map over a linearly ordered key type, kept as the list of its entries in strictly
ascending key order (what a B-tree map iterates over).

* `get?`, `insert`, `erase`     lookup, insertion with replacement, removal;
* `keys`, `values`              in ascending key order;
* `extend`                      all entries of another map inserted;
* `ext_get?`, `ext_perm`        two maps with the same lookups, or with the same entries in some
                                order, are the same list of entries: a map has one representation.

The order of the entries is a field of the map: no lookup lemma below has a side condition.
-/

/-- the unsigned order of machine words -/
instance BitVec.linearOrderUnsigned (w : Nat) : LinearOrder (BitVec w) where
  le := (· ≤ ·)
  lt := (· < ·)
  le_refl _ := Nat.le_refl _
  le_trans _ _ _ := Nat.le_trans
  lt_iff_le_not_ge a b := Nat.lt_iff_le_and_not_ge (m := a.toNat) (n := b.toNat)
  le_antisymm a b h1 h2 := BitVec.eq_of_toNat_eq (Nat.le_antisymm h1 h2)
  le_total a b := Nat.le_total a.toNat b.toNat
  toDecidableLE := inferInstance
  toDecidableLT := inferInstance
  toDecidableEq := inferInstance

/-- numbers that fit are told apart by their words -/
theorem BitVec.eq_of_ofNat_eq {w i j : Nat} (hi : i < 2^w) (hj : j < 2^w)
    (h : BitVec.ofNat w i = BitVec.ofNat w j) : i = j := by
  have hnat := congrArg BitVec.toNat h
  rwa [BitVec.toNat_ofNat, BitVec.toNat_ofNat, Nat.mod_eq_of_lt hi, Nat.mod_eq_of_lt hj] at hnat

theorem BitVec.nodup_ofNat {w n : Nat} (h : n ≤ 2^w) :
    ((List.range n).map (BitVec.ofNat w)).Nodup :=
  List.nodup_range.map_on fun _ hi _ hj hij =>
    eq_of_ofNat_eq ((List.mem_range.mp hi).trans_le h) ((List.mem_range.mp hj).trans_le h) hij

/-- different words are at most as many as there are -/
theorem BitVec.length_le_of_nodup {w : Nat} {l : List (BitVec w)} (h : l.Nodup) : l.length ≤ 2^w := by
  have hnodup := h.map (fun _ _ => BitVec.eq_of_toNat_eq)
  have hsub : l.map BitVec.toNat ⊆ List.range (2^w) := by
    intro i hi
    obtain ⟨x, _, rfl⟩ := List.mem_map.mp hi
    exact List.mem_range.mpr x.isLt
  have hle := (List.subperm_of_subset hnodup hsub).length_le
  rwa [List.length_range, List.length_map] at hle

/-- entries in strictly ascending key order -/
structure OrdMap (κ ν : Type) [LinearOrder κ] where
  entries : List (κ × ν)
  sorted : entries.Pairwise (fun a b => a.1 < b.1)

namespace OrdMap
variable {κ ν : Type} [LinearOrder κ]

/-! ## the entry list -/

def lookup (k : κ) : List (κ × ν) → Option ν
  | [] => none
  | (k', x) :: rest => if k = k' then some x else lookup k rest

def insertEntry (k : κ) (x : ν) : List (κ × ν) → List (κ × ν)
  | [] => [(k, x)]
  | (k', x') :: rest =>
    if k < k' then (k, x) :: (k', x') :: rest
    else if k = k' then (k, x) :: rest
    else (k', x') :: insertEntry k x rest

theorem lookup_nil (k : κ) : lookup k ([] : List (κ × ν)) = none := rfl

theorem lookup_cons (k k' : κ) (x : ν) (l : List (κ × ν)) :
    lookup k ((k', x) :: l) = if k = k' then some x else lookup k l := rfl

theorem lookup_insertEntry (k j : κ) (x : ν) (l : List (κ × ν)) :
    lookup j (insertEntry k x l) = if j = k then some x else lookup j l := by
  induction l with
  | nil => rfl
  | cons e l ih =>
    obtain ⟨k', x'⟩ := e
    unfold insertEntry
    by_cases h1 : k < k'
    · rw [if_pos h1, lookup_cons]
    rw [if_neg h1]
    by_cases h2 : k = k'
    · subst h2
      rw [if_pos rfl, lookup_cons, lookup_cons]
      by_cases h3 : j = k
      · rw [if_pos h3, if_pos h3]
      · rw [if_neg h3, if_neg h3, if_neg h3]
    · rw [if_neg h2, lookup_cons, lookup_cons, ih]
      by_cases h3 : j = k'
      · have h4 : j ≠ k := fun e => h2 (e.symm.trans h3)
        rw [if_pos h3, if_neg h4, if_pos h3]
      · rw [if_neg h3, if_neg h3]

theorem mem_insertEntry {k : κ} {x : ν} {e : κ × ν} {l : List (κ × ν)}
    (h : e ∈ insertEntry k x l) : e = (k, x) ∨ e ∈ l := by
  induction l with
  | nil => exact Or.inl (List.mem_singleton.mp h)
  | cons e' l ih =>
    obtain ⟨k', x'⟩ := e'
    unfold insertEntry at h
    split_ifs at h with h1 h2
    · exact List.mem_cons.mp h
    · rcases List.mem_cons.mp h with h | h
      · exact Or.inl h
      · exact Or.inr (List.mem_cons_of_mem _ h)
    · rcases List.mem_cons.mp h with h | h
      · exact Or.inr (h ▸ List.mem_cons_self)
      · exact (ih h).imp_right (List.mem_cons_of_mem _)

theorem insertEntry_sorted (k : κ) (x : ν) (l : List (κ × ν))
    (h : l.Pairwise (fun a b => a.1 < b.1)) :
    (insertEntry k x l).Pairwise (fun a b => a.1 < b.1) := by
  induction l with
  | nil => exact List.pairwise_singleton _ _
  | cons e l ih =>
    obtain ⟨k', x'⟩ := e
    obtain ⟨hlt, hl⟩ := List.pairwise_cons.mp h
    unfold insertEntry
    split_ifs with h1 h2
    · refine List.pairwise_cons.mpr ⟨fun e he => ?_, h⟩
      rcases List.mem_cons.mp he with rfl | he
      · exact h1
      · exact h1.trans (hlt e he)
    · exact List.pairwise_cons.mpr ⟨fun e he => h2 ▸ hlt e he, hl⟩
    · refine List.pairwise_cons.mpr ⟨fun e he => ?_, ih hl⟩
      rcases mem_insertEntry he with rfl | he
      · exact lt_of_le_of_ne (not_lt.mp h1) (Ne.symm h2)
      · exact hlt e he

theorem lookup_eq_none_of_lt {k : κ} {l : List (κ × ν)} (h : ∀ e ∈ l, k < e.1) :
    lookup k l = none := by
  induction l with
  | nil => rfl
  | cons e l ih =>
    obtain ⟨k', x⟩ := e
    have hk : k ≠ k' := ne_of_lt (h (k', x) List.mem_cons_self)
    rw [lookup_cons, if_neg hk, ih (fun e he => h e (List.mem_cons_of_mem _ he))]

theorem mem_of_lookup {k : κ} {x : ν} {l : List (κ × ν)} (h : lookup k l = some x) :
    (k, x) ∈ l := by
  induction l with
  | nil => cases h
  | cons e l ih =>
    obtain ⟨k', x'⟩ := e
    rw [lookup_cons] at h
    split_ifs at h with hk
    · cases h
      rw [hk]
      exact List.mem_cons_self
    · exact List.mem_cons_of_mem _ (ih h)

theorem lookup_of_mem {k : κ} {x : ν} {l : List (κ × ν)}
    (hs : l.Pairwise (fun a b => a.1 < b.1)) (h : (k, x) ∈ l) : lookup k l = some x := by
  induction l with
  | nil => cases h
  | cons e l ih =>
    obtain ⟨k', x'⟩ := e
    obtain ⟨hlt, hl⟩ := List.pairwise_cons.mp hs
    rw [lookup_cons]
    rcases List.mem_cons.mp h with h | h
    · cases h
      rw [if_pos rfl]
    · rw [if_neg (ne_of_gt (hlt _ h)), ih hl h]

theorem lookup_filter_ne (k j : κ) (l : List (κ × ν)) :
    lookup j (l.filter (fun e => e.1 ≠ k)) = if j = k then none else lookup j l := by
  induction l with
  | nil => simp [lookup_nil]
  | cons e l ih =>
    obtain ⟨k', x⟩ := e
    by_cases hk : k' = k
    · rw [List.filter_cons_of_neg (by simp [hk]), ih, lookup_cons]
      split_ifs with h1 h2
      · rfl
      · exact absurd (h2.trans hk) h1
      · rfl
    · rw [List.filter_cons_of_pos (by simp [hk]), lookup_cons, lookup_cons, ih]
      split_ifs with h1 h2
      · exact absurd (h1.symm.trans h2) hk
      · rfl
      · rfl
      · rfl

/-- sorted entry lists with the same lookups are equal -/
theorem entries_ext {l m : List (κ × ν)} (hl : l.Pairwise (fun a b => a.1 < b.1))
    (hm : m.Pairwise (fun a b => a.1 < b.1)) (h : ∀ k, lookup k l = lookup k m) : l = m := by
  induction l generalizing m with
  | nil =>
    cases m with
    | nil => rfl
    | cons e m =>
      have h1 := h e.1
      rw [lookup_nil, lookup_cons, if_pos rfl] at h1
      cases h1
  | cons e l ih =>
    obtain ⟨k, x⟩ := e
    obtain ⟨hkl, hl'⟩ := List.pairwise_cons.mp hl
    cases m with
    | nil =>
      have h1 := h k
      rw [lookup_nil, lookup_cons, if_pos rfl] at h1
      cases h1
    | cons e' m =>
      obtain ⟨k', x'⟩ := e'
      obtain ⟨hkm, hm'⟩ := List.pairwise_cons.mp hm
      have hk : k = k' := by
        rcases lt_trichotomy k k' with hlt | heq | hgt
        · have h1 := h k
          rw [lookup_cons, if_pos rfl, lookup_cons, if_neg (ne_of_lt hlt),
            lookup_eq_none_of_lt (fun e he => hlt.trans (hkm e he))] at h1
          cases h1
        · exact heq
        · have h1 := h k'
          rw [lookup_cons, if_neg (ne_of_lt hgt), lookup_cons, if_pos rfl,
            lookup_eq_none_of_lt (fun e he => hgt.trans (hkl e he))] at h1
          cases h1
      subst hk
      have hx : x = x' := by
        have h1 := h k
        rw [lookup_cons, if_pos rfl, lookup_cons, if_pos rfl] at h1
        exact Option.some.inj h1
      subst hx
      congr 1
      refine ih hl' hm' (fun j => ?_)
      by_cases hj : j = k
      · subst hj
        rw [lookup_eq_none_of_lt hkl, lookup_eq_none_of_lt hkm]
      · have h1 := h j
        rwa [lookup_cons, if_neg hj, lookup_cons, if_neg hj] at h1

/-! ## the map -/

def empty : OrdMap κ ν := ⟨[], List.Pairwise.nil⟩

instance : Inhabited (OrdMap κ ν) := ⟨empty⟩
instance : EmptyCollection (OrdMap κ ν) := ⟨empty⟩

def get? (m : OrdMap κ ν) (k : κ) : Option ν := lookup k m.entries

def contains (m : OrdMap κ ν) (k : κ) : Bool := (m.get? k).isSome

def insert (m : OrdMap κ ν) (k : κ) (x : ν) : OrdMap κ ν :=
  ⟨insertEntry k x m.entries, insertEntry_sorted k x m.entries m.sorted⟩

def erase (m : OrdMap κ ν) (k : κ) : OrdMap κ ν :=
  ⟨m.entries.filter (fun e => e.1 ≠ k), m.sorted.filter _⟩

def keys (m : OrdMap κ ν) : List κ := m.entries.map Prod.fst

def values (m : OrdMap κ ν) : List ν := m.entries.map Prod.snd

def size (m : OrdMap κ ν) : Nat := m.entries.length

@[simp] theorem get?_empty (k : κ) : (empty : OrdMap κ ν).get? k = none := rfl

theorem get?_insert (m : OrdMap κ ν) (k j : κ) (x : ν) :
    (m.insert k x).get? j = if j = k then some x else m.get? j :=
  lookup_insertEntry k j x m.entries

@[simp] theorem get?_insert_self (m : OrdMap κ ν) (k : κ) (x : ν) :
    (m.insert k x).get? k = some x := by
  rw [get?_insert, if_pos rfl]

theorem get?_insert_of_ne (m : OrdMap κ ν) {k j : κ} (x : ν) (h : j ≠ k) :
    (m.insert k x).get? j = m.get? j := by
  rw [get?_insert, if_neg h]

/-- an insertion at a free key leaves every entry in place -/
theorem get?_insert_fresh {m : OrdMap κ ν} {k j : κ} {x y : ν} (hk : m.get? k = none)
    (hj : m.get? j = some y) : (m.insert k x).get? j = some y := by
  rw [get?_insert_of_ne]
  · exact hj
  · rintro rfl
    rw [hk] at hj
    cases hj

theorem get?_erase (m : OrdMap κ ν) (k j : κ) :
    (m.erase k).get? j = if j = k then none else m.get? j :=
  lookup_filter_ne k j m.entries

theorem ext_get? {m m' : OrdMap κ ν} (h : ∀ k, m.get? k = m'.get? k) : m = m' := by
  obtain ⟨l, hl⟩ := m
  obtain ⟨l', hl'⟩ := m'
  have he : l = l' := entries_ext hl hl' h
  subst he
  rfl

/-- inserting the entry that is already there changes nothing -/
theorem insert_get?_self {m : OrdMap κ ν} {k : κ} {x : ν} (h : m.get? k = some x) :
    m.insert k x = m := by
  refine ext_get? (fun j => ?_)
  rw [get?_insert]
  split_ifs with hj
  · rw [hj, h]
  · rfl

theorem insert_insert_same (m : OrdMap κ ν) (k : κ) (x y : ν) :
    (m.insert k x).insert k y = m.insert k y := by
  refine ext_get? (fun j => ?_)
  simp only [get?_insert]
  split_ifs <;> rfl

theorem mem_entries_iff {m : OrdMap κ ν} {k : κ} {x : ν} :
    (k, x) ∈ m.entries ↔ m.get? k = some x :=
  ⟨lookup_of_mem m.sorted, mem_of_lookup⟩

theorem mem_keys_iff {m : OrdMap κ ν} {k : κ} : k ∈ m.keys ↔ ∃ x, m.get? k = some x := by
  constructor
  · intro h
    obtain ⟨⟨k', x⟩, he, rfl⟩ := List.mem_map.mp h
    exact ⟨x, mem_entries_iff.mp he⟩
  · rintro ⟨x, hx⟩
    exact List.mem_map.mpr ⟨(k, x), mem_entries_iff.mpr hx, rfl⟩

theorem mem_keys_insert {m : OrdMap κ ν} {k j : κ} {x : ν} :
    j ∈ (m.insert k x).keys ↔ j = k ∨ j ∈ m.keys := by
  rw [mem_keys_iff, mem_keys_iff, get?_insert]
  split_ifs with h
  · exact iff_of_true ⟨x, rfl⟩ (.inl h)
  · exact (or_iff_right h).symm

theorem mem_values_iff {m : OrdMap κ ν} {x : ν} : x ∈ m.values ↔ ∃ k, m.get? k = some x := by
  constructor
  · intro h
    obtain ⟨⟨k, x'⟩, he, rfl⟩ := List.mem_map.mp h
    exact ⟨k, mem_entries_iff.mp he⟩
  · rintro ⟨k, hk⟩
    exact List.mem_map.mpr ⟨(k, x), mem_entries_iff.mpr hk, rfl⟩

theorem contains_iff {m : OrdMap κ ν} {k : κ} : m.contains k = true ↔ ∃ x, m.get? k = some x := by
  unfold contains
  rw [Option.isSome_iff_exists]

theorem keys_pairwise (m : OrdMap κ ν) : m.keys.Pairwise (· < ·) :=
  List.pairwise_map.mpr m.sorted

theorem keys_nodup (m : OrdMap κ ν) : m.keys.Nodup :=
  m.keys_pairwise.imp ne_of_lt

theorem perm_insertEntry {k : κ} (x : ν) {l : List (κ × ν)} (h : lookup k l = none) :
    (insertEntry k x l).Perm ((k, x) :: l) := by
  induction l with
  | nil => exact List.Perm.refl _
  | cons e l ih =>
    obtain ⟨k', x'⟩ := e
    rw [lookup_cons] at h
    split_ifs at h with hk
    unfold insertEntry
    rw [if_neg hk]
    split_ifs
    · exact List.Perm.refl _
    · exact ((ih h).cons _).trans (List.Perm.swap _ _ _)

/-- a fresh key adds one entry -/
theorem perm_insert {m : OrdMap κ ν} {k : κ} (x : ν) (h : m.get? k = none) :
    (m.insert k x).entries.Perm ((k, x) :: m.entries) := perm_insertEntry x h

/-- the entries of a map are one of them and the rest -/
theorem perm_erase {m : OrdMap κ ν} {k : κ} {x : ν} (h : m.get? k = some x) :
    m.entries.Perm ((k, x) :: (m.erase k).entries) := by
  have hback : (m.erase k).insert k x = m := by
    refine ext_get? fun j => ?_
    rw [get?_insert, get?_erase]
    split_ifs with hj
    · rw [hj, h]
    · rfl
  have hperm := perm_insert (m:=m.erase k) (k:=k) x (by rw [get?_erase, if_pos rfl])
  rwa [hback] at hperm

theorem insert_erase_same (m : OrdMap κ ν) (k : κ) (x : ν) :
    (m.erase k).insert k x = m.insert k x := by
  refine ext_get? fun j => ?_
  rw [get?_insert, get?_insert, get?_erase]
  split_ifs <;> rfl

/-- the entries after an insertion -/
theorem perm_insert_erase (m : OrdMap κ ν) (k : κ) (x : ν) :
    (m.insert k x).entries.Perm ((k, x) :: (m.erase k).entries) := by
  have hperm := perm_insert (m:=m.erase k) (k:=k) x (by rw [get?_erase, if_pos rfl])
  rwa [insert_erase_same] at hperm

/-- two maps with the same entries in some order are equal -/
theorem ext_perm {m m' : OrdMap κ ν} (h : m.entries.Perm m'.entries) : m = m' := by
  refine ext_get? fun k => Option.ext fun x => ?_
  rw [← mem_entries_iff, ← mem_entries_iff]
  exact h.mem_iff

/-- the entries whose keys pass a test -/
def filterKeys (m : OrdMap κ ν) (P : κ → Bool) : OrdMap κ ν :=
  ⟨m.entries.filter (fun e => P e.1), m.sorted.filter _⟩

theorem mem_keys_filterKeys {m : OrdMap κ ν} {P : κ → Bool} {k : κ} :
    k ∈ (m.filterKeys P).keys ↔ k ∈ m.keys ∧ P k = true := by
  simp [keys, filterKeys, and_comm]

/-- the entries that meet a condition (`retain`) -/
def retain (m : OrdMap κ ν) (P : κ → ν → Bool) : OrdMap κ ν :=
  ⟨m.entries.filter fun e => P e.1 e.2, m.sorted.sublist List.filter_sublist⟩

theorem get?_retain {m : OrdMap κ ν} {P : κ → ν → Bool} {k : κ} {x : ν} :
    (m.retain P).get? k = some x ↔ m.get? k = some x ∧ P k x = true := by
  rw [← mem_entries_iff, ← mem_entries_iff]
  exact List.mem_filter

/-- `BTreeMap::extend`: the entries of another map inserted in order -/
def extend (m m' : OrdMap κ ν) : OrdMap κ ν :=
  m'.entries.foldl (fun acc e => acc.insert e.1 e.2) m

/-- insertions at different free keys add entries -/
theorem perm_foldl_insert {l : List (κ × ν)} {m : OrdMap κ ν} (hnew : ∀ e ∈ l, m.get? e.1 = none)
    (hnd : (l.map Prod.fst).Nodup) :
    (l.foldl (fun acc e => acc.insert e.1 e.2) m).entries.Perm (m.entries ++ l) := by
  induction l generalizing m with
  | nil => simp
  | cons e l ih =>
    obtain ⟨hne, hnd'⟩ := List.nodup_cons.mp hnd
    rw [List.foldl_cons]
    refine (ih (fun f hf => ?_) hnd').trans ?_
    · rw [get?_insert_of_ne]
      · exact hnew f (List.mem_cons_of_mem _ hf)
      · intro heq
        exact hne (heq ▸ List.mem_map_of_mem hf)
    · refine ((perm_insert e.2 (hnew e List.mem_cons_self)).append_right l).trans ?_
      exact List.perm_middle.symm

/-- maps with no key in common -/
theorem perm_extend {m m' : OrdMap κ ν} (h : ∀ k ∈ m'.keys, m.get? k = none) :
    (m.extend m').entries.Perm (m.entries ++ m'.entries) :=
  perm_foldl_insert (fun _ he => h _ (List.mem_map_of_mem he)) m'.keys_nodup

theorem map_keys (m : OrdMap κ ν) {β : Type} (f : κ → β) (g : ν → β)
    (h : ∀ k x, m.get? k = some x → f k = g x) : m.keys.map f = m.values.map g := by
  rw [keys, values, List.map_map, List.map_map]
  exact List.map_congr_left (fun e he => h e.1 e.2 (mem_entries_iff.mp he))

theorem length_keys (m : OrdMap κ ν) : m.keys.length = m.size := List.length_map _

end OrdMap
