import Mathlib.Data.List.Perm.Basic
import Mathlib.Data.List.Nodup
import Mathlib.Data.BitVec

/-!
# Binary tries

Tries over `w`-bit keys that branch on the bits of a key from the most significant one, and stop
at a subtree with at most one entry.

* `ofItems`          the trie of a list of entries;
* `entries_ofItems`  it holds these entries, so they can be read back from it;
* `reach`            the node at which the bits of a key end: empty, or a leaf of one of the
                     entries (`reach_ofItems`), the leaf of the key if it has one
                     (`reach_ofItems_of_mem`).
-/

inductive BitTrie (w : Nat) (α : Type) where
  | empty
  | leaf (key : BitVec w) (val : α)
  | branch (left right : BitTrie w α)

namespace BitTrie
variable {w : Nat} {α : Type}

/-- the entries whose key has the bit `b` behind `w - 1 - n` bits -/
def side (n : Nat) (b : Bool) (items : List (BitVec w × α)) : List (BitVec w × α) :=
  items.filter (fun x => x.1.getMsbD (w - 1 - n) == b)

/-- the trie below `w - n` bits -/
def ofItems : Nat → List (BitVec w × α) → BitTrie w α
  | _, [] => empty
  | _, [(key, val)] => leaf key val
  | 0, (key, val) :: _ => leaf key val
  | n + 1, items => branch (ofItems n (side n false items)) (ofItems n (side n true items))

def entries : BitTrie w α → List (BitVec w × α)
  | empty => []
  | leaf key val => [(key, val)]
  | branch left right => left.entries ++ right.entries

/-- where the bits of a key lead, from bit `w - n` on -/
def reach (key : BitVec w) : Nat → BitTrie w α → BitTrie w α
  | n + 1, branch left right => reach key n (if key.getMsbD (w - 1 - n) then right else left)
  | _, t => t

def isBranch : BitTrie w α → Bool
  | branch _ _ => true
  | _ => false

theorem mem_side {n : Nat} {b : Bool} {items : List (BitVec w × α)} {x : BitVec w × α} :
    x ∈ side n b items ↔ x ∈ items ∧ x.1.getMsbD (w - 1 - n) = b := by
  simp [side]

theorem side_perm (n : Nat) (items : List (BitVec w × α)) :
    (side n false items ++ side n true items).Perm items := by
  have h := List.filter_append_perm (fun x : BitVec w × α => x.1.getMsbD (w - 1 - n) == false) items
  have hnot : (fun x : BitVec w × α => !(x.1.getMsbD (w - 1 - n) == false))
      = fun x => x.1.getMsbD (w - 1 - n) == true := by
    funext x
    simp
  rw [hnot] at h
  exact h

/-! ## entries below a prefix -/

/-- distinct keys that agree before bit `w - n` -/
structure Below (n : Nat) (items : List (BitVec w × α)) : Prop where
  nodup : (items.map Prod.fst).Nodup
  agree : ∀ x ∈ items, ∀ y ∈ items, ∀ i < w - n, x.1.getMsbD i = y.1.getMsbD i

theorem below_top {items : List (BitVec w × α)} (h : (items.map Prod.fst).Nodup) :
    Below w items where
  nodup := h
  agree := fun _ _ _ _ i hi => by
    rw [Nat.sub_self] at hi
    exact absurd hi (Nat.not_lt_zero i)

theorem Below.side {n : Nat} {items : List (BitVec w × α)} (h : Below (n + 1) items) (b : Bool) :
    Below n (side n b items) where
  nodup := h.nodup.sublist (List.filter_sublist.map Prod.fst)
  agree := by
    intro x hx y hy i hi
    obtain ⟨hx, hxb⟩ := mem_side.mp hx
    obtain ⟨hy, hyb⟩ := mem_side.mp hy
    by_cases hlast : i = w - 1 - n
    · rw [hlast, hxb, hyb]
    · exact h.agree x hx y hy i (by omega)

/-- no two keys agree in all bits -/
theorem Below.length_le_one {items : List (BitVec w × α)} (h : Below 0 items) :
    items.length ≤ 1 := by
  match items with
  | [] => exact Nat.zero_le _
  | [_] => exact Nat.le_refl _
  | x :: y :: rest =>
    have hkey : x.1 = y.1 := by
      refine BitVec.eq_of_getMsbD_eq fun i hi => ?_
      exact h.agree x List.mem_cons_self y (List.mem_cons_of_mem _ List.mem_cons_self) i hi
    have hnodup := h.nodup
    simp [hkey] at hnodup

/-! ## what a trie holds -/

/-- **A trie holds its entries.** -/
theorem entries_ofItems : ∀ n (items : List (BitVec w × α)), Below n items →
    (ofItems n items).entries.Perm items := by
  intro n
  induction n with
  | zero =>
    intro items h
    match items with
    | [] => exact List.Perm.refl _
    | [(key, val)] => exact List.Perm.refl _
    | x :: y :: rest =>
      have hlen := h.length_le_one
      simp at hlen
  | succ n ih =>
    intro items h
    match items with
    | [] => exact List.Perm.refl _
    | [(key, val)] => exact List.Perm.refl _
    | x :: y :: rest =>
      have hleft := ih _ (h.side false)
      have hright := ih _ (h.side true)
      show ((ofItems n (side n false (x :: y :: rest))).entries
        ++ (ofItems n (side n true (x :: y :: rest))).entries).Perm _
      exact (hleft.append hright).trans (side_perm n (x :: y :: rest))

/-- **The bits of a key end in the empty subtree or in the leaf of an entry.** -/
theorem reach_ofItems (key : BitVec w) : ∀ n (items : List (BitVec w × α)),
    reach key n (ofItems n items) = empty
      ∨ ∃ x ∈ items, reach key n (ofItems n items) = leaf x.1 x.2 := by
  intro n
  induction n with
  | zero =>
    intro items
    match items with
    | [] => exact Or.inl rfl
    | [x] => exact Or.inr ⟨x, List.mem_cons_self, rfl⟩
    | x :: _ :: _ => exact Or.inr ⟨x, List.mem_cons_self, rfl⟩
  | succ n ih =>
    intro items
    match items with
    | [] => exact Or.inl rfl
    | [x] => exact Or.inr ⟨x, List.mem_cons_self, rfl⟩
    | x :: y :: rest =>
      have hstep : reach key (n + 1) (ofItems (n + 1) (x :: y :: rest))
          = reach key n (ofItems n (side n (key.getMsbD (w - 1 - n)) (x :: y :: rest))) := by
        show reach key n (if key.getMsbD (w - 1 - n) then _ else _) = _
        cases key.getMsbD (w - 1 - n) <;> rfl
      rw [hstep]
      rcases ih (side n (key.getMsbD (w - 1 - n)) (x :: y :: rest)) with h | ⟨z, hz, h⟩
      · exact Or.inl h
      · exact Or.inr ⟨z, (mem_side.mp hz).1, h⟩

/-- **The bits of a key that has an entry end in its leaf.** -/
theorem reach_ofItems_of_mem {key : BitVec w} {val : α} : ∀ n (items : List (BitVec w × α)),
    Below n items → (key, val) ∈ items → reach key n (ofItems n items) = leaf key val := by
  intro n
  induction n with
  | zero =>
    intro items h hmem
    match items with
    | [x] =>
      cases List.mem_singleton.mp hmem
      rfl
    | x :: y :: rest =>
      have hlen := h.length_le_one
      simp at hlen
  | succ n ih =>
    intro items h hmem
    match items with
    | [x] =>
      cases List.mem_singleton.mp hmem
      rfl
    | x :: y :: rest =>
      have hside := ih (side n (key.getMsbD (w - 1 - n)) (x :: y :: rest)) (h.side _)
        (mem_side.mpr ⟨hmem, rfl⟩)
      show reach key n (if key.getMsbD (w - 1 - n) then _ else _) = _
      cases hbit : key.getMsbD (w - 1 - n) with
      | false =>
        rw [hbit] at hside
        exact hside
      | true =>
        rw [hbit] at hside
        exact hside

end BitTrie
