import Mathlib.Data.List.MinMax
import Mathlib.Data.Prod.Lex

/-!
# The first minimum of a list

`List.argmin` picks the first of the least elements (what `min_by_key` returns).  In a list that
ascends by some key this is the least element by value and then by key.
-/

namespace ArgMin
variable {α β κ τ : Type} [LinearOrder τ]

theorem argmin_map (f : β → τ) (g : α → β) (l : List α) :
    (l.map g).argmin f = (l.argmin (fun a => f (g a))).map g := by
  induction l with
  | nil => rfl
  | cons a l ih =>
    rw [List.map_cons, List.argmin_cons, List.argmin_cons, ih]
    cases l.argmin (fun a => f (g a)) with
    | none => rfl
    | some b =>
      show (if f (g b) < f (g a) then some (g b) else some (g a)) = Option.map g (if _ then _ else _)
      split_ifs <;> rfl

theorem argmin_least [LinearOrder κ] {f : α → τ} {key : α → κ} {l : List α}
    (hsorted : l.Pairwise (fun a b => key a < key b)) {m : α} (h : l.argmin f = some m) :
    m ∈ l ∧ ∀ a ∈ l, toLex (f m, key m) ≤ toLex (f a, key a) := by
  induction l generalizing m with
  | nil => cases h
  | cons a l ih =>
    obtain ⟨hhead, htail⟩ := List.pairwise_cons.mp hsorted
    rw [List.argmin_cons] at h
    cases hrest : l.argmin f with
    | none =>
      rw [hrest] at h
      cases h
      rw [List.argmin_eq_none.mp hrest]
      simp
    | some b =>
      rw [hrest] at h
      obtain ⟨hmem, hleast⟩ := ih htail hrest
      change (if f b < f a then some b else some a) = some m at h
      split_ifs at h with hlt
      · cases h
        refine ⟨List.mem_cons_of_mem _ hmem, fun x hx => ?_⟩
        rcases List.mem_cons.mp hx with rfl | hx
        · exact Prod.Lex.toLex_le_toLex.mpr (Or.inl hlt)
        · exact hleast x hx
      · cases h
        refine ⟨List.mem_cons_self, fun x hx => ?_⟩
        rcases List.mem_cons.mp hx with rfl | hx
        · exact le_rfl
        -- the head comes first, so it wins against an equal value further on
        · have hb : f b ≤ f x := by
            rcases Prod.Lex.toLex_le_toLex.mp (hleast x hx) with hb | hb
            · exact hb.le
            · exact hb.1.le
          rcases lt_or_eq_of_le ((not_lt.mp hlt).trans hb) with hax | hax
          · exact Prod.Lex.toLex_le_toLex.mpr (Or.inl hax)
          · exact Prod.Lex.toLex_le_toLex.mpr (Or.inr ⟨hax, (hhead x hx).le⟩)

end ArgMin
