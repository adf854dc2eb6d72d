import Mathlib.Data.List.DropRight
import Mathlib.Data.List.Pairwise

/-!
# The most recent entries

A list of bounded length with one entry for each key, the most recent one last: a new entry replaces
the one with its key, and when there are too many the oldest one goes.

* `lasts`            the last entry of each key in a history; `lasts_concat`: one more entry;
* `recent`           the latest of them; `pairwise_recent`, `length_recent_le`, `mem_of_mem_recent`;
* `recent_concat`    **a new entry refreshes the list.**
-/

namespace Recent
variable {α κ : Type} [DecidableEq κ] {key : α → κ} {cap : Nat}

/-- the last entry of each key -/
def lasts (key : α → κ) (history : List α) : List α := history.pwFilter fun a b => key a ≠ key b

/-- the latest of them -/
def recent (key : α → κ) (cap : Nat) (history : List α) : List α := (lasts key history).rtake cap

/-- a new entry -/
def refresh (key : α → κ) (cap : Nat) (l : List α) (a : α) : List α :=
  let l := l.eraseP (fun b => key b = key a) ++ [a]
  if l.length > cap then l.tail else l

theorem pairwise_lasts (history : List α) : (lasts key history).Pairwise fun a b => key a ≠ key b :=
  List.pairwise_pwFilter _

theorem lasts_concat (history : List α) (a : α) :
    lasts key (history ++ [a]) = (lasts key history).filter (fun b => key b ≠ key a) ++ [a] := by
  induction history with
  | nil => rfl
  | cons x xs ih =>
    unfold lasts at ih ⊢
    rw [List.cons_append]
    by_cases hlast : ∀ b ∈ xs.pwFilter (fun a b => key a ≠ key b), key x ≠ key b
    · rw [List.pwFilter_cons_of_pos hlast]
      by_cases hkey : key x = key a
      · rw [List.pwFilter_cons_of_neg, ih, List.filter_cons_of_neg (by simp [hkey])]
        rw [ih]
        exact fun h => h a (by simp) hkey
      · rw [List.pwFilter_cons_of_pos, ih, List.filter_cons_of_pos (by simp [hkey]), List.cons_append]
        rw [ih]
        intro b hb
        rcases List.mem_append.mp hb with hb | hb
        · exact hlast b (List.mem_of_mem_filter hb)
        · rw [List.mem_singleton.mp hb]
          exact hkey
    · rw [List.pwFilter_cons_of_neg hlast, List.pwFilter_cons_of_neg, ih]
      rw [ih]
      push Not at hlast
      obtain ⟨b, hb, hxb⟩ := hlast
      intro h
      by_cases hba : key b = key a
      · exact h a (by simp) (hxb.trans hba)
      · exact h b (List.mem_append_left _ (List.mem_filter.mpr ⟨hb, by simp [hba]⟩)) hxb

theorem eraseP_eq_filter {l : List α} (h : l.Pairwise fun a b => key a ≠ key b) (k : κ) :
    l.eraseP (fun b => key b = k) = l.filter (fun b => key b ≠ k) := by
  induction l with
  | nil => rfl
  | cons x xs ih =>
    obtain ⟨hx, hxs⟩ := List.pairwise_cons.mp h
    by_cases hkey : key x = k
    · rw [List.eraseP_cons_of_pos (by simp [hkey]), List.filter_cons_of_neg (by simp [hkey]),
        List.filter_eq_self.mpr]
      intro b hb
      have hne := hx b hb
      rw [hkey] at hne
      simpa using hne.symm
    · rw [List.eraseP_cons_of_neg (by simp [hkey]), List.filter_cons_of_pos (by simp [hkey]), ih hxs]

/-! ## the end of a list -/

theorem rtake_append {old fresh : List α} (h : cap ≤ fresh.length ∨ old = []) :
    (old ++ fresh).rtake cap = fresh.rtake cap := by
  rcases h with hle | rfl
  · unfold List.rtake
    have hdrop : (old ++ fresh).length - cap = old.length + (fresh.length - cap) := by
      rw [List.length_append]
      omega
    rw [hdrop, List.drop_append]
    simp
  · rw [List.nil_append]

theorem rtake_of_le_succ {fresh : List α} (h : fresh.length ≤ cap + 1) :
    fresh.rtake cap = if fresh.length > cap then fresh.tail else fresh := by
  unfold List.rtake
  split_ifs with hlong
  · have hone : fresh.length - cap = 1 := by omega
    rw [hone, List.drop_one]
  · have hzero : fresh.length - cap = 0 := by omega
    rw [hzero, List.drop_zero]

theorem length_rtake (l : List α) : (l.rtake cap).length = min cap l.length := by
  unfold List.rtake
  rw [List.length_drop]
  omega

/-! ## the most recent entries -/

section
variable {history : List α} {a : α}

theorem pairwise_recent : (recent key cap history).Pairwise fun a b => key a ≠ key b :=
  (pairwise_lasts history).sublist (List.drop_sublist _ _)

theorem length_recent_le : (recent key cap history).length ≤ cap := by
  unfold recent
  rw [length_rtake]
  exact Nat.min_le_left _ _

theorem mem_of_mem_recent (h : a ∈ recent key cap history) : a ∈ history :=
  List.pwFilter_subset _ (List.mem_of_mem_drop h)

/-- **A new entry refreshes the list.** -/
theorem recent_concat (history : List α) (a : α) :
    recent key cap (history ++ [a]) = refresh key cap (recent key cap history) a := by
  -- what is too old, and what is left of the others
  let old := (lasts key history).take ((lasts key history).length - cap)
  let kept := (recent key cap history).filter fun b => key b ≠ key a
  have hkept : (recent key cap history).eraseP (fun b => key b = key a) = kept :=
    eraseP_eq_filter pairwise_recent _
  have hsmall : kept.length ≤ (recent key cap history).length := List.length_filter_le _ _
  have hlarge : (recent key cap history).length - 1 ≤ kept.length := by
    rw [← hkept]
    exact List.le_length_eraseP
  have hlen : (recent key cap history).length = min cap (lasts key history).length := length_rtake _
  have hnew : recent key cap (history ++ [a])
      = (old.filter (fun b => key b ≠ key a) ++ (kept ++ [a])).rtake cap := by
    have hsplit : old ++ recent key cap history = lasts key history := List.take_append_drop _ _
    rw [← List.append_assoc, ← List.filter_append, hsplit, ← lasts_concat]
    rfl
  have hfresh : cap ≤ (kept ++ [a]).length ∨ old.filter (fun b => key b ≠ key a) = [] := by
    rw [List.length_append, List.length_singleton]
    by_cases hle : cap ≤ (lasts key history).length
    · exact .inl (by omega)
    · have hzero : (lasts key history).length - cap = 0 := by omega
      refine .inr ?_
      show List.filter _ ((lasts key history).take ((lasts key history).length - cap)) = []
      rw [hzero, List.take_zero, List.filter_nil]
  unfold refresh
  rw [hnew, rtake_append hfresh, hkept]
  refine rtake_of_le_succ ?_
  rw [List.length_append, List.length_singleton]
  omega

end

end Recent
