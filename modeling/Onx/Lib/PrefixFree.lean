import Mathlib.Data.List.Basic
import Mathlib.Logic.Function.Basic

/-!
# Self-delimiting words

A code writes each value as a word.  It tells a part of the value if that part, and where the word ends,
can be seen from the word with anything behind it.

* `Tells`, `PrefixFree`   the part, and the whole value;
* `Tells.append`          words one after the other tell both parts;
* `Tells.option`          a mark and a word tell whether there is a value, and which;
* `PrefixFree.of_read`    what is read back whatever follows is prefix-free;
* `PrefixFree.eq_of_prefix`   no word of a prefix-free code begins another.
-/

namespace Codes

section
variable {σ τ α β γ : Type}

/-- the word of `x`, with anything behind it, tells `v x` and where it ends -/
def Tells (f : σ → List β) (v : σ → α) : Prop :=
  ∀ x y r s, f x ++ r = f y ++ s → v x = v y ∧ r = s

abbrev PrefixFree (f : σ → List β) : Prop := Tells f id

variable {f : σ → List β} {v : σ → α}

/-- words of one length -/
theorem Tells.of_length {n : Nat} (hlen : ∀ x, (f x).length = n)
    (hinj : ∀ x y, f x = f y → v x = v y) : Tells f v := by
  intro x y r s h
  obtain ⟨hword, hrest⟩ := List.append_inj h ((hlen x).trans (hlen y).symm)
  exact ⟨hinj x y hword, hrest⟩

theorem Tells.append {g : σ → List β} {w : σ → γ} (hf : Tells f v) (hg : Tells g w) :
    Tells (fun x => f x ++ g x) fun x => (v x, w x) := by
  intro x y r s h
  rw [List.append_assoc, List.append_assoc] at h
  obtain ⟨hfirst, h⟩ := hf x y _ _ h
  obtain ⟨hsecond, hrest⟩ := hg x y r s h
  exact ⟨Prod.ext hfirst hsecond, hrest⟩

/-- the word of a field -/
theorem Tells.comp (hf : Tells f v) (k : τ → σ) : Tells (fun x => f (k x)) fun x => v (k x) :=
  fun x y r s h => hf (k x) (k y) r s h

/-- the word tells the value if it tells enough of it -/
theorem Tells.prefixFree (hf : Tells f v) (hv : Function.Injective v) : PrefixFree f :=
  fun x y r s h => (hf x y r s h).imp_left fun hxy => hv hxy

/-- a mark, and a word behind it if there is a value -/
theorem Tells.option {present absent : β} (hne : present ≠ absent) (hf : PrefixFree f) :
    PrefixFree fun o : Option σ => o.elim [absent] fun x => present :: f x := by
  intro o o' r s h
  cases o with
  | none =>
    cases o' with
    | none => exact ⟨rfl, List.tail_eq_of_cons_eq h⟩
    | some y => exact absurd (List.head_eq_of_cons_eq h).symm hne
  | some x =>
    cases o' with
    | none => exact absurd (List.head_eq_of_cons_eq h) hne
    | some y => exact (hf x y r s (List.tail_eq_of_cons_eq h)).imp_left (congrArg some)

namespace PrefixFree

/-- what is read back, whatever follows -/
theorem of_read {ρ : Type} {read : List β → ρ} {result : σ → ρ} (hresult : Function.Injective result)
    (hread : ∀ x r, read (f x ++ r) = result x) : PrefixFree f := by
  intro x y r s h
  have hxy : x = y := hresult ((hread x r).symm.trans ((congrArg read h).trans (hread y s)))
  rw [hxy] at h
  exact ⟨hxy, List.append_cancel_left h⟩

theorem injective (hf : PrefixFree f) : Function.Injective f :=
  fun x y h => (hf x y [] [] (congrArg (· ++ []) h)).1

/-- **No word begins another.** -/
theorem eq_of_prefix (hf : PrefixFree f) {x y : σ} (h : f x <+: f y) : x = y := by
  obtain ⟨rest, hrest⟩ := h
  exact (hf x y rest [] (hrest.trans (List.append_nil _).symm)).1

end PrefixFree

end

end Codes
