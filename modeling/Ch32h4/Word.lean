import Mathlib.Algebra.Order.Ring.Int

/-!
# Machine words

An unsigned word of `w` bits answers for an exact result with its residue.  A computation written
over an `Arith`, the way its operations answer, runs with `wrapping w` as the machine runs it, and
with `checked w`, which has no answer for a result that does not fit.  So "no operation wraps" says
that the checked run comes to the same end, and what holds of every `Exact` arithmetic holds of
both.
-/

namespace Ch32h4

/-- The answer of an operation for its exact result. -/
abbrev Arith := ℤ → Option ℤ

namespace Arith

variable {w : ℕ} {x y : ℤ}

/-- The machine's: the residue. -/
def wrapping (w : ℕ) : Arith := fun x => some (x % 2 ^ w)

/-- No answer for what does not fit. -/
def checked (w : ℕ) : Arith := fun x => if 0 ≤ x ∧ x < 2 ^ w then some x else none

/-- An arithmetic answers exactly for whatever fits. -/
def Exact (w : ℕ) (arith : Arith) : Prop := ∀ x, 0 ≤ x → x < 2 ^ w → arith x = some x

theorem exact_wrapping : Exact w (wrapping w) := by
  intro x h0 hx
  rw [wrapping, Int.emod_eq_of_lt h0 hx]

theorem exact_checked : Exact w (checked w) := by
  intro x h0 hx
  rw [checked, if_pos ⟨h0, hx⟩]

theorem wrapping_eq : wrapping w x = some (x % 2 ^ w) := rfl

theorem checked_eq_some : checked w x = some y ↔ (0 ≤ x ∧ x < 2 ^ w) ∧ x = y := by
  simp [checked]

theorem checked_eq_none : checked w x = none ↔ x < 0 ∨ 2 ^ w ≤ x := by
  simp only [checked, ite_eq_right_iff, reduceCtorEq, imp_false, not_and, not_lt]
  constructor
  · intro h
    exact (lt_or_ge x 0).imp_right h
  · rintro (hneg | hbig) h0
    · exact absurd h0 (not_le.mpr hneg)
    · exact hbig

end Arith

end Ch32h4
