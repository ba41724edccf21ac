import Mathlib.Data.Nat.Notation
import Mathlib.Logic.Function.Basic
import Mathlib.Tactic.SplitIfs

/-!
# Copying into a memory

A memory is a function of the address.  `overlay a n f g` is `g` after `f 0, f 1, .. , f (n - 1)`
have been put at `a`.
-/

namespace Ch32h4

variable {α : Type*} {a n m i x : ℕ} {f f' g : ℕ → α}

/-- `g` with the first `n` values of `f` from `a` on. -/
def overlay (a n : ℕ) (f g : ℕ → α) : ℕ → α :=
  fun x => if a ≤ x ∧ x < a + n then f (x - a) else g x

theorem overlay_add (h : i < n) : overlay a n f g (a + i) = f i := by
  rw [overlay, if_pos (by omega), Nat.add_sub_cancel_left]

theorem overlay_of_lt (h : x < a) : overlay a n f g x = g x := by
  rw [overlay, if_neg (by omega)]

theorem overlay_of_ge (h : a + n ≤ x) : overlay a n f g x = g x := by
  rw [overlay, if_neg (by omega)]

/-- Outside of `[a, a + m)` nothing moves, if `n` is at most `m`. -/
theorem overlay_outside (hn : n ≤ m) (h : x < a ∨ a + m ≤ x) : overlay a n f g x = g x := by
  rcases h with h | h
  · exact overlay_of_lt h
  · exact overlay_of_ge (by omega)

@[simp] theorem overlay_zero : overlay a 0 f g = g := by
  funext x
  rw [overlay, if_neg (by omega)]

/-- One value more. -/
theorem overlay_succ : overlay a (n + 1) f g = Function.update (overlay a n f g) (a + n) (f n) := by
  funext x
  by_cases hx : x = a + n
  · rw [hx, Function.update_self, overlay_add (Nat.lt_succ_self n)]
  · rw [Function.update_of_ne hx, overlay, overlay]
    split_ifs <;> first | rfl | omega

/-- Two copies one behind the other. -/
theorem overlay_append :
    overlay (a + n) m (fun i => f (n + i)) (overlay a n f g) = overlay a (n + m) f g := by
  funext x
  by_cases hsecond : a + n ≤ x ∧ x < a + n + m
  · have hx : n + (x - (a + n)) = x - a := by omega
    rw [overlay, if_pos hsecond, overlay, if_pos (by omega), hx]
  · rw [overlay, if_neg hsecond, overlay, overlay]
    split_ifs <;> first | rfl | omega

theorem overlay_congr (h : ∀ i < n, f i = f' i) : overlay a n f g = overlay a n f' g := by
  funext x
  rw [overlay, overlay]
  split_ifs with hx
  · exact h _ (by omega)
  · rfl

end Ch32h4
