import Mathlib.Algebra.Order.Floor.Div
import Mathlib.Data.Nat.Basic

/-!
# Dividers

A clock is divided by a number that has to lie in the range `[lo, hi]` of a register field.  The
divider one wants is a rounded quotient, and what the field gets is that quotient clipped to the
range.  Rounding up never overshoots, and clipping does only at the upper end: what is divided then
stays at most `hz` exactly when it would with the largest divider there is
(`le_mul_clip_ceilDiv_iff`).
-/

namespace Ch32h4.Divider

/-- `d` clipped to `[lo, hi]`. -/
def clip (lo hi d : ℕ) : ℕ := min (max lo d) hi

variable {lo hi d src hz : ℕ}

@[simp] theorem clip_self (lo d : ℕ) : clip lo lo d = lo := by simp [clip]

theorem le_clip (h : lo ≤ hi) (d : ℕ) : lo ≤ clip lo hi d := le_min (le_max_left _ _) h

theorem clip_le (lo hi d : ℕ) : clip lo hi d ≤ hi := min_le_right _ _

theorem clip_pos (h : lo ≤ hi) (hlo : 0 < lo) (d : ℕ) : 0 < clip lo hi d :=
  hlo.trans_le (le_clip h d)

theorem clip_of_mem (hlo : lo ≤ d) (hhi : d ≤ hi) : clip lo hi d = d := by
  rw [clip, max_eq_right hlo, min_eq_left hhi]

/-- Within the range clipping only goes up. -/
theorem le_clip_self (h : d ≤ hi) : d ≤ clip lo hi d := le_min (le_max_right _ _) h

/-- What a clipped quotient, rounded up, divides is at most `hz` exactly when the range reaches
that far. -/
theorem le_mul_clip_ceilDiv_iff (hhz : 0 < hz) :
    src ≤ hz * clip lo hi (src ⌈/⌉ hz) ↔ src ≤ hz * hi := by
  constructor
  · intro h
    exact h.trans (Nat.mul_le_mul_left hz (clip_le lo hi _))
  · intro h
    have hreach : src ⌈/⌉ hz ≤ hi := (ceilDiv_le_iff_le_mul hhz).mpr h
    exact (ceilDiv_le_iff_le_mul hhz).mp (le_clip_self hreach)

/-- The bound is met exactly by a `src` that is a multiple of `hz`, and not below the range. -/
theorem eq_mul_clip_ceilDiv_iff (hhz : 0 < hz) (hlohi : lo ≤ hi) (h : src ≤ hz * hi) :
    src = hz * clip lo hi (src ⌈/⌉ hz) ↔ hz ∣ src ∧ hz * lo ≤ src := by
  constructor
  · intro heq
    refine ⟨⟨_, heq⟩, ?_⟩
    calc hz * lo ≤ hz * clip lo hi (src ⌈/⌉ hz) := Nat.mul_le_mul_left hz (le_clip hlohi _)
      _ = src := heq.symm
  · rintro ⟨⟨q, rfl⟩, hlow⟩
    have hquot : hz * q ⌈/⌉ hz = q := by
      simpa using smul_ceilDiv hhz q
    rw [hquot, clip_of_mem (Nat.le_of_mul_le_mul_left hlow hhz) (Nat.le_of_mul_le_mul_left h hhz)]

/-- Dividing in two stages and rounding in between loses something only where the bound is met. -/
theorem le_mul_iff_div_le (k : ℕ) (hk : 0 < k) :
    src ≤ k * d ↔ src / k ≤ d ∧ (src / k = d → k ∣ src) := by
  have hsplit : k * (src / k) + src % k = src := Nat.div_add_mod src k
  have hrest : src % k < k := Nat.mod_lt src hk
  constructor
  · intro h
    refine ⟨Nat.div_le_of_le_mul h, fun heq => ?_⟩
    rw [heq] at hsplit
    exact Nat.dvd_of_mod_eq_zero (by omega)
  · rintro ⟨hle, hdvd⟩
    rcases hle.lt_or_eq with hlt | heq
    · have hstage : k * (src / k + 1) ≤ k * d := Nat.mul_le_mul_left k hlt
      rw [Nat.mul_succ] at hstage
      omega
    · rw [← heq, Nat.mul_div_cancel' (hdvd heq)]

end Ch32h4.Divider
