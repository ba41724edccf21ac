import Ch32h4.Divider
import Ch32h4.Sd.Clock
import Mathlib.Algebra.Order.Field.Rat
import Mathlib.Tactic.FieldSimp
import Mathlib.Tactic.NormNum
import Mathlib.Tactic.Positivity

/-!
# The card is not clocked too fast

`sd_set_clock` rounds its divider up, so what it programs does not overshoot, unless the divider it
wants is past the end of the field: `divider_fits` and, as the exact condition,
`fits_and_sdck_le_iff`.  There are two more ways to overshoot, both by less than one hertz:

* `hz >= src / 31` compares with a quotient that is rounded down, so the fast mode is also entered
  with a `src` between `31 * hz` and `31 * hz + 31`;
* the slow mode divides `src / 64` rounded down, and what is lost there is not lost in the hardware.
-/

namespace Ch32h4.Sd

open Divider

variable {src num hz freq : ℕ} {switched : Bool}

/-! ### The divider -/

/-- With a request `ch32h4_sd_begin` admits, the sum in `sd_set_clock` does not wrap. -/
theorem divider_eq_clip (hpos : 0 < hz) (hsum : num + hz ≤ 2 ^ 32) :
    divider num hz = clip 2 31 (num ⌈/⌉ hz) := by
  have hnum : (num + hz + (2 ^ 32 - 1)) % 2 ^ 32 = num + hz - 1 := by omega
  simp only [divider, hnum, clip, Nat.ceilDiv_eq_add_pred_div]
  split_ifs <;> omega

theorem divider_mem (num hz : ℕ) : 2 ≤ divider num hz ∧ divider num hz ≤ 31 := by
  simp only [divider]
  split_ifs <;> omega

/-- The divider fits its field whatever the clocks are. -/
theorem divider_fits (src hz : ℕ) :
    2 ≤ (setClock src hz).clkDiv.div ∧ (setClock src hz).clkDiv.div ≤ 31 := by
  rw [setClock]
  split_ifs
  · exact divider_mem src hz
  · exact divider_mem (src / 64) hz

/-! ### The two modes -/

theorem sdck_le_iff (h : hz ≥ src / 31) :
    (setClock src hz).clkDiv.sdck src ≤ hz ↔ src ≤ hz * divider src hz := by
  have hdiv : (0 : ℚ) < divider src hz := by
    have := (divider_mem src hz).1
    positivity
  rw [setClock, if_pos h]
  simp only [ClkDiv.sdck, ↓reduceIte]
  rw [div_le_iff₀ hdiv]
  exact_mod_cast Iff.rfl

theorem sdck_le_iff_slow (h : ¬ hz ≥ src / 31) :
    (setClock src hz).clkDiv.sdck src ≤ hz ↔ src ≤ 64 * (hz * divider (src / 64) hz) := by
  have hdiv : (0 : ℚ) < divider (src / 64) hz := by
    have := (divider_mem (src / 64) hz).1
    positivity
  rw [setClock, if_neg h]
  simp only [ClkDiv.sdck, Bool.false_eq_true, ↓reduceIte]
  rw [div_le_iff₀ (by norm_num), div_le_iff₀ hdiv, mul_assoc, mul_comm (64 : ℚ), ← mul_assoc,
    mul_comm _ (64 : ℚ)]
  exact_mod_cast Iff.rfl

/-! ### The requests of `ch32h4_sd_begin` -/

/-- `sd_card_identify` asks for no frequency that `ch32h4_sd_begin` would not admit. -/
theorem Admitted.requests (h : Admitted freq) (hz : ℕ) (hmem : hz ∈ requests freq switched) :
    Admitted hz := by
  rcases List.mem_cons.mp hmem with rfl | hlast
  · decide
  · rw [List.mem_singleton.mp hlast]
    split_ifs
    · exact h
    · decide
    · exact h

/-- The one it asks for in the end is not above the one of the caller. -/
theorem getLast_requests_le :
    (Sd.requests freq switched).getLast (by simp [Sd.requests]) ≤ freq := by
  simp only [Sd.requests, List.getLast_cons_cons, List.getLast_singleton]
  split_ifs <;> omega

/-! ### When the clock is in bounds -/

/-- Where the divider `sd_set_clock` wants exists, and the slow mode loses nothing to rounding. -/
def Reaches (src hz : ℕ) : Prop :=
  if hz ≥ src / 31 then src ≤ 31 * hz
  else src / 64 ≤ 31 * hz ∧ (hz ∣ src / 64 ∧ 2 * hz ≤ src / 64 → 64 ∣ src)

instance (src hz : ℕ) : Decidable (Reaches src hz) := by
  unfold Reaches
  infer_instance

/-- **The divider fits its field, and the card clock is no higher than the request exactly when the
divider that is wanted is not past the end of the field and `src / 64` is not rounded.** -/
theorem fits_and_sdck_le_iff (hsrc : src < 2 ^ 32) (h : Admitted hz) :
    ((setClock src hz).clkDiv.div ≤ 31 ∧ (setClock src hz).clkDiv.sdck src ≤ hz) ↔
      Reaches src hz := by
  obtain ⟨hlo, hhi⟩ := h
  have hpos : 0 < hz := by omega
  rw [and_iff_right (divider_fits src hz).2, Reaches]
  by_cases hfast : hz ≥ src / 31
  · rw [sdck_le_iff hfast, if_pos hfast, divider_eq_clip hpos (by omega), mul_comm 31]
    exact le_mul_clip_ceilDiv_iff hpos
  · rw [sdck_le_iff_slow hfast, if_neg hfast, divider_eq_clip hpos (by omega)]
    -- the hardware divides `src` in two stages, and the code only sees the first one rounded
    rw [le_mul_iff_div_le 64 (by decide), le_mul_clip_ceilDiv_iff hpos, mul_comm 31]
    refine and_congr_right fun hreach => ?_
    rw [eq_mul_clip_ceilDiv_iff hpos (by decide) hreach, mul_comm 2]

/-- At 400 MHz a card is clocked with what it is asked for at 25 MHz. -/
theorem fits_and_sdck_le_default :
    ((setClock 400000000 25000000).clkDiv.div ≤ 31 ∧
      (setClock 400000000 25000000).clkDiv.sdck 400000000 ≤ (25000000 : ℕ)) ↔
      Reaches 400000000 25000000 :=
  fits_and_sdck_le_iff (by decide) (by decide)

/-- At 400 MHz there is no divider for 100 kHz: the card runs at more than twice that. -/
theorem exists_sdck_gt :
    ¬ ∀ src hz : ℕ, src < 2 ^ 32 → Admitted hz →
      (setClock src hz).clkDiv.div ≤ 31 ∧ (setClock src hz).clkDiv.sdck src ≤ hz := by
  intro h
  have hslow := (h 400000000 100000 (by decide) (by decide)).2
  rw [sdck_le_iff_slow (by decide)] at hslow
  exact absurd hslow (by decide)

end Ch32h4.Sd
