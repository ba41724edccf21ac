import Ch32h4.Circular
import Ch32h4.Time.SysTick
import Mathlib.Order.Basic

/-!
# How long `delayMicroseconds` waits

`delayMicroseconds_sound_iff`: a call that returns has waited at least `us` microseconds without an
operation that wrapped if and only if the ticks of `us` microseconds fit in 32 bits, whatever the
bus clock is and wherever the samples of the counter fall.  Above that (42949672 at 100 MHz, under
43 seconds) the target is the product modulo `2 ^ 32`, and the wait is always too short
(`waited_lt_of_wraps`).

The difference that the loop takes from the counter is the time between two samples, under every
arithmetic that is exact for what fits (`elapsed_eq`), and so the loop waits for its target under
each (`delayLoop_spec`, `delayLoop_congr`).
-/

namespace Ch32h4.Time

variable {clk : Clock} {arith arith' : Arith} {reload : ℕ}

/-! ### The clock -/

theorem Clock.hclk_eq (clk : Clock) : clk.hclk = clk.ticksPerUs * 1000000 :=
  (Nat.div_mul_cancel clk.whole).symm

theorem Clock.ticksPerUs_pos (clk : Clock) : 0 < clk.ticksPerUs := by
  have hpos := clk.pos
  have heq := clk.hclk_eq
  omega

theorem Clock.ticksPerMs_eq (clk : Clock) : clk.ticksPerMs = clk.ticksPerUs * 1000 := by
  have heq := clk.hclk_eq
  unfold Clock.ticksPerMs
  omega

theorem Clock.ticksPerMs_pos (clk : Clock) : 0 < clk.ticksPerMs := by
  have hpos := clk.ticksPerUs_pos
  have heq := clk.ticksPerMs_eq
  omega

theorem Clock.ticksPerMs_lt (clk : Clock) : clk.ticksPerMs < 2 ^ 32 :=
  lt_of_le_of_lt (Nat.div_le_self _ _) clk.fits

/-! ### One difference of the counter -/

/-- What passes between two samples. -/
def Samples.gap (t : Samples reload) (i : ℕ) : ℕ := t.time (i + 1) - t.time i

theorem Samples.gap_lt (t : Samples reload) (i : ℕ) : t.gap i < reload := by
  have hle := t.le i
  have hlt := t.lt i
  unfold Samples.gap
  omega

theorem Samples.reload_pos (t : Samples reload) : 0 < reload :=
  lt_of_le_of_lt (Nat.zero_le _) (t.gap_lt 0)

theorem Samples.time_le (t : Samples reload) {i j : ℕ} (hij : i ≤ j) : t.time i ≤ t.time j :=
  monotone_nat_of_le_succ t.le hij

/-- **The difference is the time between the samples**, however the counter has started over. -/
theorem elapsed_eq (hexact : arith.Exact 32) (hreload : reload < 2 ^ 32) (t : Samples reload)
    (i : ℕ) : elapsed arith reload (t.cnt i) (t.cnt (i + 1)) = some (t.gap i : ℤ) := by
  have hpos : 0 < reload := t.reload_pos
  have hprev := Nat.mod_lt (t.time i) hpos
  have hnow := Nat.mod_lt (t.time (i + 1)) hpos
  have hgap := t.gap_lt i
  -- the slot of the second sample lies `gap` further on
  have hway : (t.time (i + 1) % reload + reload - t.time i % reload) % reload = t.gap i := by
    have hnext : t.time (i + 1) = t.time i + t.gap i := by
      have hle := t.le i
      unfold Samples.gap
      omega
    rw [hnext]
    exact Circular.mod_add_sub_mod hgap (t.time i)
  unfold elapsed Samples.cnt
  split_ifs with hle
  · have hle' : t.time i % reload ≤ t.time (i + 1) % reload := by exact_mod_cast hle
    have hdiff : t.time (i + 1) % reload - t.time i % reload = t.gap i := by
      rw [show t.time (i + 1) % reload + reload - t.time i % reload
          = t.time (i + 1) % reload - t.time i % reload + reload by omega,
        Nat.add_mod_right, Nat.mod_eq_of_lt (by omega)] at hway
      exact hway
    rw [hexact _ (by omega) (by omega), ← hdiff]
    push_cast [hle']
    rfl
  · have hlt : t.time (i + 1) % reload < t.time i % reload := by exact_mod_cast not_le.mp hle
    have hdiff : t.time (i + 1) % reload + reload - t.time i % reload = t.gap i := by
      rw [Nat.mod_eq_of_lt (by omega)] at hway
      exact hway
    rw [hexact _ (by omega) (by omega), Option.bind_some, hexact _ (by omega) (by omega)]
    congr 1
    omega

/-! ### The loop -/

/-- One round of the loop. -/
theorem delayLoop_succ (hexact : arith.Exact 32) (hreload : reload < 2 ^ 32) (t : Samples reload)
    (fuel i : ℕ) {remaining : ℤ} (hpos : 0 < remaining) (hfits : remaining < 2 ^ 32) :
    delayLoop arith t (fuel + 1) i remaining =
      if remaining ≤ t.gap i then some (i + 1)
      else delayLoop arith t fuel (i + 1) (remaining - t.gap i) := by
  rw [delayLoop, if_pos hpos, elapsed_eq hexact hreload, Option.bind_some]
  split_ifs with hle
  · rfl
  · rw [hexact _ (by omega) (by omega), Option.bind_some]

/-- **The loop waits for its target**, and for less than a reload period more. -/
theorem delayLoop_spec (hexact : arith.Exact 32) (hreload : reload < 2 ^ 32)
    (t : Samples reload) : ∀ (fuel i : ℕ) (remaining : ℤ) {n : ℕ}, 0 ≤ remaining →
      remaining < 2 ^ 32 → delayLoop arith t fuel i remaining = some n →
      i ≤ n ∧ remaining ≤ t.time n - t.time i ∧ t.time n < t.time i + remaining + reload := by
  intro fuel
  induction fuel with
  | zero => intro i remaining n _ _ h; simp [delayLoop] at h
  | succ fuel ih =>
    intro i remaining n h0 hfits h
    have hgap : (t.gap i : ℤ) = t.time (i + 1) - t.time i := by
      have hle := t.le i
      unfold Samples.gap
      omega
    have hlt := t.gap_lt i
    by_cases hpos : 0 < remaining
    · rw [delayLoop_succ hexact hreload t fuel i hpos hfits] at h
      split_ifs at h with hle
      · obtain rfl := Option.some.inj h
        refine ⟨by omega, by omega, by omega⟩
      · obtain ⟨hin, henough, hless⟩ := ih (i + 1) _ (by omega) (by omega) h
        refine ⟨by omega, by omega, by omega⟩
    · rw [delayLoop, if_neg hpos] at h
      obtain rfl := Option.some.inj h
      have hrpos := t.reload_pos
      refine ⟨le_rfl, by omega, by omega⟩

/-- Every exact arithmetic takes the loop to the same sample. -/
theorem delayLoop_congr (hexact : arith.Exact 32) (hexact' : arith'.Exact 32)
    (hreload : reload < 2 ^ 32) (t : Samples reload) : ∀ (fuel i : ℕ) (remaining : ℤ),
      remaining < 2 ^ 32 →
      delayLoop arith t fuel i remaining = delayLoop arith' t fuel i remaining := by
  intro fuel
  induction fuel with
  | zero => intro i remaining _; rfl
  | succ fuel ih =>
    intro i remaining hfits
    by_cases hpos : 0 < remaining
    · rw [delayLoop_succ hexact hreload t fuel i hpos hfits,
        delayLoop_succ hexact' hreload t fuel i hpos hfits, ih (i + 1) _ (by omega)]
    · rw [delayLoop, delayLoop, if_neg hpos, if_neg hpos]

/-- The loop returns when the time comes, given fuel for every sample until then. -/
theorem exists_delayLoop (hexact : arith.Exact 32) (hreload : reload < 2 ^ 32)
    (t : Samples reload) : ∀ (fuel i : ℕ) (remaining : ℤ), remaining < 2 ^ 32 →
      remaining ≤ t.time (i + fuel) - t.time i → 0 < fuel →
      ∃ n, delayLoop arith t fuel i remaining = some n := by
  intro fuel
  induction fuel with
  | zero => intro i remaining _ _ hfuel; omega
  | succ fuel ih =>
    intro i remaining hfits hcome _
    by_cases hpos : 0 < remaining
    · rw [delayLoop_succ hexact hreload t fuel i hpos hfits]
      split_ifs with hle
      · exact ⟨i + 1, rfl⟩
      · have hgap : (t.gap i : ℤ) = t.time (i + 1) - t.time i := by
          have hle' := t.le i
          unfold Samples.gap
          omega
        have hfuel : 0 < fuel := by
          by_contra hzero
          obtain rfl : fuel = 0 := by omega
          simp only [Nat.zero_add] at hcome
          omega
        apply ih (i + 1) _ (by omega) _ hfuel
        rw [show i + 1 + fuel = i + (fuel + 1) by omega]
        omega
    · exact ⟨i, by rw [delayLoop, if_neg hpos]⟩

/-! ### The call -/

section

variable {t : Samples clk.ticksPerMs} {fuel us n : ℕ}

/-- The time that a call has waited for is enough, in ticks of the bus clock. -/
def Enough (clk : Clock) (t : Samples clk.ticksPerMs) (us n : ℕ) : Prop :=
  us * clk.hclk ≤ (t.time n - t.time 0) * 1000000

theorem enough_iff : Enough clk t us n ↔ us * clk.ticksPerUs ≤ t.time n - t.time 0 := by
  rw [Enough, clk.hclk_eq, ← Nat.mul_assoc]
  exact Nat.mul_le_mul_right_iff (by decide)

/-- With a target that fits, the wait is long enough and no operation wraps. -/
theorem sound_of_fits (h : delayMicroseconds (.wrapping 32) clk t fuel us = some n)
    (hfits : us * clk.ticksPerUs < 2 ^ 32) :
    Enough clk t us n ∧ delayMicroseconds (.checked 32) clk t fuel us = some n := by
  rw [enough_iff]
  have hfits' : (us * clk.ticksPerUs : ℤ) < 2 ^ 32 := by exact_mod_cast hfits
  have h0 : (0 : ℤ) ≤ us * clk.ticksPerUs := by exact_mod_cast Nat.zero_le _
  by_cases hus : us = 0
  · subst hus
    rw [delayMicroseconds, if_pos rfl] at h ⊢
    exact ⟨by omega, h⟩
  · rw [delayMicroseconds, if_neg hus, Arith.exact_wrapping _ h0 hfits', Option.bind_some] at h
    constructor
    · obtain ⟨-, henough, -⟩ :=
        delayLoop_spec Arith.exact_wrapping clk.ticksPerMs_lt t _ _ _ h0 hfits' h
      have hcast : ((us * clk.ticksPerUs : ℕ) : ℤ) = us * clk.ticksPerUs := by push_cast; rfl
      omega
    · rw [delayMicroseconds, if_neg hus, Arith.exact_checked _ h0 hfits', Option.bind_some,
        delayLoop_congr Arith.exact_checked Arith.exact_wrapping clk.ticksPerMs_lt t _ _ _ hfits']
      exact h

/-- **A target that does not fit is never waited for**: the call returns less than a reload period
after its residue. -/
theorem waited_lt_of_wraps (h : delayMicroseconds (.wrapping 32) clk t fuel us = some n)
    (hbig : 2 ^ 32 ≤ us * clk.ticksPerUs) : t.time n - t.time 0 < us * clk.ticksPerUs := by
  have hus : us ≠ 0 := by
    rintro rfl
    rw [Nat.zero_mul] at hbig
    exact absurd hbig (by decide)
  have hreload := clk.ticksPerMs_lt
  rw [delayMicroseconds, if_neg hus, Arith.wrapping_eq, Option.bind_some] at h
  have h0 := Int.emod_nonneg (us * clk.ticksPerUs : ℤ) (by decide : (2 ^ 32 : ℤ) ≠ 0)
  have hlt := Int.emod_lt_of_pos (us * clk.ticksPerUs : ℤ) (by decide : (0 : ℤ) < 2 ^ 32)
  obtain ⟨-, -, hless⟩ :=
    delayLoop_spec Arith.exact_wrapping clk.ticksPerMs_lt t _ _ _ h0 hlt h
  -- the residue falls short of the product by a multiple of the modulus
  have hres : ((us * clk.ticksPerUs : ℕ) : ℤ) % 2 ^ 32 + 2 ^ 32 ≤ (us * clk.ticksPerUs : ℕ) := by
    omega
  push_cast at hres
  have hcast : ((us * clk.ticksPerUs : ℕ) : ℤ) = us * clk.ticksPerUs := by push_cast; rfl
  omega

theorem checked_eq_none_of_wraps (hbig : 2 ^ 32 ≤ us * clk.ticksPerUs) :
    delayMicroseconds (.checked 32) clk t fuel us = none := by
  have hus : us ≠ 0 := by
    rintro rfl
    rw [Nat.zero_mul] at hbig
    exact absurd hbig (by decide)
  rw [delayMicroseconds, if_neg hus, Arith.checked_eq_none.mpr (.inr (by exact_mod_cast hbig)),
    Option.bind_none]

/-- **A call that returns has waited long enough, and none of its operations wrapped, if and only
if the ticks it has to wait for fit in 32 bits.** -/
theorem delayMicroseconds_sound_iff
    (h : delayMicroseconds (.wrapping 32) clk t fuel us = some n) :
    (Enough clk t us n ∧ delayMicroseconds (.checked 32) clk t fuel us = some n) ↔
      us * clk.ticksPerUs < 2 ^ 32 := by
  constructor
  · rintro ⟨henough, -⟩
    by_contra hbig
    have hless := waited_lt_of_wraps h (not_lt.mp hbig)
    rw [enough_iff] at henough
    omega
  · exact sound_of_fits h

/-- The bus at 100 MHz. -/
def nominal : Clock := ⟨100000000, by decide, by decide, by decide⟩

/-- The counter read every half microsecond. -/
def often : Samples nominal.ticksPerMs where
  time i := 50 * i
  le i := by omega
  lt i := by
    have hreload : nominal.ticksPerMs = 100000 := rfl
    omega

/-- A wait of a microsecond is over at the third sample. -/
theorem delayMicroseconds_sound_nominal :
    (Enough nominal often 1 2 ∧ delayMicroseconds (.checked 32) nominal often 9 1 = some 2) ↔
      1 * nominal.ticksPerUs < 2 ^ 32 :=
  delayMicroseconds_sound_iff
    (show delayMicroseconds (.wrapping 32) nominal often 9 1 = some 2 by decide)

/-- A wait of 43 seconds is over after half a microsecond. -/
theorem exists_delayMicroseconds_short :
    ¬ ∀ (clk : Clock) (t : Samples clk.ticksPerMs) (fuel us n : ℕ), us < 2 ^ 32 →
      delayMicroseconds (.wrapping 32) clk t fuel us = some n →
      Enough clk t us n ∧ delayMicroseconds (.checked 32) clk t fuel us = some n := by
  intro h
  obtain ⟨henough, -⟩ := h nominal often 2 42949673 1 (by decide) (by decide)
  rw [enough_iff] at henough
  exact absurd henough (by decide)

/-- A call returns, as long as time goes on. -/
theorem exists_delayMicroseconds (clk : Clock) (t : Samples clk.ticksPerMs) (us : ℕ)
    (htime : ∀ m, ∃ i, m ≤ t.time i) :
    ∃ fuel n, delayMicroseconds (.wrapping 32) clk t fuel us = some n := by
  by_cases hus : us = 0
  · exact ⟨0, 0, by rw [delayMicroseconds, if_pos hus]⟩
  · have hlt := Int.emod_lt_of_pos (us * clk.ticksPerUs : ℤ) (by decide : (0 : ℤ) < 2 ^ 32)
    obtain ⟨i, hi⟩ := htime (t.time 0 + 2 ^ 32)
    have hmore := t.le i
    obtain ⟨n, hn⟩ := exists_delayLoop Arith.exact_wrapping
      clk.ticksPerMs_lt t (i + 1) 0 _ hlt (by rw [Nat.zero_add]; omega) (Nat.succ_pos i)
    exact ⟨i + 1, n, by rw [delayMicroseconds, if_neg hus, Arith.wrapping_eq, Option.bind_some, hn]⟩

end

end Ch32h4.Time
