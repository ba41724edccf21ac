import Ch32h4.Divider
import Ch32h4.Timer.Equiv.Stopping
import Mathlib.Algebra.Order.Field.Rat

/-!
# The duty that `analogWrite` asks for

The compare value is taken at the resolution in force, and the time base of a timer at the one that
was in force when its first channel came into use; `pwm_configure_timebase` is not called again.  So
a write has the duty and the time base it asks for if it is the first on its timer, or if the timer
happens to be set up for what is in force (`Current`), and only then: `follows_iff_of_reachable`.

The product for the prescaler has 32 bits.  It wraps from `hz * 2 ^ bits = 2 ^ 32` on, and is zero
for some, where the code divides by it (`divisor_eq_zero_iff`).  All register values fit.
-/

namespace Ch32h4.Timer.Pwm

open Machine

variable {v : Variant} {s s' : System} {pwm pwm' : Pwm} {pin : ℕ} {value : ℤ} {e : PwmAf}

/-! ### What a write asks for -/

/-- The settings that the setters leave. -/
structure InRange (pwm : Pwm) : Prop where
  hz_pos : 0 < pwm.s_pwm_hz
  hz_lt : pwm.s_pwm_hz < 2 ^ 32
  bits_pos : 1 ≤ pwm.s_write_bits
  bits_le : pwm.s_write_bits ≤ 16

/-- The clock is divided by this, for a counter of `2 ^ bits` steps to start again `hz` times a
second, as far as the register reaches. -/
def divider (v : Variant) (pwm : Pwm) : ℕ :=
  Divider.clip 1 65536 (v.hclk / (pwm.s_pwm_hz * 2 ^ pwm.s_write_bits))

/-- The first channel of a timer that comes into use. -/
def First (pwm : Pwm) (e : PwmAf) : Prop := pwm.s_pwm_chan_active e.timer = ∅

instance (pwm : Pwm) (e : PwmAf) : Decidable (First pwm e) := inferInstanceAs (Decidable (_ = _))

/-- What `analogWrite` promises for a pin that it gives the channel of an entry. -/
structure Follows (v : Variant) (pwm : Pwm) (pin : ℕ) (value : ℤ) (e : PwmAf) : Prop where
  product : First pwm e → pwm.s_pwm_hz * (pwm.top + 1) < 2 ^ 32
  divisor : First pwm e → pwm.s_pwm_hz * (pwm.top + 1) % 2 ^ 32 ≠ 0
  fits : pwm.prescaler v < 2 ^ 16 ∧ pwm.top < 2 ^ 16 ∧ pwm.clip value < 2 ^ 16
  prescaler : ((pwm.analogWrite v pin value).board.tim e.timer).prescaler = divider v pwm - 1
  period : ((pwm.analogWrite v pin value).board.tim e.timer).period = 2 ^ pwm.s_write_bits - 1
  duty : ((((pwm.analogWrite v pin value).board.tim e.timer).channels
        (Tim.channelIndex e.channel)).compare : ℚ) /
      ((pwm.analogWrite v pin value).board.tim e.timer).period =
    pwm.clip value / (2 ^ pwm.s_write_bits - 1 : ℕ)

/-- **The condition**: on an unused timer the product does not wrap, and one in use is set up for
the settings in force. -/
def Current (v : Variant) (pwm : Pwm) (e : PwmAf) : Prop :=
  if First pwm e then pwm.s_pwm_hz * 2 ^ pwm.s_write_bits < 2 ^ 32
  else (pwm.board.tim e.timer).prescaler = divider v pwm - 1 ∧
    (pwm.board.tim e.timer).period = 2 ^ pwm.s_write_bits - 1

instance (v : Variant) (pwm : Pwm) (e : PwmAf) : Decidable (Current v pwm e) := by
  unfold Current
  infer_instance

/-! ### The values of the registers -/

theorem top_eq (pwm : Pwm) : pwm.top = 2 ^ pwm.s_write_bits - 1 := by
  rw [top, Nat.one_shiftLeft]

theorem top_succ (pwm : Pwm) : pwm.top + 1 = 2 ^ pwm.s_write_bits := by
  have := Nat.one_le_two_pow (n := pwm.s_write_bits)
  rw [top_eq]
  omega

theorem InRange.top_lt (h : InRange pwm) : pwm.top < 2 ^ 16 := by
  have hpow : 2 ^ pwm.s_write_bits ≤ 2 ^ 16 := Nat.pow_le_pow_right (by decide) h.bits_le
  have := top_succ pwm
  omega

theorem clip_le_top (pwm : Pwm) (value : ℤ) : pwm.clip value ≤ pwm.top := by
  rw [clip]
  split_ifs <;> omega

theorem prescaler_lt (v : Variant) (pwm : Pwm) : pwm.prescaler v < 2 ^ 16 := by
  simp only [prescaler]
  split_ifs <;> omega

/-- Without a wrap the prescaler is the one asked for. -/
theorem InRange.prescaler_eq (h : InRange pwm)
    (hproduct : pwm.s_pwm_hz * 2 ^ pwm.s_write_bits < 2 ^ 32) :
    pwm.prescaler v = divider v pwm - 1 := by
  have hpos : pwm.s_pwm_hz * 2 ^ pwm.s_write_bits ≠ 0 :=
    Nat.mul_ne_zero h.hz_pos.ne' (Nat.two_pow_pos _).ne'
  have hmod : pwm.s_pwm_hz * (pwm.top + 1) % 4294967296 =
      pwm.s_pwm_hz * 2 ^ pwm.s_write_bits := by
    rw [top_succ]
    exact Nat.mod_eq_of_lt hproduct
  simp only [prescaler, divu, hmod, if_neg hpos, divider, Divider.clip]
  split_ifs <;> omega

/-- **Where `pwm_configure_timebase` divides by zero.** -/
theorem divisor_eq_zero_iff (pwm : Pwm) :
    pwm.s_pwm_hz * (pwm.top + 1) % 2 ^ 32 = 0 ↔
      2 ^ 32 ∣ pwm.s_pwm_hz * 2 ^ pwm.s_write_bits := by
  rw [top_succ, Nat.dvd_iff_mod_eq_zero]

/-- The DAC path scales without a wrap, and not past full scale. -/
theorem InRange.dac_fits (h : InRange pwm) (value : ℤ) :
    pwm.clip value * 4095 + pwm.top / 2 < 2 ^ 32 ∧ pwm.top ≠ 0 ∧
      (pwm.clip value * 4095 + pwm.top / 2) / pwm.top ≤ 4095 := by
  have htop := h.top_lt
  have hclip := clip_le_top pwm value
  have hpos : 0 < pwm.top := by
    have hpow : 2 ^ 1 ≤ 2 ^ pwm.s_write_bits := Nat.pow_le_pow_right (by decide) h.bits_pos
    have := top_succ pwm
    omega
  refine ⟨by omega, hpos.ne', Nat.le_of_lt_succ ((Nat.div_lt_iff_lt_mul hpos).mpr ?_)⟩
  have hscale : pwm.clip value * 4095 ≤ pwm.top * 4095 := Nat.mul_le_mul_right _ hclip
  have hhalf : pwm.top / 2 < pwm.top := Nat.div_lt_self hpos (by decide)
  calc pwm.clip value * 4095 + pwm.top / 2 < pwm.top * 4095 + pwm.top := by omega
    _ = 4096 * pwm.top := by omega

/-! ### What a write does -/

/-- The registers of the timer after a write. -/
theorem tim_analogWrite (value : ℤ) (h : pwm.configured v pin = some e) :
    (pwm.analogWrite v pin value).board.tim e.timer =
      pwm.startTim v e (pwm.clip value) (pwm.board.tim e.timer) := by
  obtain ⟨hfits, hfind, hclaim⟩ := configured_some h
  unfold analogWrite
  rw [if_neg hfits.range.not_ge, if_neg (Bool.eq_false_iff.mp hfits.noDac), hfind]
  dsimp only
  rw [hclaim]
  exact Function.update_self ..

theorem startTim_timeBase (pwm : Pwm) (e : PwmAf) (value : ℕ) (dev : Tim) :
    (pwm.startTim v e value dev).prescaler =
        (if First pwm e then pwm.prescaler v else dev.prescaler) ∧
      (pwm.startTim v e value dev).period =
        (if First pwm e then pwm.top % 65536 else dev.period) := by
  by_cases hfirst : First pwm e
  · have hnone : pwm.s_pwm_chan_active e.timer = ∅ := hfirst
    rw [if_pos hfirst, if_pos hfirst]
    unfold startTim
    dsimp only
    rw [if_pos hnone]
    constructor <;> split_ifs <;> rfl
  · have hsome : ¬ pwm.s_pwm_chan_active e.timer = ∅ := hfirst
    rw [if_neg hfirst, if_neg hfirst]
    unfold startTim
    dsimp only
    rw [if_neg hsome]
    constructor <;> split_ifs <;> rfl

/-- The compare value is the one that was asked for, at the resolution in force. -/
theorem compare_analogWrite (value : ℤ) (hrange : InRange pwm)
    (h : pwm.configured v pin = some e) :
    (((pwm.analogWrite v pin value).board.tim e.timer).channels
      (Tim.channelIndex e.channel)).compare = pwm.clip value := by
  have hclip := clip_le_top pwm value
  have htop := hrange.top_lt
  rw [tim_analogWrite value h, startTim_channels, Function.update_self]
  exact Nat.mod_eq_of_lt (by omega)

/-- **A write follows the settings exactly when they are those of its timer.** -/
theorem follows_iff (hrange : InRange pwm) (h : pwm.configured v pin = some e) (value : ℤ) :
    Follows v pwm pin value e ↔ Current v pwm e := by
  have htop := hrange.top_lt
  have hclip := clip_le_top pwm value
  have hbase := startTim_timeBase (v := v) pwm e (pwm.clip value) (pwm.board.tim e.timer)
  rw [← tim_analogWrite value h] at hbase
  constructor
  · intro hfollows
    rw [Current]
    split_ifs with hfirst
    · rw [← top_succ]
      exact hfollows.product hfirst
    · rw [if_neg hfirst, if_neg hfirst] at hbase
      exact ⟨hbase.1.symm.trans hfollows.prescaler, hbase.2.symm.trans hfollows.period⟩
  · intro hcurrent
    rw [Current] at hcurrent
    have hregisters :
        ((pwm.analogWrite v pin value).board.tim e.timer).prescaler = divider v pwm - 1 ∧
          ((pwm.analogWrite v pin value).board.tim e.timer).period =
            2 ^ pwm.s_write_bits - 1 := by
      by_cases hfirst : First pwm e
      · rw [if_pos hfirst] at hcurrent
        rw [if_pos hfirst, if_pos hfirst] at hbase
        have hmod : pwm.top % 65536 = pwm.top := Nat.mod_eq_of_lt htop
        rw [hbase.1, hbase.2, hrange.prescaler_eq hcurrent, hmod, top_eq]
        exact ⟨rfl, rfl⟩
      · rw [if_neg hfirst] at hcurrent
        rw [if_neg hfirst, if_neg hfirst] at hbase
        exact ⟨hbase.1.trans hcurrent.1, hbase.2.trans hcurrent.2⟩
    refine ⟨fun hfirst => ?_, fun hfirst => ?_, ⟨prescaler_lt v pwm, htop, by omega⟩,
      hregisters.1, hregisters.2, ?_⟩
    · rw [if_pos hfirst] at hcurrent
      rw [top_succ]
      exact hcurrent
    · rw [if_pos hfirst] at hcurrent
      rw [top_succ, Nat.mod_eq_of_lt hcurrent]
      exact Nat.mul_ne_zero hrange.hz_pos.ne' (Nat.two_pow_pos _).ne'
    · rw [compare_analogWrite value hrange h, hregisters.2]

/-! ### Runs -/

/-- From the settings `wiring_analog.c` starts with. -/
def poweredOn (v : Variant) : Machine System Action where
  init s := s.Fresh ∧ s.pwm.s_pwm_hz = 1000 ∧ s.pwm.s_write_bits = 8
  step s a := some (s.act v a)

/-- A frequency is a number of 32 bits. -/
def Word (_ : System) : Action → Prop
  | .frequency hz => hz < 2 ^ 32
  | _ => True

instance (s : System) : (a : Action) → Decidable (Word s a)
  | .frequency hz => inferInstanceAs (Decidable (hz < 2 ^ 32))
  | .write _ _ | .stop _ | .resolution _ | .claim _ _ | .program _ _ _ | .release _ _ =>
    inferInstanceAs (Decidable True)

/-- The settings are changed by the setters only. -/
theorem settings_analogWrite (v : Variant) (pwm : Pwm) (pin : ℕ) (value : ℤ) :
    (pwm.analogWrite v pin value).s_pwm_hz = pwm.s_pwm_hz ∧
      (pwm.analogWrite v pin value).s_write_bits = pwm.s_write_bits := by
  unfold analogWrite
  split_ifs
  · exact ⟨rfl, rfl⟩
  · exact ⟨rfl, rfl⟩
  cases pwmFind v pwm.board.timers pin with
  | none => exact ⟨rfl, rfl⟩
  | some e =>
    dsimp only
    split_ifs <;> exact ⟨rfl, rfl⟩

theorem settings_analogWriteStop (v : Variant) (pwm : Pwm) (pin : ℕ) :
    (pwm.analogWriteStop v pin).s_pwm_hz = pwm.s_pwm_hz ∧
      (pwm.analogWriteStop v pin).s_write_bits = pwm.s_write_bits := by
  unfold analogWriteStop
  split_ifs
  · exact ⟨rfl, rfl⟩
  · unfold dacStop
    dsimp only
    split_ifs <;> exact ⟨rfl, rfl⟩
  cases pwmFindActive v pwm.board.timers pin with
  | none => exact ⟨rfl, rfl⟩
  | some e =>
    unfold finish
    dsimp only
    split_ifs <;> exact ⟨rfl, rfl⟩

theorem InRange.congr (h : InRange pwm) (hhz : pwm'.s_pwm_hz = pwm.s_pwm_hz)
    (hbits : pwm'.s_write_bits = pwm.s_write_bits) : InRange pwm' := by
  obtain ⟨hz_pos, hz_lt, bits_pos, bits_le⟩ := h
  exact ⟨hhz ▸ hz_pos, hhz ▸ hz_lt, hbits ▸ bits_pos, hbits ▸ bits_le⟩

theorem InRange.act (h : InRange s.pwm) {a : Action} (hword : Word s a) :
    InRange (s.act v a).pwm := by
  cases a with
  | write pin value =>
    obtain ⟨hhz, hbits⟩ := settings_analogWrite v s.pwm pin value
    exact h.congr hhz hbits
  | stop pin =>
    obtain ⟨hhz, hbits⟩ := settings_analogWriteStop v s.pwm pin
    exact h.congr hhz hbits
  | frequency hz =>
    simp only [System.act, analogWriteFrequency]
    split_ifs with hpos
    · exact ⟨hpos, hword, h.bits_pos, h.bits_le⟩
    · exact h
  | resolution bits =>
    simp only [System.act, analogWriteResolution]
    split_ifs with hbits
    · exact ⟨h.hz_pos, h.hz_lt, by simp only; omega, by simp only; omega⟩
    · exact h
  | claim o timer => exact h.congr rfl rfl
  | program o timer dev =>
    simp only [System.act]
    split_ifs
    · exact h.congr rfl rfl
    · exact h
  | release o timer => exact h.congr rfl rfl

theorem inRange_of_reachable (h : (poweredOn v).Reachable Word s) : InRange s.pwm := by
  refine invariant (I := fun s => InRange s.pwm) ?_ ?_ h
  · rintro s ⟨-, hhz, hbits⟩
    exact ⟨by omega, by omega, by omega, by omega⟩
  · intro s a s' hrange hword hstep
    rw [← Option.some.inj hstep]
    exact hrange.act hword

/-- **After every run of calls, a write follows the settings exactly when they are those of its
timer.** -/
theorem follows_iff_of_reachable (h : (poweredOn v).Reachable Word s)
    (hconfigured : s.pwm.configured v pin = some e) (value : ℤ) :
    Follows v s.pwm pin value e ↔ Current v s.pwm e :=
  follows_iff (inRange_of_reachable h) hconfigured value

theorem atRest_poweredOn : (poweredOn threePins).init atRest :=
  ⟨atRest_fresh, rfl, rfl⟩

/-- PB14 and then PA1 on TIM9, with ten bits for both. -/
theorem follows_ten_bits : ∃ s, (poweredOn threePins).run Word atRest
      [.resolution 10, .write 30 512] = some s ∧
    Follows threePins s.pwm 1 256 ⟨1, 9, 2, false, 6⟩ := by
  have hrun : ((poweredOn threePins).run Word atRest [.resolution 10, .write 30 512]).map
      (fun s => (s.pwm.configured threePins 1,
        decide (Current threePins s.pwm ⟨1, 9, 2, false, 6⟩))) =
      some (some ⟨1, 9, 2, false, 6⟩, true) := by decide +kernel
  obtain ⟨s, hs, hstate⟩ := Option.map_eq_some_iff.mp hrun
  obtain ⟨hconfigured, hcurrent⟩ := Prod.mk.inj hstate
  exact ⟨s, hs, (follows_iff_of_reachable (reachable_of_run (.init atRest_poweredOn) hs)
    hconfigured 256).mpr (of_decide_eq_true hcurrent)⟩

/-- With ten bits after eight, half scale on PB14 is more than the timer counts to. -/
theorem not_follows_of_reachable :
    ¬ ∀ (v : Variant) (s : System), (poweredOn v).Reachable Word s → ∀ pin value e,
      s.pwm.configured v pin = some e → Follows v s.pwm pin value e := by
  intro hall
  have hrun : ((poweredOn threePins).run Word atRest [.write 30 128, .resolution 10]).map
      (fun s => (s.pwm.configured threePins 30,
        decide (Current threePins s.pwm ⟨30, 9, 1, false, 2⟩))) =
      some (some ⟨30, 9, 1, false, 2⟩, false) := by decide +kernel
  obtain ⟨s, hs, hstate⟩ := Option.map_eq_some_iff.mp hrun
  obtain ⟨hconfigured, hcurrent⟩ := Prod.mk.inj hstate
  have hreachable := reachable_of_run (.init atRest_poweredOn) hs
  have hfollows := hall threePins s hreachable 30 512 _ hconfigured
  exact of_decide_eq_false hcurrent
    ((follows_iff (inRange_of_reachable hreachable) hconfigured 512).mp hfollows)

end Ch32h4.Timer.Pwm
