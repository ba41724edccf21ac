import Ch32h4.Timer.Equiv.Stopping
import Ch32h4.Timer.Tone
import Mathlib.Algebra.Order.Field.Rat
import Mathlib.Tactic.Common

/-!
# The frequency and the length of a tone

`tone` finds the registers in 32 bits from a frequency that may be anything.  They are what they
should be exactly where `1000 * frequency` does not wrap and the clock is not below the frequency
(`tuned_iff`): a faster tone has `top = 0`, which the reload register gets as `0xFFFF`.

The length is counted in update interrupts.  The first of them is latched before the counter runs,
by `TIM_TimeBaseInit`, and taken once it is enabled; what it counts down is the duration, if the
number of periods is not stored yet.  So a tone has the right length if the latched one is taken
that early and does not stop the tone there (`InTime`).  A tone that is stopped inside of `tone`
has its timer started afterwards, by then released.
-/

namespace Ch32h4.Timer.Tone

open Machine

variable {v : Variant} {s s' : System} {c : Call} {clock frequency duration : ℕ}

/-! ### The registers -/

/-- The update events in a second. -/
def rate (clock prescaler reload : ℕ) : ℚ :=
  clock / ((prescaler + 1) * (reload + 1) : ℕ)

/-- What `tone` promises of its numbers. -/
structure Tuned (clock frequency duration : ℕ) : Prop where
  product : frequency * 1000 < 2 ^ 32
  divisor : frequency * 1000 % 2 ^ 32 ≠ 0
  count : duration * frequency < 2 ^ 32
  prescaler : 1 ≤ (timeBase clock frequency).1 ∧ (timeBase clock frequency).1 ≤ 2 ^ 16
  reload : 1 ≤ (timeBase clock frequency).2 ∧ (timeBase clock frequency).2 ≤ 2 ^ 16
  rate : frequency ≤ rate clock (Tone.prescaler clock frequency) (Tone.reload clock frequency)
  /-- With 1000 counts for a period the prescaler is the largest, else the period is. -/
  next :
    if 1000 * frequency ≤ clock then
      Tone.prescaler clock frequency + 1 < 2 ^ 16 →
        Tone.rate clock (Tone.prescaler clock frequency + 1) (Tone.reload clock frequency) <
          frequency
    else
      Tone.reload clock frequency + 1 < 2 ^ 16 →
        Tone.rate clock (Tone.prescaler clock frequency) (Tone.reload clock frequency + 1) <
          frequency

/-- **The condition on the arguments.** -/
structure InRange (clock frequency duration : ℕ) : Prop where
  product : frequency * 1000 < 2 ^ 32
  clock : frequency ≤ clock
  count : duration * frequency < 2 ^ 32

instance (clock frequency duration : ℕ) : Decidable (InRange clock frequency duration) :=
  decidable_of_iff (frequency * 1000 < 2 ^ 32 ∧ frequency ≤ clock ∧ duration * frequency < 2 ^ 32)
    ⟨fun ⟨h, h', h''⟩ => ⟨h, h', h''⟩, fun ⟨h, h', h''⟩ => ⟨h, h', h''⟩⟩

theorem le_rate_iff {prescaler reload : ℕ} :
    (frequency : ℚ) ≤ rate clock prescaler reload ↔
      frequency * ((prescaler + 1) * (reload + 1)) ≤ clock := by
  have hpos : (0 : ℚ) < ((prescaler + 1) * (reload + 1) : ℕ) := by
    exact_mod_cast Nat.mul_pos prescaler.succ_pos reload.succ_pos
  rw [rate, le_div_iff₀ hpos]
  exact_mod_cast Iff.rfl

theorem rate_lt_iff {prescaler reload : ℕ} :
    rate clock prescaler reload < (frequency : ℚ) ↔
      clock < frequency * ((prescaler + 1) * (reload + 1)) := by
  rw [← not_le, le_rate_iff, not_le]

/-- Without a wrap the division is the one that is meant. -/
theorem divu_product (hpos : 0 < frequency) (hproduct : frequency * 1000 < 2 ^ 32) :
    Pwm.divu clock (frequency * 1000 % 4294967296) = clock / (frequency * 1000) := by
  have hmod : frequency * 1000 % 4294967296 = frequency * 1000 := Nat.mod_eq_of_lt hproduct
  rw [hmod, Pwm.divu, if_neg (by omega)]

/-- With a clock of at least 1000 counts for each period. -/
theorem timeBase_of_le (hpos : 0 < frequency) (hproduct : frequency * 1000 < 2 ^ 32)
    (hclock : 1000 * frequency ≤ clock) :
    (timeBase clock frequency).1 = min (clock / (frequency * 1000)) 65536 ∧
      1 ≤ clock / (frequency * 1000) ∧ (timeBase clock frequency).2 = 1000 := by
  have hquot : 1 ≤ clock / (frequency * 1000) :=
    (Nat.one_le_div_iff (by omega)).mpr (by omega)
  simp only [timeBase, divu_product hpos hproduct]
  generalize clock / (frequency * 1000) = quotient at hquot ⊢
  rw [if_neg (by omega)]
  split_ifs with hlarge
  · exact ⟨(min_eq_right (by omega)).symm, hquot, rfl⟩
  · exact ⟨(min_eq_left (by omega)).symm, hquot, rfl⟩

/-- And with a slower one. -/
theorem timeBase_of_lt (hpos : 0 < frequency) (hproduct : frequency * 1000 < 2 ^ 32)
    (hclock : clock < 1000 * frequency) :
    (timeBase clock frequency).1 = 1 ∧ clock / frequency < 1000 ∧
      (timeBase clock frequency).2 = clock / frequency := by
  have hquot : clock / (frequency * 1000) = 0 := Nat.div_eq_of_lt (by omega)
  have htop : clock / frequency < 1000 := Nat.div_lt_of_lt_mul (by omega)
  simp only [timeBase, divu_product hpos hproduct]
  rw [if_pos hquot, if_neg (by omega)]
  exact ⟨rfl, htop, rfl⟩

theorem prescaler_succ (h : 1 ≤ (timeBase clock frequency).1)
    (h' : (timeBase clock frequency).1 ≤ 65536) :
    prescaler clock frequency + 1 = (timeBase clock frequency).1 := by
  rw [prescaler]
  omega

theorem reload_succ (h : 1 ≤ (timeBase clock frequency).2)
    (h' : (timeBase clock frequency).2 ≤ 65536) :
    reload clock frequency + 1 = (timeBase clock frequency).2 := by
  rw [reload]
  omega

/-- The prescaler is the largest one that is fast enough. -/
theorem InRange.tuned_of_le (h : InRange clock frequency duration) (hpos : 0 < frequency)
    (hclock : 1000 * frequency ≤ clock) : Tuned clock frequency duration := by
  have hproduct := h.product
  obtain ⟨hfirst, hquot, hsecond⟩ := timeBase_of_le hpos hproduct hclock
  have hprescaler : prescaler clock frequency + 1 = (timeBase clock frequency).1 :=
    prescaler_succ (by omega) (by omega)
  have hreload : reload clock frequency + 1 = (timeBase clock frequency).2 :=
    reload_succ (by omega) (by omega)
  refine ⟨hproduct, by omega, h.count, by omega, by omega, ?_, ?_⟩
  · rw [le_rate_iff, hprescaler, hreload, hfirst, hsecond]
    calc frequency * (min (clock / (frequency * 1000)) 65536 * 1000)
        ≤ frequency * (clock / (frequency * 1000) * 1000) := by gcongr; exact min_le_left _ _
      _ = frequency * 1000 * (clock / (frequency * 1000)) := by rw [mul_assoc, mul_comm 1000]
      _ ≤ clock := Nat.mul_div_le _ _
  · rw [if_pos hclock]
    intro hnext
    -- If there is a larger prescaler, the quotient was not clipped.
    have hmin : (timeBase clock frequency).1 = clock / (frequency * 1000) := by omega
    rw [rate_lt_iff, hprescaler, hreload, hmin, hsecond]
    calc clock < frequency * 1000 * (clock / (frequency * 1000) + 1) :=
          Nat.lt_mul_div_succ clock (by omega)
      _ = frequency * ((clock / (frequency * 1000) + 1) * 1000) := by
          rw [mul_assoc, mul_comm 1000]

/-- Where 1000 counts are too slow, the period is the longest one that is fast enough. -/
theorem InRange.tuned_of_lt (h : InRange clock frequency duration) (hpos : 0 < frequency)
    (hclock : clock < 1000 * frequency) : Tuned clock frequency duration := by
  have hproduct := h.product
  obtain ⟨hfirst, htop, hsecond⟩ := timeBase_of_lt hpos hproduct hclock
  have hquot : 1 ≤ clock / frequency := (Nat.one_le_div_iff hpos).mpr h.clock
  have hprescaler : prescaler clock frequency + 1 = (timeBase clock frequency).1 :=
    prescaler_succ (by omega) (by omega)
  have hreload : reload clock frequency + 1 = (timeBase clock frequency).2 :=
    reload_succ (by omega) (by omega)
  refine ⟨hproduct, by omega, h.count, by omega, by omega, ?_, ?_⟩
  · rw [le_rate_iff, hprescaler, hreload, hfirst, hsecond, one_mul]
    exact Nat.mul_div_le clock frequency
  · rw [if_neg hclock.not_ge]
    intro _
    rw [rate_lt_iff, hprescaler, hreload, hfirst, hsecond, one_mul]
    exact Nat.lt_mul_div_succ clock hpos

/-- **The numbers of a tone are right exactly when its arguments are in range.** -/
theorem tuned_iff (hpos : 0 < frequency) :
    Tuned clock frequency duration ↔ InRange clock frequency duration := by
  constructor
  · intro h
    have hrate := le_rate_iff.mp h.rate
    have hone : 1 ≤ (prescaler clock frequency + 1) * (reload clock frequency + 1) :=
      Nat.mul_pos (Nat.succ_pos _) (Nat.succ_pos _)
    exact ⟨h.product, (Nat.le_mul_of_pos_right frequency hone).trans hrate, h.count⟩
  · intro h
    rcases le_or_gt (1000 * frequency) clock with hclock | hclock
    · exact h.tuned_of_le hpos hclock
    · exact h.tuned_of_lt hpos hclock

/-- **Where `tone` divides by zero.** -/
theorem divisor_eq_zero_iff : frequency * 1000 % 2 ^ 32 = 0 ↔ 2 ^ 29 ∣ frequency := by
  constructor
  · intro h
    exact Nat.dvd_of_mod_eq_zero (by omega)
  · rintro ⟨k, rfl⟩
    omega

/-! ### What the sketch gets -/

/-- The periods that a timed tone has. -/
def Call.count (c : Call) : ℕ := max 1 (c.duration * c.frequency / 1000)

/-- The tone is ended by its timer's interrupt. -/
def Call.Ends (c : Call) : Prop := 0 < c.duration ∧ routed c.timer = true

instance (c : Call) : Decidable c.Ends := inferInstanceAs (Decidable (_ ∧ _))

/-- What `tone` and `noTone` promise. -/
structure Sounds (v : Variant) (s : System) : Prop where
  tuned : ∀ c, s.call = some c → Tuned v.hclk c.frequency c.duration
  /-- The timer of a tone has its registers. -/
  registers : s.s_tone.active = true → ∃ c, s.call = some c ∧ c.timer = s.s_tone.timer ∧
    (s.tim c.timer).prescaler = prescaler v.hclk c.frequency ∧
    (s.tim c.timer).period = reload v.hclk c.frequency
  /-- Out of a call the timer of a tone runs. -/
  runs : s.place = .idle → s.s_tone.active = true → (s.tim s.s_tone.timer).enabled = true
  /-- A timed tone lasts for all of its periods, and is about to be stopped after the last. -/
  lasts : ∀ c, s.call = some c → c.Ends → s.place = .idle → s.s_tone.active = true →
    s.periods < c.count ∨ s.periods = c.count ∧
      ((s.irq c.timer).line && (s.irq c.timer).enabled && (s.irq c.timer).flag) = true ∧
      (s.dispatch c.timer).s_tone.active = false
  /-- A tone that was stopped by its timer has had all of its periods. -/
  rang : s.rang = true → ∃ c, s.call = some c ∧ c.Ends ∧ s.periods = c.count
  /-- The timer of a stopped tone is released and does not run. -/
  stopped : s.place = .idle → s.s_tone.active = false → ∀ t, s.last t = .tone →
    s.timers.owner t = .free ∧ (s.tim t).enabled = false

/-- **The condition**: the arguments are in range, the latched update is taken before the number
of periods is stored and does not stop the tone, or counts nothing, and each further one before the
next. -/
def InTime (v : Variant) (s : System) : System.Action → Prop
  | .tone pin frequency duration =>
    pin < v.pinsCount → frequency ≠ 0 → InRange v.hclk frequency duration
  | .sketch =>
    match s.place with
    | .go c => c.Ends → (s.irq c.timer).flag = false
    | _ => True
  | .update timer => (s.irq timer).fn = some .tone → (s.irq timer).flag = false
  | .serve timer => (s.irq timer).fn = some .tone →
    match s.place with
    | .line c | .count c => c.duration ≠ 1
    | .floor c => c.duration * c.frequency < 1000
    | .go _ => False
    | _ => True
  | _ => True

instance (v : Variant) (s : System) : (a : System.Action) → Decidable (InTime v s a)
  | .tone _ _ _ => inferInstanceAs (Decidable (_ → _ → _))
  | .sketch => by unfold InTime; dsimp only; split <;> infer_instance
  | .update _ => inferInstanceAs (Decidable (_ → _))
  | .serve _ => by
    unfold InTime
    refine @instDecidableForall _ _ inferInstance ?_
    split <;> infer_instance
  | .noTone _ | .claim _ _ | .program _ _ _ _ _ _ | .release _ _ =>
    inferInstanceAs (Decidable True)

/-! ### The invariant -/

/-- The call whose timer does not run yet. -/
def Place.starting : Place → Option Call
  | .attach c | .unmask c | .line c | .count c | .floor c | .go c => some c
  | .idle | .stop _ | .device _ | .halt _ _ => none

/-- What the call goes on with after `tone_stop`. -/
def Place.after : Place → Option After
  | .stop k | .device k | .halt k _ => some k
  | _ => none

/-- The arguments of the last tone and of the one that waits are in range. -/
structure Bounded (v : Variant) (s : System) : Prop where
  call : ∀ c, s.call = some c → InRange v.hclk c.frequency c.duration ∧ 0 < c.frequency
  after : ∀ pin frequency duration, s.place.after = some (.tone pin frequency duration) →
    InRange v.hclk frequency duration ∧ 0 < frequency

/-- No tone is active. -/
structure Quiet (s : System) : Prop where
  silent : s.s_tone.active = false
  owner : ∀ t, s.timers.owner t ≠ .tone
  released : ∀ t, s.last t = .tone → s.timers.owner t = .free ∧ (s.tim t).enabled = false
  handler : ∀ t, (s.irq t).fn ≠ some .tone
  rang : s.rang = true → ∃ c, s.call = some c ∧ c.Ends ∧ s.periods = c.count

/-- The tone of a call is active. -/
structure Held (v : Variant) (s : System) (c : Call) : Prop where
  active : s.s_tone.active = true
  timer : s.s_tone.timer = c.timer
  call : s.call = some c
  owner : ∀ t, s.timers.owner t = .tone ↔ t = c.timer
  released : ∀ t ≠ c.timer, s.last t = .tone →
    s.timers.owner t = .free ∧ (s.tim t).enabled = false
  handler : ∀ t, (s.irq t).fn = some .tone → t = c.timer ∧ c.Ends
  prescaler : (s.tim c.timer).prescaler = Tone.prescaler v.hclk c.frequency
  period : (s.tim c.timer).period = Tone.reload v.hclk c.frequency
  rang : s.rang = false

/-- The interrupt of a timer is set up for `tone_tick`. -/
structure Attached (irq : Irq) : Prop where
  fn : irq.fn = some .tone
  enabled : irq.enabled = true
  line : irq.line = true

/-- The periods of a tone are counted. -/
structure Counting (s : System) (c : Call) : Prop where
  attached : Attached (s.irq c.timer)
  pos : 0 < s.s_tone.remaining_ms
  total : s.s_tone.remaining_ms + s.periods = c.count + ((s.irq c.timer).flag).toNat

/-- What has been set up where `tone` is. -/
def Prepared (s : System) (c : Call) : Place → Prop
  | .attach _ => c.Ends ∧ s.s_tone.remaining_ms = c.duration ∧ (s.irq c.timer).enabled = false
  | .unmask _ => c.Ends ∧ s.s_tone.remaining_ms = c.duration ∧ (s.irq c.timer).enabled = false ∧
      (s.irq c.timer).fn = some .tone
  | .line _ => c.Ends ∧ ((s.irq c.timer).flag = true → s.s_tone.remaining_ms = c.duration) ∧
      (s.irq c.timer).enabled = true ∧ (s.irq c.timer).fn = some .tone
  | .count _ => 0 < c.duration ∧ (c.Ends → Attached (s.irq c.timer) ∧
      ((s.irq c.timer).flag = true → s.s_tone.remaining_ms = c.duration))
  | .floor _ => 0 < c.duration ∧ s.s_tone.remaining_ms = c.duration * c.frequency / 1000 ∧
      (c.Ends → Attached (s.irq c.timer))
  | .go _ => c.Ends → Attached (s.irq c.timer) ∧ s.s_tone.remaining_ms = c.count
  | _ => True

/-- What holds of every state. -/
inductive Inv (v : Variant) (s : System) : Prop
  | quiet (h : Quiet s) (hplace : s.place.starting = none)
  | playing (c : Call) (h : Held v s c) (hplace : s.place.starting = none)
    (hdev : ∀ k dev, s.place = .halt k dev → dev = c.timer)
    (hruns : (s.tim c.timer).enabled = true) (hcounting : c.Ends → Counting s c)
  | starting (c : Call) (h : Held v s c) (hplace : s.place.starting = some c)
    (hstill : (s.tim c.timer).enabled = false) (hperiods : s.periods = 0)
    (hprepared : Prepared s c s.place)

theorem Held.congr (h : Held v s c) (htone : s'.s_tone.active = s.s_tone.active)
    (htimer : s'.s_tone.timer = s.s_tone.timer) (hcall : s'.call = s.call)
    (howner : ∀ t, s'.timers.owner t = s.timers.owner t) (hlast : s'.last = s.last)
    (htim : ∀ t, (s'.tim t).prescaler = (s.tim t).prescaler ∧ (s'.tim t).period = (s.tim t).period)
    (henabled : ∀ t ≠ c.timer, (s'.tim t).enabled = (s.tim t).enabled)
    (hfn : ∀ t, (s'.irq t).fn = some .tone → (s.irq t).fn = some .tone ∨ t = c.timer ∧ c.Ends)
    (hrang : s'.rang = s.rang) : Held v s' c where
  active := htone.trans h.active
  timer := htimer.trans h.timer
  call := hcall.trans h.call
  owner t := by rw [howner, h.owner]
  released t ht hlast' := by
    rw [howner, henabled t ht]
    exact h.released t ht (hlast ▸ hlast')
  handler t ht := (hfn t ht).elim (h.handler t) id
  prescaler := (htim _).1.trans h.prescaler
  period := (htim _).2.trans h.period
  rang := hrang.trans h.rang

/-- The timer of a tone is one of the twelve. -/
theorem Held.valid (h : Held v s c) : valid c.timer = true := by
  by_contra hinvalid
  have howner := (h.owner c.timer).mpr rfl
  rw [Registry.owner, if_neg hinvalid] at howner
  cases howner

/-! ### Stopping -/

theorem detachIrq_irq (s : System) (id t : ℕ) : (s.detachIrq id).irq t =
    if t = id ∧ valid id = true then { s.irq t with fn := none, enabled := false }
    else s.irq t := by
  unfold System.detachIrq
  by_cases hvalid : valid id = true
  · rw [if_pos hvalid]
    by_cases ht : t = id
    · subst ht
      rw [if_pos ⟨rfl, hvalid⟩]
      exact Function.update_self ..
    · rw [if_neg fun h => ht h.1]
      exact Function.update_of_ne ht ..
  · rw [if_neg hvalid, if_neg fun h => hvalid h.2]

theorem detachIrq_eq (s : System) (id : ℕ) :
    s.detachIrq id = { s with irq := (s.detachIrq id).irq } := by
  unfold System.detachIrq
  split_ifs <;> rfl

/-- What `tone_stop` leaves. -/
theorem halt_eq (s : System) (dev : ℕ) : s.halt dev =
    { s with
      irq := (s.detachIrq s.s_tone.timer).irq
      tim := Function.update s.tim dev ((s.tim dev).cmd false)
      timers := s.timers.release s.s_tone.timer .tone
      pads := Function.update s.pads s.s_tone.pin (.output false)
      s_tone := { s.s_tone with active := false, timer := 0 } } := by
  rw [System.halt, detachIrq_eq]
  rfl

/-- The timer that is stopped is the one that `tone` holds, if it holds one. -/
theorem quiet_halt {dev : ℕ} (howner : ∀ t, s.timers.owner t = .tone → t = s.s_tone.timer)
    (hreleased : ∀ t, s.last t = .tone → s.timers.owner t = .tone ∧ t = dev ∨
      s.timers.owner t = .free ∧ (s.tim t).enabled = false)
    (hhandler : ∀ t, (s.irq t).fn = some .tone → t = s.s_tone.timer ∧ valid t = true)
    (hrang : s.rang = true → ∃ c, s.call = some c ∧ c.Ends ∧ s.periods = c.count) :
    Quiet (s.halt dev) := by
  rw [halt_eq]
  refine ⟨rfl, fun t ht => ?_, fun t ht => ?_, fun t ht => ?_, hrang⟩
  · dsimp only at ht
    rw [Registry.owner_release] at ht
    split_ifs at ht with hheld
    have htimer := howner t ht
    subst htimer
    exact hheld ⟨rfl, ht⟩
  · dsimp only at ht ⊢
    rw [Registry.owner_release]
    rcases hreleased t ht with ⟨htone, rfl⟩ | ⟨hfree, hdisabled⟩
    · have htimer := howner t htone
      rw [if_pos ⟨htimer, htimer ▸ htone⟩, Function.update_self]
      exact ⟨rfl, rfl⟩
    · refine ⟨by split_ifs <;> first | rfl | exact hfree, ?_⟩
      by_cases hdev : t = dev
      · subst hdev
        rw [Function.update_self]
        rfl
      · rw [Function.update_of_ne hdev]
        exact hdisabled
  · dsimp only at ht
    rw [detachIrq_irq] at ht
    split_ifs at ht with hdetached
    obtain ⟨htimer, hvalid⟩ := hhandler t ht
    exact hdetached ⟨htimer, htimer ▸ hvalid⟩

theorem Quiet.halt (h : Quiet s) (dev : ℕ) : Quiet (s.halt dev) :=
  quiet_halt (fun t ht => absurd ht (h.owner t)) (fun t ht => .inr (h.released t ht))
    (fun t ht => absurd ht (h.handler t)) h.rang

theorem Held.quiet_halt (h : Held v s c) (r : Bool)
    (hr : r = true → c.Ends ∧ s.periods = c.count) :
    Quiet (System.halt { s with rang := r } c.timer) := by
  refine Tone.quiet_halt (fun t ht => ?_) (fun t ht => ?_) (fun t ht => ?_) fun hrang => ?_
  · exact ((h.owner t).mp ht).trans h.timer.symm
  · by_cases hc : t = c.timer
    · exact .inl ⟨(h.owner t).mpr hc, hc⟩
    · exact .inr (h.released t hc ht)
  · obtain ⟨htimer, -⟩ := h.handler t ht
    exact ⟨htimer.trans h.timer.symm, htimer ▸ h.valid⟩
  · exact ⟨c, h.call, hr hrang⟩

theorem Held.halt (h : Held v s c) : Quiet (s.halt c.timer) := by
  have hrang := h.rang
  have hquiet := h.quiet_halt false fun h => absurd h (by decide)
  rwa [← hrang] at hquiet

/-! ### Starting -/

/-- The timer has its registers, and does not run. -/
theorem program_eq (clock frequency timer channel : ℕ) (dev : Tim) :
    (program clock frequency timer channel dev).prescaler = prescaler clock frequency ∧
      (program clock frequency timer channel dev).period = reload clock frequency ∧
      (program clock frequency timer channel dev).enabled = false := by
  unfold program
  dsimp only
  split_ifs <;> exact ⟨rfl, rfl, rfl⟩

/-- The timer that is found has been claimed. -/
theorem Quiet.configure (h : Quiet s) (e : PwmAf) (hcall : c.timer = e.timer)
    {timers : Registry}
    (howner : ∀ t, timers.owner t = if t = e.timer then .tone else s.timers.owner t) :
    Inv v (System.configure v { s with timers } e c) := by
  obtain ⟨hprescaler, hperiod, hstill⟩ :=
    program_eq v.hclk c.frequency e.timer e.channel (s.tim e.timer)
  have htim : (System.configure v { s with timers } e c).tim c.timer =
      program v.hclk c.frequency e.timer e.channel (s.tim e.timer) := by
    rw [hcall]
    exact Function.update_self ..
  have hirq : (System.configure v { s with timers } e c).irq c.timer =
      { s.irq e.timer with enabled := false, flag := true } := by
    rw [hcall]
    exact Function.update_self ..
  refine .starting c ⟨rfl, hcall.symm, rfl, fun t => ?_, fun t ht hlast => ?_, fun t ht => ?_,
    by rw [htim, hprescaler], by rw [htim, hperiod], rfl⟩ ?_ (by rw [htim, hstill]) rfl ?_
  · show timers.owner t = .tone ↔ t = c.timer
    rw [howner, hcall]
    split_ifs with heq
    · exact iff_of_true rfl heq
    · exact iff_of_false (h.owner t) heq
  · rw [hcall] at ht
    have hbefore : s.last t = .tone := (Function.update_of_ne ht ..).symm.trans hlast
    obtain ⟨hfree, hdisabled⟩ := h.released t hbefore
    refine ⟨(howner t).trans ((if_neg ht).trans hfree), ?_⟩
    show (Function.update s.tim e.timer _ t).enabled = false
    rw [Function.update_of_ne ht]
    exact hdisabled
  · -- The handler is attached later.
    refine absurd ?_ (h.handler t)
    by_cases heq : t = e.timer
    · rw [heq, ← hcall, hirq] at ht
      rw [heq]
      exact ht
    · rwa [show (System.configure v { s with timers } e c).irq t = s.irq t from
        Function.update_of_ne heq ..] at ht
  · show (if c.duration = 0 then Place.go c
      else if routed e.timer then .attach c else .count c).starting = some c
    split_ifs <;> rfl
  · show Prepared _ c (if c.duration = 0 then Place.go c
      else if routed e.timer then .attach c else .count c)
    split_ifs with hzero hrouted
    · exact fun hends => absurd hzero hends.1.ne'
    · exact ⟨⟨Nat.pos_of_ne_zero hzero, hcall ▸ hrouted⟩, rfl, by rw [hirq]⟩
    · exact ⟨Nat.pos_of_ne_zero hzero, fun hends => absurd (hcall ▸ hends.2) hrouted⟩

/-- A call that looks for a timer finds none, or starts a tone. -/
theorem Quiet.start (h : Quiet s) (pin : ℕ) (hpos : 0 < frequency)
    (hrange : InRange v.hclk frequency duration) (hcall : ∀ c, s.call = some c →
      InRange v.hclk c.frequency c.duration ∧ 0 < c.frequency) :
    Inv v (s.start v pin frequency duration) ∧ Bounded v (s.start v pin frequency duration) := by
  have hnone : Inv v { s with place := .idle } ∧ Bounded v { s with place := .idle } :=
    ⟨.quiet ⟨h.silent, h.owner, h.released, h.handler, h.rang⟩ rfl, hcall, fun _ _ _ h => nomatch h⟩
  unfold System.start
  cases System.find v s.timers pin with
  | none => exact hnone
  | some e =>
    dsimp only
    cases hclaim : (s.timers.claim e.timer .tone).1 with
    | false => exact hnone
    | true =>
      rw [if_neg (by decide)]
      refine ⟨h.configure e rfl fun t => Registry.owner_claim hclaim, fun c hc => ?_,
        fun _ _ _ hafter => ?_⟩
      · cases hc
        exact ⟨hrange, hpos⟩
      · simp only [System.configure] at hafter
        split_ifs at hafter <;> cases hafter

/-- What a call does once no tone is active. -/
theorem Quiet.resume (h : Quiet s) {k : After} (hcall : ∀ c, s.call = some c →
      InRange v.hclk c.frequency c.duration ∧ 0 < c.frequency)
    (hafter : ∀ pin frequency duration, k = .tone pin frequency duration →
      InRange v.hclk frequency duration ∧ 0 < frequency) :
    Inv v (s.resume v k) ∧ Bounded v (s.resume v k) := by
  cases k with
  | done =>
    exact ⟨.quiet ⟨h.silent, h.owner, h.released, h.handler, h.rang⟩ rfl, hcall,
      fun _ _ _ h => nomatch h⟩
  | tone pin frequency duration =>
    obtain ⟨hrange, hpos⟩ := hafter _ _ _ rfl
    exact h.start pin hpos hrange hcall

/-- On the way through `tone_stop` only the place changes. -/
theorem Inv.move (h : Inv v s) (hfrom : s.place.starting = none) {place : Place}
    (hto : place.starting = none) (hdev : ∀ k dev, place = .halt k dev → dev = s.s_tone.timer) :
    Inv v { s with place } := by
  cases h with
  | quiet h => exact .quiet ⟨h.silent, h.owner, h.released, h.handler, h.rang⟩ hto
  | playing c h _ _ hruns hcounting =>
    exact .playing c ⟨h.active, h.timer, h.call, h.owner, h.released, h.handler, h.prescaler,
      h.period, h.rang⟩ hto (fun k dev hplace => (hdev k dev hplace).trans h.timer) hruns
      fun hends => ⟨(hcounting hends).attached, (hcounting hends).pos, (hcounting hends).total⟩
  | starting c _ hplace => cases hfrom.symm.trans hplace

/-! ### The calls -/

theorem Inv.noTone (h : Inv v s) (hbounded : Bounded v s) (hidle : s.place = .idle) (pin : ℕ) :
    Inv v (s.noTone pin) ∧ Bounded v (s.noTone pin) := by
  unfold System.noTone
  split_ifs
  · exact ⟨h.move (by rw [hidle]; rfl) rfl fun _ _ h => (nomatch h), hbounded.call,
      fun _ _ _ h => nomatch h⟩
  · exact ⟨h, hbounded⟩

theorem Inv.tone (h : Inv v s) (hbounded : Bounded v s) (hidle : s.place = .idle) {pin : ℕ}
    (hrange : pin < v.pinsCount → frequency ≠ 0 → InRange v.hclk frequency duration) :
    Inv v (s.tone v pin frequency duration) ∧ Bounded v (s.tone v pin frequency duration) := by
  unfold System.tone
  split_ifs with hrefused hactive
  · exact h.noTone hbounded hidle pin
  · obtain ⟨hpin, hpos⟩ := not_or.mp hrefused
    refine ⟨h.move (by rw [hidle]; rfl) rfl fun _ _ h => (nomatch h), hbounded.call,
      fun _ _ _ hafter => ?_⟩
    cases hafter
    exact ⟨hrange (not_le.mp hpin) hpos, Nat.pos_of_ne_zero hpos⟩
  · obtain ⟨hpin, hpos⟩ := not_or.mp hrefused
    cases h with
    | quiet h =>
      exact h.start pin (Nat.pos_of_ne_zero hpos) (hrange (not_le.mp hpin) hpos) hbounded.call
    | playing c h => exact absurd h.active hactive
    | starting c h => exact absurd h.active hactive

/-- A step of `tone_stop`. -/
theorem Inv.sketch_of_stopping (h : Inv v s) (hbounded : Bounded v s)
    (hplace : s.place.starting = none) (hstep : s.sketch v = some s') :
    Inv v s' ∧ Bounded v s' := by
  unfold System.sketch at hstep
  cases hat : s.place with
  | idle => rw [hat] at hstep; cases hstep
  | stop k =>
    have hafter : ∀ pin frequency duration, k = .tone pin frequency duration →
        InRange v.hclk frequency duration ∧ 0 < frequency := fun _ _ _ hk =>
      hbounded.after _ _ _ (by rw [hat, Place.after, hk])
    rw [hat] at hstep
    dsimp only at hstep
    rw [← Option.some.inj hstep]
    split_ifs with hsilent
    · cases h with
      | quiet h => exact h.resume hbounded.call hafter
      | playing c h => simp [h.active] at hsilent
      | starting c h => simp [h.active] at hsilent
    · refine ⟨h.move hplace rfl fun _ _ h => (nomatch h), hbounded.call, fun _ _ _ hk => ?_⟩
      exact hafter _ _ _ (Option.some.inj hk)
  | device k =>
    rw [hat] at hstep
    rw [← Option.some.inj hstep]
    refine ⟨h.move hplace rfl fun _ _ h => ?_, hbounded.call, fun _ _ _ hk => ?_⟩
    · cases h
      rfl
    · exact hbounded.after _ _ _ (by rw [hat]; exact hk)
  | halt k dev =>
    have hafter : ∀ pin frequency duration, k = .tone pin frequency duration →
        InRange v.hclk frequency duration ∧ 0 < frequency := fun _ _ _ hk =>
      hbounded.after _ _ _ (by rw [hat, Place.after, hk])
    have hcall : (s.halt dev).call = s.call := by rw [halt_eq]
    rw [hat] at hstep
    rw [← Option.some.inj hstep]
    have hquiet : Quiet (s.halt dev) := by
      cases h with
      | quiet h => exact h.halt dev
      | playing c h _ hdev =>
        rw [hdev k dev hat]
        exact h.halt
      | starting c _ hstarting => cases hplace.symm.trans hstarting
    exact hquiet.resume (hcall ▸ hbounded.call) hafter
  | attach c | unmask c | line c | count c | floor c | go c =>
    rw [hat] at hplace
    cases hplace

theorem onIrq_self (s : System) (t : ℕ) (f : Irq → Irq) : (s.onIrq t f).irq t = f (s.irq t) :=
  Function.update_self ..

theorem onIrq_of_ne (s : System) {t t' : ℕ} (h : t' ≠ t) (f : Irq → Irq) :
    (s.onIrq t f).irq t' = s.irq t' :=
  Function.update_of_ne h ..

/-- The interrupt of a tone's timer may be set up. -/
theorem Held.onIrq (h : Held v s c) (f : Irq → Irq) (place : Place)
    (hfn : (f (s.irq c.timer)).fn = some .tone → (s.irq c.timer).fn = some .tone ∨ c.Ends) :
    Held v { s.onIrq c.timer f with place } c := by
  refine h.congr rfl rfl rfl (fun _ => rfl) rfl (fun _ => ⟨rfl, rfl⟩) (fun _ _ => rfl)
    (fun t ht => ?_) rfl
  by_cases hc : t = c.timer
  · subst hc
    change ((s.onIrq c.timer f).irq c.timer).fn = some .tone at ht
    rw [onIrq_self] at ht
    exact (hfn ht).imp id fun hends => ⟨rfl, hends⟩
  · change ((s.onIrq c.timer f).irq t).fn = some .tone at ht
    rw [onIrq_of_ne s hc] at ht
    exact .inl ht

/-- A step of `tone` with its timer. -/
theorem Held.sketch (h : Held v s c) (hbounded : Bounded v s) (hplace : s.place.starting = some c)
    (hstill : (s.tim c.timer).enabled = false) (hperiods : s.periods = 0)
    (hprepared : Prepared s c s.place) (hintime : InTime v s .sketch)
    (hstep : s.sketch v = some s') : Inv v s' ∧ Bounded v s' := by
  have hwrap : periods c = c.duration * c.frequency / 1000 := by
    have hmod : c.duration * c.frequency % 4294967296 = c.duration * c.frequency :=
      Nat.mod_eq_of_lt (hbounded.call c h.call).1.count
    rw [periods, hmod]
  unfold System.sketch at hstep
  unfold InTime at hintime
  cases hat : s.place with
  | idle | stop k | device k | halt k dev =>
    rw [hat] at hplace
    cases hplace
  | attach c' =>
    rw [hat] at hplace hprepared hstep
    cases hplace
    cases hstep
    obtain ⟨hends, hremaining, hmasked⟩ := hprepared
    have hirq := onIrq_self s c.timer fun irq => { irq with fn := some .tone }
    refine ⟨.starting c (h.onIrq _ _ fun _ => .inr hends) rfl hstill hperiods ⟨hends, hremaining,
      ?_, ?_⟩, hbounded.call, fun _ _ _ h => nomatch h⟩
    · exact (congrArg Irq.enabled hirq).trans hmasked
    · exact congrArg Irq.fn hirq
  | unmask c' =>
    rw [hat] at hplace hprepared hstep
    cases hplace
    cases hstep
    obtain ⟨hends, hremaining, -, hfn⟩ := hprepared
    have hirq := onIrq_self s c.timer fun irq => { irq with enabled := true }
    refine ⟨.starting c (h.onIrq _ _ .inl) rfl hstill hperiods ⟨hends, fun _ => hremaining,
      ?_, ?_⟩, hbounded.call, fun _ _ _ h => nomatch h⟩
    · exact congrArg Irq.enabled hirq
    · exact (congrArg Irq.fn hirq).trans hfn
  | line c' =>
    rw [hat] at hplace hprepared hstep
    cases hplace
    cases hstep
    obtain ⟨hends, hremaining, henabled, hfn⟩ := hprepared
    have hirq := onIrq_self s c.timer fun irq => { irq with line := true }
    refine ⟨.starting c (h.onIrq _ _ .inl) rfl hstill hperiods ⟨hends.1, fun _ => ⟨⟨?_, ?_, ?_⟩,
      fun hflag => hremaining ?_⟩⟩, hbounded.call, fun _ _ _ h => nomatch h⟩
    · exact (congrArg Irq.fn hirq).trans hfn
    · exact (congrArg Irq.enabled hirq).trans henabled
    · exact congrArg Irq.line hirq
    · exact (congrArg Irq.flag hirq).symm.trans hflag
  | count c' =>
    rw [hat] at hplace hprepared hstep
    cases hplace
    cases hstep
    obtain ⟨hpos, hattached⟩ := hprepared
    exact ⟨.starting c (h.congr rfl rfl rfl (fun _ => rfl) rfl (fun _ => ⟨rfl, rfl⟩)
      (fun _ _ => rfl) (fun _ => .inl) rfl) rfl hstill hperiods
      ⟨hpos, hwrap, fun hends => (hattached hends).1⟩, hbounded.call, fun _ _ _ h => nomatch h⟩
  | floor c' =>
    rw [hat] at hplace hprepared hstep
    cases hplace
    cases hstep
    obtain ⟨hpos, hremaining, hattached⟩ := hprepared
    refine ⟨.starting c (h.congr rfl rfl rfl (fun _ => rfl) rfl (fun _ => ⟨rfl, rfl⟩)
      (fun _ _ => rfl) (fun _ => .inl) rfl) rfl hstill hperiods
      fun hends => ⟨hattached hends, ?_⟩, hbounded.call, fun _ _ _ h => nomatch h⟩
    show (if s.s_tone.remaining_ms = 0 then 1 else s.s_tone.remaining_ms) = c.count
    rw [hremaining, Call.count]
    split_ifs <;> omega
  | go c' =>
    rw [hat] at hplace hprepared hstep hintime
    cases hplace
    cases hstep
    have htim : ((s.onTim c.timer (·.cmd true)).tim c.timer) = (s.tim c.timer).cmd true :=
      Function.update_self ..
    have hothers (t : ℕ) (ht : t ≠ c.timer) :
        (s.onTim c.timer (·.cmd true)).tim t = s.tim t :=
      Function.update_of_ne ht ..
    have hheld : Held v { s.onTim c.timer (·.cmd true) with place := .idle } c := by
      refine h.congr rfl rfl rfl (fun _ => rfl) rfl (fun t => ?_) (fun t ht => ?_)
        (fun _ => .inl) rfl
      · by_cases ht : t = c.timer
        · subst ht
          dsimp only
          rw [htim]
          exact ⟨rfl, rfl⟩
        · dsimp only
          rw [hothers t ht]
          exact ⟨rfl, rfl⟩
      · exact congrArg Tim.enabled (hothers t ht)
    refine ⟨.playing c hheld rfl (fun _ _ h => nomatch h) (congrArg Tim.enabled htim)
      fun hends => ?_, hbounded.call, fun _ _ _ h => nomatch h⟩
    obtain ⟨hattached, hremaining⟩ := hprepared hends
    have hflag := hintime hends
    refine ⟨hattached, ?_, ?_⟩
    · have hone : 1 ≤ c.count := le_max_left _ _
      exact hone.trans hremaining.ge
    · show s.s_tone.remaining_ms + s.periods = c.count + ((s.irq c.timer).flag).toNat
      rw [hremaining, hperiods, hflag]
      rfl

/-! ### The interrupts -/

theorem Prepared.congr {place : Place} (h : Prepared s c place) (htone : s'.s_tone = s.s_tone)
    (hirq : s'.irq c.timer = s.irq c.timer) : Prepared s' c place := by
  cases place <;> (unfold Prepared at h ⊢; rw [hirq, htone]; exact h)

theorem Counting.congr (h : Counting s c) (htone : s'.s_tone = s.s_tone)
    (hirq : s'.irq c.timer = s.irq c.timer) (hperiods : s'.periods = s.periods) :
    Counting s' c := by
  obtain ⟨hattached, hpos, htotal⟩ := h
  refine ⟨?_, ?_, ?_⟩
  · rwa [hirq]
  · rwa [htone]
  · rwa [htone, hirq, hperiods]

/-- What a handler is attached to does not change with the flag. -/
theorem onIrq_flag_fn (s : System) (t t' : ℕ) (flag : Bool) :
    ((s.onIrq t fun irq => { irq with flag }).irq t').fn = (s.irq t').fn := by
  by_cases ht : t' = t
  · subst ht
    rw [onIrq_self]
  · rw [onIrq_of_ne s ht]

theorem Quiet.onIrq_flag (h : Quiet s) (t : ℕ) (flag : Bool) :
    Quiet (s.onIrq t fun irq => { irq with flag }) :=
  ⟨h.silent, h.owner, h.released, fun t' => (onIrq_flag_fn s t t' flag) ▸ h.handler t', h.rang⟩

theorem Held.onIrq_flag (h : Held v s c) (t : ℕ) (flag : Bool) :
    Held v (s.onIrq t fun irq => { irq with flag }) c :=
  h.congr rfl rfl rfl (fun _ => rfl) rfl (fun _ => ⟨rfl, rfl⟩) (fun _ _ => rfl)
    (fun t' ht' => .inl ((onIrq_flag_fn s t t' flag) ▸ ht')) rfl

/-- The flag of a timer that `tone` does not hold. -/
theorem Inv.onIrq_flag_of_ne (h : Inv v s) {t : ℕ} (flag : Bool)
    (hne : s.s_tone.active = true → s.s_tone.timer ≠ t) :
    Inv v (s.onIrq t fun irq => { irq with flag }) := by
  cases h with
  | quiet h hplace => exact .quiet (h.onIrq_flag t flag) hplace
  | playing c h hplace hdev hruns hcounting =>
    have hother : c.timer ≠ t := h.timer ▸ hne h.active
    exact .playing c (h.onIrq_flag t flag) hplace hdev hruns fun hends =>
      (hcounting hends).congr rfl (onIrq_of_ne s hother _) rfl
  | starting c h hplace hstill hperiods hprepared =>
    have hother : c.timer ≠ t := h.timer ▸ hne h.active
    exact .starting c (h.onIrq_flag t flag) hplace hstill hperiods
      (hprepared.congr rfl (onIrq_of_ne s hother _))

/-- A period of a timer is over. -/
theorem Inv.update (h : Inv v s) {t : ℕ} (hruns : (s.tim t).enabled = true)
    (hintime : (s.irq t).fn = some .tone → (s.irq t).flag = false) :
    Inv v { s.onIrq t (fun irq => { irq with flag := true }) with
      periods := if s.s_tone.active && s.s_tone.timer = t then s.periods + 1 else s.periods } := by
  by_cases hours : s.s_tone.active = true ∧ s.s_tone.timer = t
  · obtain ⟨hactive, rfl⟩ := hours
    rw [if_pos (by simp [hactive])]
    cases h with
    | quiet h => cases h.silent.symm.trans hactive
    | starting c h _ hstill =>
      rw [h.timer] at hruns
      cases hstill.symm.trans hruns
    | playing c h hplace hdev _ hcounting =>
      rw [h.timer] at hruns hintime ⊢
      have hirq := onIrq_self s c.timer fun irq => { irq with flag := true }
      have hheld := h.onIrq_flag c.timer true
      refine .playing c ⟨hheld.active, hheld.timer, hheld.call, hheld.owner, hheld.released,
        hheld.handler, hheld.prescaler, hheld.period, hheld.rang⟩ hplace hdev hruns
        fun hends => ⟨?_, (hcounting hends).pos, ?_⟩
      · have hattached := (hcounting hends).attached
        show Attached ((s.onIrq c.timer fun irq => { irq with flag := true }).irq c.timer)
        rw [hirq]
        exact ⟨hattached.fn, hattached.enabled, hattached.line⟩
      · -- The period that is over is counted once it is served.
        have htotal := (hcounting hends).total
        rw [hintime (hcounting hends).attached.fn] at htotal
        show s.s_tone.remaining_ms + (s.periods + 1) = c.count +
          ((s.onIrq c.timer fun irq => { irq with flag := true }).irq c.timer).flag.toNat
        rw [hirq]
        simp only [Bool.toNat_false, Bool.toNat_true] at htotal ⊢
        omega
  · have hother : s.s_tone.active = true → s.s_tone.timer ≠ t :=
      fun hactive htimer => hours ⟨hactive, htimer⟩
    rw [if_neg (by simpa using hother)]
    exact h.onIrq_flag_of_ne true hother

theorem toneTick_zero {t : ℕ} (h : s.s_tone.remaining_ms = 0) : s.toneTick t = s := by
  rw [System.toneTick, if_pos (by simp [h])]

theorem toneTick_succ {t : ℕ} (hactive : s.s_tone.active = true) (htimer : s.s_tone.timer = t)
    (h : 1 < s.s_tone.remaining_ms) : s.toneTick t =
      { s with s_tone := { s.s_tone with remaining_ms := s.s_tone.remaining_ms - 1 } } := by
  have hpos : s.s_tone.remaining_ms ≠ 0 := by omega
  have hrest : s.s_tone.remaining_ms - 1 ≠ 0 := by omega
  rw [System.toneTick, if_neg (by simp [hactive, htimer, hpos])]
  exact if_neg hrest

/-- The last period. -/
theorem toneTick_one {t : ℕ} (hactive : s.s_tone.active = true) (htimer : s.s_tone.timer = t)
    (h : s.s_tone.remaining_ms = 1) : s.toneTick t =
      { s with s_tone := { s.s_tone with remaining_ms := 0 }, rang := true }.halt t := by
  rw [System.toneTick, if_neg (by simp [hactive, htimer, h])]
  dsimp only
  rw [h, if_pos rfl, System.toneStop, if_neg (by simp [hactive])]
  dsimp only
  rw [htimer]

/-- What is taken is handled by `tone_tick`, or only the flag is cleared. -/
theorem dispatch_eq {t : ℕ}
    (h : ((s.irq t).line && (s.irq t).enabled && (s.irq t).flag) = true) : s.dispatch t =
      if (s.irq t).fn = some .tone then
        (s.onIrq t fun irq => { irq with flag := false }).toneTick t
      else s.onIrq t fun irq => { irq with flag := false } := by
  simp only [Bool.and_eq_true] at h
  unfold System.dispatch
  rw [if_neg (by simp [h])]
  dsimp only
  rw [onIrq_self]

/-- The latched update, or another that is taken before the counter runs, stops nothing. -/
theorem Held.serve (h : Held v s c) (hplace : s.place.starting = some c)
    (hstill : (s.tim c.timer).enabled = false) (hperiods : s.periods = 0)
    (hprepared : Prepared s c s.place) (hends : c.Ends) (henabled : (s.irq c.timer).enabled = true)
    (hflag : (s.irq c.timer).flag = true) (hfn : (s.irq c.timer).fn = some .tone)
    (hintime : InTime v s (.serve c.timer)) :
    Inv v ((s.onIrq c.timer fun irq => { irq with flag := false }).toneTick c.timer) := by
  set s₁ := s.onIrq c.timer fun irq => { irq with flag := false } with hs₁
  have hirq : s₁.irq c.timer = { s.irq c.timer with flag := false } := onIrq_self ..
  have hheld : Held v s₁ c := h.onIrq_flag c.timer false
  have htick (hmore : 1 < s.s_tone.remaining_ms) := toneTick_succ hheld.active hheld.timer hmore
  unfold InTime at hintime
  have hintime := hintime hfn
  -- What the tick leaves of a tone that it does not stop.
  have hticked : Held v { s₁ with
      s_tone := { s₁.s_tone with remaining_ms := s₁.s_tone.remaining_ms - 1 } } c :=
    hheld.congr rfl rfl rfl (fun _ => rfl) rfl (fun _ => ⟨rfl, rfl⟩) (fun _ _ => rfl)
      (fun _ => .inl) rfl
  have hcleared : ¬ (s₁.irq c.timer).flag = true := by
    rw [hirq]
    exact Bool.false_ne_true
  have hstarting := hplace
  cases hat : s.place with
  | idle | stop k | device k | halt k dev =>
    rw [hat] at hplace
    cases hplace
  | attach c' =>
    rw [hat] at hprepared
    cases hprepared.2.2.symm.trans henabled
  | unmask c' =>
    rw [hat] at hprepared
    cases hprepared.2.2.1.symm.trans henabled
  | line c' =>
    rw [hat] at hplace hprepared hintime
    cases hplace
    obtain ⟨-, hremaining, -, -⟩ := hprepared
    have hmore : 1 < s.s_tone.remaining_ms := by
      have := hremaining hflag
      have := hends.1
      omega
    rw [htick hmore]
    refine .starting c hticked hstarting hstill hperiods ?_
    show Prepared _ c s.place
    rw [hat]
    exact ⟨hends, fun hflag => absurd hflag hcleared, by rw [hirq]; exact henabled,
      by rw [hirq]; exact hfn⟩
  | count c' =>
    rw [hat] at hplace hprepared hintime
    cases hplace
    obtain ⟨hpos, hattached⟩ := hprepared
    obtain ⟨hattached, hremaining⟩ := hattached hends
    have hmore : 1 < s.s_tone.remaining_ms := by
      have := hremaining hflag
      omega
    rw [htick hmore]
    refine .starting c hticked hstarting hstill hperiods ?_
    show Prepared _ c s.place
    rw [hat]
    exact ⟨hpos, fun _ => ⟨⟨by rw [hirq]; exact hattached.fn, by rw [hirq]; exact henabled,
      by rw [hirq]; exact hattached.line⟩, fun hflag => absurd hflag hcleared⟩⟩
  | floor c' =>
    rw [hat] at hplace hprepared hintime
    cases hplace
    obtain ⟨hpos, hremaining, hattached⟩ := hprepared
    have hzero : s.s_tone.remaining_ms = 0 := by
      rw [hremaining]
      exact Nat.div_eq_of_lt hintime
    rw [toneTick_zero (show s₁.s_tone.remaining_ms = 0 from hzero)]
    refine .starting c hheld hstarting hstill hperiods ?_
    show Prepared _ c s.place
    rw [hat]
    have hattached := hattached hends
    exact ⟨hpos, hremaining, fun _ => ⟨by rw [hirq]; exact hattached.fn,
      by rw [hirq]; exact henabled, by rw [hirq]; exact hattached.line⟩⟩
  | go c' =>
    rw [hat] at hintime
    exact hintime.elim

/-- A period of a running tone is counted, and the last one stops it. -/
theorem Counting.serve (hcounting : Counting s c) (h : Held v s c)
    (hplace : s.place.starting = none) (hdev : ∀ k dev, s.place = .halt k dev → dev = c.timer)
    (hruns : (s.tim c.timer).enabled = true) (hends : c.Ends)
    (hflag : (s.irq c.timer).flag = true) :
    Inv v ((s.onIrq c.timer fun irq => { irq with flag := false }).toneTick c.timer) := by
  set s₁ := s.onIrq c.timer fun irq => { irq with flag := false } with hs₁
  have hirq : s₁.irq c.timer = { s.irq c.timer with flag := false } := onIrq_self ..
  have hheld : Held v s₁ c := h.onIrq_flag c.timer false
  obtain ⟨hattached, hpos, htotal⟩ := hcounting
  rw [hflag, Bool.toNat_true] at htotal
  rcases Nat.lt_or_eq_of_le (Nat.succ_le_of_lt hpos) with hmore | hone
  · rw [toneTick_succ hheld.active hheld.timer hmore]
    refine .playing c (hheld.congr rfl rfl rfl (fun _ => rfl) rfl (fun _ => ⟨rfl, rfl⟩)
      (fun _ _ => rfl) (fun _ => .inl) rfl) hplace hdev hruns fun _ => ⟨?_, ?_, ?_⟩
    · show Attached (s₁.irq c.timer)
      rw [hirq]
      exact ⟨hattached.fn, hattached.enabled, hattached.line⟩
    · exact Nat.sub_pos_of_lt hmore
    · show s.s_tone.remaining_ms - 1 + s.periods = c.count + (s₁.irq c.timer).flag.toNat
      rw [hirq, Bool.toNat_false]
      omega
  · rw [toneTick_one hheld.active hheld.timer hone.symm]
    have hticked : Held v { s₁ with s_tone := { s₁.s_tone with remaining_ms := 0 } } c :=
      hheld.congr rfl rfl rfl (fun _ => rfl) rfl (fun _ => ⟨rfl, rfl⟩) (fun _ _ => rfl)
        (fun _ => .inl) rfl
    refine .quiet (hticked.quiet_halt true fun _ => ⟨hends, ?_⟩) ?_
    · show s.periods = c.count
      omega
    · rw [halt_eq]
      exact hplace

/-- Without the handler an update counts nothing. -/
theorem Inv.clear_of_unattached (h : Inv v s) (hactive : s.s_tone.active = true)
    (henabled : (s.irq s.s_tone.timer).enabled = true)
    (hfn : (s.irq s.s_tone.timer).fn ≠ some .tone) :
    Inv v (s.onIrq s.s_tone.timer fun irq => { irq with flag := false }) := by
  cases h with
  | quiet h => cases h.silent.symm.trans hactive
  | playing c h hplace hdev hruns hcounting =>
    refine .playing c (h.onIrq_flag _ _) hplace hdev hruns fun hends => ?_
    exact absurd (h.timer ▸ (hcounting hends).attached.fn) hfn
  | starting c h hplace hstill hperiods hprepared =>
    refine .starting c (h.onIrq_flag _ _) hplace hstill hperiods ?_
    rw [h.timer] at henabled hfn
    show Prepared _ c s.place
    cases hat : s.place with
    | idle | stop k | device k | halt k dev => trivial
    | attach c' =>
      rw [hat] at hprepared
      cases hprepared.2.2.symm.trans henabled
    | unmask c' =>
      rw [hat] at hprepared
      exact absurd hprepared.2.2.2 hfn
    | line c' =>
      rw [hat] at hprepared
      exact absurd hprepared.2.2.2 hfn
    | count c' =>
      rw [hat] at hprepared
      exact ⟨hprepared.1, fun hends => absurd (hprepared.2 hends).1.fn hfn⟩
    | floor c' =>
      rw [hat] at hprepared
      exact ⟨hprepared.1, hprepared.2.1, fun hends => absurd (hprepared.2.2 hends).fn hfn⟩
    | go c' =>
      rw [hat] at hprepared
      exact fun hends => absurd (hprepared hends).1.fn hfn

theorem Inv.serve (h : Inv v s) {t : ℕ} (hintime : InTime v s (.serve t))
    (htaken : ((s.irq t).line && (s.irq t).enabled && (s.irq t).flag) = true) :
    Inv v (s.dispatch t) := by
  have hparts := htaken
  simp only [Bool.and_eq_true] at hparts
  obtain ⟨⟨-, henabled⟩, hflag⟩ := hparts
  rw [dispatch_eq htaken]
  by_cases hfn : (s.irq t).fn = some .tone
  · rw [if_pos hfn]
    cases h with
    | quiet h => exact absurd hfn (h.handler t)
    | playing c h hplace hdev hruns hcounting =>
      obtain ⟨rfl, hends⟩ := h.handler t hfn
      exact (hcounting hends).serve h hplace hdev hruns hends hflag
    | starting c h hplace hstill hperiods hprepared =>
      obtain ⟨rfl, hends⟩ := h.handler t hfn
      exact h.serve hplace hstill hperiods hprepared hends henabled hflag hfn hintime
  · rw [if_neg hfn]
    by_cases hours : s.s_tone.active = true ∧ s.s_tone.timer = t
    · obtain ⟨hactive, rfl⟩ := hours
      exact h.clear_of_unattached hactive henabled hfn
    · exact h.onIrq_flag_of_ne false fun hactive htimer => hours ⟨hactive, htimer⟩

/-! ### The other owners -/

/-- What they do to timers that `tone` does not hold. -/
theorem Inv.others (h : Inv v s) {timers : Registry} {tim : ℕ → Tim} {irq : ℕ → Irq}
    {last : ℕ → Owner} (howner : ∀ t, timers.owner t = .tone ↔ s.timers.owner t = .tone)
    (hreleased : ∀ t, last t = .tone → s.timers.owner t ≠ .tone → s.last t = .tone ∧
      timers.owner t = s.timers.owner t ∧ (tim t).enabled = (s.tim t).enabled)
    (hkept : ∀ t, s.timers.owner t = .tone → tim t = s.tim t ∧ irq t = s.irq t)
    (hfn : ∀ t, (irq t).fn = some .tone → (s.irq t).fn = some .tone) :
    Inv v { s with timers, tim, irq, last } := by
  have hheld (c : Call) (h : Held v s c) : Held v { s with timers, tim, irq, last } c := by
    have hours := hkept c.timer ((h.owner c.timer).mpr rfl)
    refine ⟨h.active, h.timer, h.call, fun t => (howner t).trans (h.owner t), fun t ht hlast => ?_,
      fun t ht => h.handler t (hfn t ht), ?_, ?_, h.rang⟩
    · obtain ⟨hbefore, hsame, hrun⟩ := hreleased t hlast fun htone => ht ((h.owner t).mp htone)
      obtain ⟨hfree, hdisabled⟩ := h.released t ht hbefore
      exact ⟨hsame.trans hfree, hrun.trans hdisabled⟩
    · exact (congrArg Tim.prescaler hours.1).trans h.prescaler
    · exact (congrArg Tim.period hours.1).trans h.period
  cases h with
  | quiet h hplace =>
    refine .quiet ⟨h.silent, fun t => mt (howner t).mp (h.owner t), fun t hlast => ?_,
      fun t ht => h.handler t (hfn t ht), h.rang⟩ hplace
    obtain ⟨hbefore, hsame, hrun⟩ := hreleased t hlast (h.owner t)
    obtain ⟨hfree, hdisabled⟩ := h.released t hbefore
    exact ⟨hsame.trans hfree, hrun.trans hdisabled⟩
  | playing c h hplace hdev hruns hcounting =>
    obtain ⟨htim, hirq⟩ := hkept c.timer ((h.owner c.timer).mpr rfl)
    exact .playing c (hheld c h) hplace hdev ((congrArg Tim.enabled htim).trans hruns)
      fun hends => (hcounting hends).congr rfl hirq rfl
  | starting c h hplace hstill hperiods hprepared =>
    obtain ⟨htim, hirq⟩ := hkept c.timer ((h.owner c.timer).mpr rfl)
    exact .starting c (hheld c h) hplace ((congrArg Tim.enabled htim).trans hstill) hperiods
      (hprepared.congr rfl hirq)

/-- A timer that `tone` claimed last has no other owner. -/
theorem Inv.last_owner (h : Inv v s) {t : ℕ} (hlast : s.last t = .tone) :
    s.timers.owner t = .tone ∨ s.timers.owner t = .free := by
  cases h with
  | quiet h => exact .inr (h.released t hlast).1
  | playing c h | starting c h =>
    by_cases ht : t = c.timer
    · exact .inl ((h.owner t).mpr ht)
    · exact .inr (h.released t ht hlast).1

variable {o : System.Other}

theorem Inv.claim (h : Inv v s) (t : ℕ) : Inv v (s.claim o t) := by
  unfold System.claim
  dsimp only
  split_ifs with hclaim
  · have howner (t' : ℕ) := Registry.owner_claim (t := t') hclaim
    have hheld := hclaim.symm.trans (Registry.claim_fst o.2.1)
    have hother : s.timers.owner t ≠ .tone := by
      intro htone
      rw [htone] at hheld
      simp [o.2.2.symm] at hheld
    refine h.others (fun t' => ?_) (fun t' hlast _ => ?_) (fun _ _ => ⟨rfl, rfl⟩) fun _ => id
    · rw [howner]
      split_ifs with heq
      · subst heq
        exact iff_of_false o.2.2 hother
      · exact Iff.rfl
    · have hne : t' ≠ t := by
        rintro rfl
        rw [Function.update_self] at hlast
        exact o.2.2 hlast
      rw [Function.update_of_ne hne] at hlast
      exact ⟨hlast, (howner t').trans (if_neg hne), rfl⟩
  · exact h

theorem Inv.program (h : Inv v s) {t : ℕ} (howner : s.timers.owner t = o) (dev : Tim) (irq : Irq)
    (hfn : irq.fn = some o.1) :
    Inv v { s with tim := Function.update s.tim t dev, irq := Function.update s.irq t irq } := by
  refine h.others (fun _ => Iff.rfl) (fun t' hlast htone => ⟨hlast, rfl, ?_⟩) (fun t' htone => ?_)
    fun t' ht' => ?_
  · have hne : t' ≠ t := by
      rintro rfl
      rcases h.last_owner hlast with htone | hfree
      · exact o.2.2 (howner.symm.trans htone)
      · exact o.2.1 (howner.symm.trans hfree)
    rw [Function.update_of_ne hne]
  · have hne : t' ≠ t := by
      rintro rfl
      exact o.2.2 (howner.symm.trans htone)
    exact ⟨Function.update_of_ne hne .., Function.update_of_ne hne ..⟩
  · by_cases heq : t' = t
    · subst heq
      rw [Function.update_self, hfn] at ht'
      exact absurd (Option.some.inj ht') o.2.2
    · rwa [Function.update_of_ne heq] at ht'

theorem Inv.release (h : Inv v s) (t : ℕ) :
    Inv v { s with timers := s.timers.release t o } := by
  have howner (t' : ℕ) : (s.timers.release t o).owner t' =
      if t' = t ∧ s.timers.owner t = o then .free else s.timers.owner t' :=
    Registry.owner_release
  refine h.others (fun t' => ?_) (fun t' hlast htone => ⟨hlast, ?_, rfl⟩)
    (fun _ _ => ⟨rfl, rfl⟩) fun _ => id
  · rw [howner]
    split_ifs with hheld
    · obtain ⟨rfl, hheld⟩ := hheld
      exact iff_of_false (by decide) fun htone => o.2.2 (hheld.symm.trans htone)
    · exact Iff.rfl
  · rw [howner, if_neg]
    rintro ⟨rfl, hheld⟩
    rcases h.last_owner hlast with htone' | hfree
    · exact htone htone'
    · exact o.2.1 (hheld.symm.trans hfree)

/-! ### Runs -/

/-- An interrupt starts no tone, and leaves the sketch where it is. -/
theorem dispatch_keeps (s : System) (t : ℕ) :
    (s.dispatch t).call = s.call ∧ (s.dispatch t).place = s.place := by
  unfold System.dispatch System.toneTick System.toneStop
  dsimp only
  split_ifs <;> first | exact ⟨rfl, rfl⟩ | (rw [halt_eq]; exact ⟨rfl, rfl⟩)

theorem Inv.step (h : Inv v s ∧ Bounded v s) {a : System.Action} (hintime : InTime v s a)
    (hstep : (machine v).step s a = some s') : Inv v s' ∧ Bounded v s' := by
  obtain ⟨h, hbounded⟩ := h
  change s.act v a = some s' at hstep
  cases a with
  | tone pin frequency duration =>
    simp only [System.act, Option.ite_none_right_eq_some, Option.some_inj] at hstep
    obtain ⟨hidle, rfl⟩ := hstep
    exact h.tone hbounded hidle hintime
  | noTone pin =>
    simp only [System.act, Option.ite_none_right_eq_some, Option.some_inj] at hstep
    obtain ⟨hidle, rfl⟩ := hstep
    exact h.noTone hbounded hidle pin
  | sketch =>
    cases hplace : s.place.starting with
    | none => exact h.sketch_of_stopping hbounded hplace hstep
    | some c =>
      cases h with
      | quiet _ hnone | playing _ _ hnone => cases hplace.symm.trans hnone
      | starting c' h hplace' hstill hperiods hprepared =>
        exact h.sketch hbounded hplace' hstill hperiods hprepared hintime hstep
  | update t =>
    simp only [System.act, Option.ite_none_right_eq_some, Option.some_inj] at hstep
    obtain ⟨hruns, rfl⟩ := hstep
    exact ⟨h.update hruns hintime, hbounded.call, hbounded.after⟩
  | serve t =>
    simp only [System.act, Option.ite_none_right_eq_some, Option.some_inj] at hstep
    obtain ⟨htaken, rfl⟩ := hstep
    obtain ⟨hcall, hplace⟩ := dispatch_keeps s t
    exact ⟨h.serve hintime htaken, fun c hc => hbounded.call c (hcall ▸ hc),
      fun _ _ _ hafter => hbounded.after _ _ _ (hplace ▸ hafter)⟩
  | claim o t =>
    simp only [System.act, Option.ite_none_right_eq_some, Option.some_inj] at hstep
    obtain ⟨-, rfl⟩ := hstep
    refine ⟨h.claim t, ?_⟩
    unfold System.claim
    dsimp only
    split_ifs <;> exact ⟨hbounded.call, hbounded.after⟩
  | program o t dev enabled flag line =>
    simp only [System.act, Option.ite_none_right_eq_some, Option.some_inj] at hstep
    obtain ⟨⟨-, howner⟩, rfl⟩ := hstep
    exact ⟨h.program howner dev _ rfl, hbounded.call, hbounded.after⟩
  | release o t =>
    simp only [System.act, Option.ite_none_right_eq_some, Option.some_inj] at hstep
    obtain ⟨-, rfl⟩ := hstep
    exact ⟨h.release t, hbounded.call, hbounded.after⟩

theorem Quiet.of_fresh (h : s.Fresh) : Quiet s where
  silent := h.silent
  owner t ht := by
    rw [Registry.owner, h.free] at ht
    split_ifs at ht
  released t ht := by cases (h.never t).symm.trans ht
  handler t ht := by cases (h.unattached t).symm.trans ht
  rang hrang := by cases h.quiet.symm.trans hrang

theorem inv_of_reachable (h : (machine v).Reachable (InTime v) s) : Inv v s ∧ Bounded v s := by
  refine invariant (I := fun s => Inv v s ∧ Bounded v s) (fun s hfresh => ?_)
    (fun s a s' hinv hintime hstep => Inv.step hinv hintime hstep) h
  refine ⟨.quiet (.of_fresh hfresh) (by rw [hfresh.idle]; rfl), fun c hc => ?_, fun _ _ _ hk => ?_⟩
  · cases hfresh.noCall.symm.trans hc
  · rw [hfresh.idle] at hk
    cases hk

/-- The last update of a tone stops it. -/
theorem Counting.dispatch (h : Counting s c) (hheld : Held v s c) (hperiods : s.periods = c.count)
    (hflag : (s.irq c.timer).flag = true) :
    ((s.irq c.timer).line && (s.irq c.timer).enabled && (s.irq c.timer).flag) = true ∧
      (s.dispatch c.timer).s_tone.active = false := by
  obtain ⟨hattached, hpos, htotal⟩ := h
  have htaken :
      ((s.irq c.timer).line && (s.irq c.timer).enabled && (s.irq c.timer).flag) = true := by
    simp [hattached.line, hattached.enabled, hflag]
  have hone : s.s_tone.remaining_ms = 1 := by
    rw [hflag, Bool.toNat_true] at htotal
    omega
  have hheld₁ := hheld.onIrq_flag c.timer false
  refine ⟨htaken, ?_⟩
  rw [dispatch_eq htaken, if_pos hattached.fn, toneTick_one hheld₁.active hheld₁.timer hone,
    halt_eq]

theorem Inv.sounds (h : Inv v s) (hbounded : Bounded v s) : Sounds v s where
  tuned c hc := by
    obtain ⟨hrange, hpos⟩ := hbounded.call c hc
    exact (tuned_iff hpos).mpr hrange
  registers hactive := by
    cases h with
    | quiet h => cases h.silent.symm.trans hactive
    | playing c h | starting c h => exact ⟨c, h.call, h.timer.symm, h.prescaler, h.period⟩
  runs hidle hactive := by
    cases h with
    | quiet h => cases h.silent.symm.trans hactive
    | playing c h _ _ hruns => rwa [h.timer]
    | starting c _ hplace =>
      rw [hidle] at hplace
      cases hplace
  lasts c hc hends hidle hactive := by
    cases h with
    | quiet h => cases h.silent.symm.trans hactive
    | starting c' _ hplace =>
      rw [hidle] at hplace
      cases hplace
    | playing c' h _ _ _ hcounting =>
      cases h.call.symm.trans hc
      have hcounting := hcounting hends
      have hpos := hcounting.pos
      have htotal := hcounting.total
      by_cases hlast : s.periods = c.count
      · have hflag : (s.irq c.timer).flag = true := by
          by_contra hclear
          rw [Bool.eq_false_iff.mpr hclear, Bool.toNat_false] at htotal
          omega
        exact .inr ⟨hlast, hcounting.dispatch h hlast hflag⟩
      · have hone := Bool.toNat_le (s.irq c.timer).flag
        exact .inl (by omega)
  rang hrang := by
    cases h with
    | quiet h => exact h.rang hrang
    | playing c h | starting c h => cases h.rang.symm.trans hrang
  stopped _ hsilent t hlast := by
    cases h with
    | quiet h => exact h.released t hlast
    | playing c h | starting c h => cases h.active.symm.trans hsilent

/-- **In every run in time tones sound as asked, and the numbers are right exactly in range.** -/
theorem sounds_of_reachable (h : (machine v).Reachable (InTime v) s) :
    Sounds v s ∧ ∀ frequency duration, 0 < frequency →
      (Tuned v.hclk frequency duration ↔ InRange v.hclk frequency duration) := by
  obtain ⟨hinv, hbounded⟩ := inv_of_reachable h
  exact ⟨hinv.sounds hbounded, fun _ _ => tuned_iff⟩

def atRest : System where
  s_tone := ⟨255, 0, 0, 0, false⟩
  timers := fun _ => .free
  tim := fun _ => ⟨false, 0, 65535, fun _ => ⟨false, false, 0⟩, false, false⟩
  irq := fun _ => ⟨none, false, false, false⟩
  pads := fun _ => .reset
  place := .idle
  last := fun _ => .free
  call := none
  periods := 0
  rang := false

theorem atRest_fresh : atRest.Fresh where
  free _ := rfl
  never _ := rfl
  silent := rfl
  unattached _ := rfl
  idle := rfl
  noCall := rfl
  quiet := rfl

/-- Three milliseconds of 1 kHz on PB3, the latched update taken as soon as it is enabled. -/
theorem sounds_three_periods : ∃ s, (machine Pwm.threePins).run (InTime Pwm.threePins) atRest
      [.tone 19 1000 3, .sketch, .sketch, .sketch, .serve 2, .sketch, .sketch, .sketch,
        .update 2, .serve 2, .update 2, .serve 2, .update 2, .serve 2] = some s ∧
    (s.rang = true ∧ s.periods = 3) ∧ Sounds Pwm.threePins s := by
  have hrun : ((machine Pwm.threePins).run (InTime Pwm.threePins) atRest
      [.tone 19 1000 3, .sketch, .sketch, .sketch, .serve 2, .sketch, .sketch, .sketch,
        .update 2, .serve 2, .update 2, .serve 2, .update 2, .serve 2]).map
      (fun s => (s.rang, s.periods)) = some (true, 3) := by decide +kernel
  obtain ⟨s, hs, hstate⟩ := Option.map_eq_some_iff.mp hrun
  exact ⟨s, hs, Prod.mk.inj hstate,
    (sounds_of_reachable (reachable_of_run (.init atRest_fresh) hs)).1⟩

/-- A tone of one millisecond is stopped before its timer is started. -/
theorem not_sounds_of_reachable :
    ¬ ∀ (v : Variant) (s : System), (machine v).Reachable anyStep s → Sounds v s := by
  intro hall
  have hrun : ((machine Pwm.threePins).run anyStep atRest
      [.tone 19 1000 1, .sketch, .sketch, .sketch, .serve 2, .sketch, .sketch, .sketch]).map
      (fun s => (s.place, s.s_tone.active, s.last 2, (s.tim 2).enabled)) =
      some (.idle, false, .tone, true) := by decide +kernel
  obtain ⟨s, hs, hstate⟩ := Option.map_eq_some_iff.mp hrun
  simp only [Prod.mk.injEq] at hstate
  obtain ⟨hidle, hsilent, hlast, hruns⟩ := hstate
  have hsounds := hall Pwm.threePins s (reachable_of_run (.init atRest_fresh) hs)
  cases hruns.symm.trans (hsounds.stopped hidle hsilent 2 hlast).2

end Ch32h4.Timer.Tone
