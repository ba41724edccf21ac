import Mathlib.Logic.Function.Basic
import Mathlib.Data.Nat.Notation
import Mathlib.Tactic.SplitIfs

/-!
# Timers, who owns them, and the pins they reach

`Registry` is the table of owners of `ch32h4_timer.c`, with `claim`, `release` and `owner`.  `Tim`
is what the registers of one timer hold as far as the PWM code sets them, `Board` puts the registry,
the timers and the pins together, and `Variant` is what the board's variant provides: the number of
pins and `g_pwm_af_map`, which says what timer channel drives what pin.
-/

namespace Ch32h4.Timer

/-! ### Owners -/

/-- Who may own a timer. -/
inductive Owner
  | free | pwm | tone | servo | i2s | adc | user | ticker | audio
deriving DecidableEq, Repr

/-- `CH32H4_TIMER_COUNT`. -/
abbrev timerCount : ℕ := 12

def valid (id : ℕ) : Bool :=
  1 ≤ id && id ≤ timerCount

/-- `s_owner`. -/
abbrev Registry := ℕ → Owner

namespace Registry

/-- `ch32h4_timer_claim`. -/
def claim (s_owner : Registry) (id : ℕ) (owner : Owner) : Bool × Registry :=
  if !valid id || owner = .free then (false, s_owner)
  else if s_owner id = .free || s_owner id = owner then
    (true, Function.update s_owner id owner)
  else (false, s_owner)

/-- `ch32h4_timer_release`. -/
def release (s_owner : Registry) (id : ℕ) (owner : Owner) : Registry :=
  if valid id && s_owner id = owner then Function.update s_owner id .free else s_owner

/-- `ch32h4_timer_owner`. -/
def owner (s_owner : Registry) (id : ℕ) : Owner :=
  if valid id then s_owner id else .free

variable {timers : Registry} {id t : ℕ} {o o' : Owner}

/-- A claim succeeds just if the timer is free or held by the same owner. -/
theorem claim_fst (ho : o ≠ .free) : (timers.claim id o).1 =
    (valid id && (timers.owner id = .free || timers.owner id = o)) := by
  unfold claim owner
  by_cases hvalid : valid id
  · by_cases hfree : timers id = .free <;> by_cases hsame : timers id = o <;>
      simp [hvalid, ho, hfree, hsame]
  · simp [hvalid]

theorem owner_claim (htaken : (timers.claim id o).1 = true) :
    (timers.claim id o).2.owner t = if t = id then o else timers.owner t := by
  unfold claim at htaken ⊢
  split_ifs at htaken ⊢ with hbad hfree ht
  · subst ht
    have hvalid : valid t = true := by grind
    show owner (Function.update timers t o) t = o
    rw [owner, if_pos hvalid, Function.update_self]
  · show owner (Function.update timers id o) t = owner timers t
    rw [owner, owner, Function.update_of_ne ht]

theorem claim_of_fst_false (hrefused : (timers.claim id o).1 = false) :
    (timers.claim id o).2 = timers := by
  unfold claim at hrefused ⊢
  split_ifs at hrefused ⊢ <;> rfl

theorem owner_release : (timers.release id o).owner t =
    if t = id ∧ timers.owner id = o then .free else timers.owner t := by
  unfold release owner
  split_ifs <;> grind

theorem release_of_ne (hne : timers.owner id ≠ o) :
    timers.release id o = timers := by
  unfold owner at hne
  unfold release
  split_ifs <;> grind

/-- A step that takes no timer from an owner and gives it none. -/
structure Foreign (me : Owner) (id : ℕ) (timers' timers : Registry) : Prop where
  before : timers.owner id ≠ me
  after : timers'.owner id ≠ me
  others : ∀ t, t ≠ id → timers'.owner t = timers.owner t

theorem foreign_claim (timers : Registry) (id : ℕ) {me : Owner} (ho : o ≠ .free ∧ o ≠ me)
    (hme : Owner.free ≠ me) :
    (timers.claim id o).2 = timers ∨ Foreign me id (timers.claim id o).2 timers := by
  cases hclaim : (timers.claim id o).1 with
  | false => exact .inl (claim_of_fst_false hclaim)
  | true =>
    have hheld := hclaim.symm.trans (claim_fst ho.1)
    have howner (t : ℕ) := owner_claim (t := t) hclaim
    refine .inr ⟨?_, ?_, fun t ht => (howner t).trans (if_neg ht)⟩
    · rintro rfl
      obtain ⟨-, hheld⟩ := Bool.and_eq_true_iff.mp hheld.symm
      rcases Bool.or_eq_true_iff.mp hheld with hfree | hsame
      · exact hme (of_decide_eq_true hfree).symm
      · exact ho.2 (of_decide_eq_true hsame).symm
    · rw [howner, if_pos rfl]
      exact ho.2

theorem foreign_release (timers : Registry) (id : ℕ) {me : Owner} (ho : o ≠ .free ∧ o ≠ me)
    (hme : Owner.free ≠ me) :
    timers.release id o = timers ∨ Foreign me id (timers.release id o) timers := by
  by_cases hheld : timers.owner id = o
  · refine .inr ⟨hheld.symm ▸ ho.2, ?_, fun t ht => owner_release.trans (if_neg fun h => ht h.1)⟩
    rw [owner_release, if_pos ⟨rfl, hheld⟩]
    exact hme
  · exact .inl (release_of_ne hheld)

end Registry

/-! ### The timers -/

/-- One compare channel. -/
structure Channel where
  /-- The output drives its pin. -/
  output : Bool
  /-- The complementary output drives its pin. -/
  outputN : Bool
  compare : ℕ
deriving DecidableEq, Repr

/-- The registers of one timer. -/
structure Tim where
  /-- The clock of the block is on. -/
  clock : Bool
  prescaler : ℕ
  period : ℕ
  channels : ℕ → Channel
  /-- The main output enable of the advanced timers. -/
  mainOutput : Bool
  /-- The counter runs. -/
  enabled : Bool

namespace Tim

/-- `ch32h4_timer_reset`: a reset pulse of the block, the clock gate is not part of it. -/
def reset (dev : Tim) : Tim where
  clock := dev.clock
  prescaler := 0
  period := 65535
  channels := fun _ => ⟨false, false, 0⟩
  mainOutput := false
  enabled := false

/-- `TIM_TimeBaseInit` with the period preloaded. -/
def timeBaseInit (dev : Tim) (prescaler period : ℕ) : Tim :=
  { dev with prescaler, period }

/-- The `switch (channel)`: what is none of the first three is the fourth. -/
def channelIndex (channel : ℕ) : ℕ :=
  if channel = 1 ∨ channel = 2 ∨ channel = 3 then channel else 4

/-- `TIM_OCxInit`. -/
def ocInit (dev : Tim) (channel : ℕ) (config : Channel) : Tim :=
  { dev with channels := Function.update dev.channels (channelIndex channel) config }

/-- `TIM_SetComparex`. -/
def setCompare (dev : Tim) (channel compare : ℕ) : Tim :=
  dev.ocInit channel { dev.channels (channelIndex channel) with compare }

/-- `TIM_CtrlPWMOutputs`. -/
def ctrlPWMOutputs (dev : Tim) (state : Bool) : Tim :=
  { dev with mainOutput := state }

/-- `TIM_Cmd`. -/
def cmd (dev : Tim) (state : Bool) : Tim :=
  { dev with enabled := state }

end Tim

/-! ### The board -/

/-- `ch32h4_pwm_af_t`: what a pin can do. -/
structure PwmAf where
  pin : ℕ
  timer : ℕ
  channel : ℕ
  /-- The pad is the complementary output of the channel. -/
  negated : Bool
  af : ℕ
deriving DecidableEq, Repr

/-- What a pin is set up as. -/
inductive PinMode
  | input
  | analog
  /-- An alternate function drives the pin. -/
  | af (af : ℕ)
deriving DecidableEq, Repr

/-- What the variant provides. -/
structure Variant where
  pinsCount : ℕ
  pinDac1 : ℕ
  pinDac2 : ℕ
  /-- `g_pwm_af_map`. -/
  pwmAfMap : List PwmAf
  /-- A timer has four channels. -/
  channels : ∀ e ∈ pwmAfMap, 1 ≤ e.channel ∧ e.channel ≤ 4
  /-- `ch32h4_hclk()`, which is what the timers divide. -/
  hclk : ℕ

/-- What the users of the timers share. -/
structure Board where
  timers : Registry
  tim : ℕ → Tim
  pins : ℕ → PinMode

namespace Board

/-- Access one timer's registers. -/
def onTim (b : Board) (timer : ℕ) (f : Tim → Tim) : Board :=
  { b with tim := Function.update b.tim timer (f (b.tim timer)) }

/-- `ch32h4_pin_af` and `pinMode`. -/
def pinMode (b : Board) (pin : ℕ) (mode : PinMode) : Board :=
  { b with pins := Function.update b.pins pin mode }

end Board

end Ch32h4.Timer
