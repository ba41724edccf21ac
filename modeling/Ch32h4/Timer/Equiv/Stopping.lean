import Ch32h4.Timer.Pwm
import Mathlib.Tactic.SplitIfs

/-!
# `analogWriteStop` and what `analogWrite` took

`exact_of_reachable`: the channels in use are those that `analogWrite` configured for a pin that was
not stopped since, each of these pins is driven by its channel, and PWM holds the timers of these
pins and no others, as long as `analogWriteStop` finds the pin's own channel and no other pin uses
it, and `analogWrite` gives no pin another channel than it has.  A step that is not of this kind
does break it.  `undone`: a stop takes away the pin, and the other pins keep their channels, with
their duty.

What the registers and the pins hold follows from the channels in use, whatever the steps
(`Kept`); so the proof is about two finite maps, the bits that are set and the entries that the
pins were given (`used`).

`exact_of_reachable_stop` and `not_exact_of_reachable` are runs on either side.
-/

namespace Ch32h4.Timer.Pwm

open Machine

variable {v : Variant} {s s' : System} {pwm pwm' : Pwm}

/-! ### The property -/

/-- A pin other than `pin` was given the channel of an entry. -/
def System.SharedWith (v : Variant) (s : System) (pin : ℕ) (e : PwmAf) : Prop :=
  ∃ q < v.pinsCount, q ≠ pin ∧
    ∃ e' ∈ s.active q, e'.timer = e.timer ∧ e'.channel = e.channel

instance (pin : ℕ) (e : PwmAf) : Decidable (s.SharedWith v pin e) :=
  inferInstanceAs (Decidable (∃ q < v.pinsCount, q ≠ pin ∧
    ∃ e' ∈ s.active q, e'.timer = e.timer ∧ e'.channel = e.channel))

/-- Two entries name the same channel. -/
def SameChannel (e e' : PwmAf) : Prop :=
  e'.timer = e.timer ∧ e'.channel = e.channel

instance (e e' : PwmAf) : Decidable (SameChannel e e') :=
  inferInstanceAs (Decidable (_ ∧ _))

/-- A pin keeps its channel when it is written, and gives up its own when it is stopped. -/
def Orderly (v : Variant) (s : System) : Action → Prop
  | .write pin _ => ∀ e ∈ s.pwm.configured v pin, ∀ e₀ ∈ s.active pin,
      SameChannel e e₀ ∨ s.SharedWith v pin e₀
  | .stop pin => ∀ e ∈ s.pwm.stopped v pin, ¬s.SharedWith v pin e ∧
      ∀ e₀ ∈ s.active pin, SameChannel e e₀ ∨ s.SharedWith v pin e₀
  | _ => True

instance : (a : Action) → Decidable (Orderly v s a)
  | .write pin _ => inferInstanceAs (Decidable (∀ e ∈ s.pwm.configured v pin,
      ∀ e₀ ∈ s.active pin, SameChannel e e₀ ∨ s.SharedWith v pin e₀))
  | .stop pin => inferInstanceAs (Decidable (∀ e ∈ s.pwm.stopped v pin,
      ¬s.SharedWith v pin e ∧
        ∀ e₀ ∈ s.active pin, SameChannel e e₀ ∨ s.SharedWith v pin e₀))
  | .frequency _ | .resolution _ | .claim _ _ | .program _ _ _ | .release _ _ =>
    inferInstanceAs (Decidable True)

/-- A pin is driven by the channel of an entry. -/
structure Driven (pwm : Pwm) (pin : ℕ) (e : PwmAf) : Prop where
  owner : pwm.board.timers.owner e.timer = .pwm
  enabled : (pwm.board.tim e.timer).enabled = true
  mainOutput : e.timer = 1 ∨ e.timer = 8 → (pwm.board.tim e.timer).mainOutput = true
  output : ((pwm.board.tim e.timer).channels (Tim.channelIndex e.channel)).output = !e.negated
  outputN : ((pwm.board.tim e.timer).channels (Tim.channelIndex e.channel)).outputN = e.negated
  routed : pwm.board.pins pin = .af e.af

/-- Some pin was given this channel. -/
def System.Used (s : System) (t c : ℕ) : Prop :=
  ∃ p e, s.active p = some e ∧ e.timer = t ∧ e.channel = c

/-- What is in use is what the pins were given. -/
structure Exact (s : System) : Prop where
  driven : ∀ p e, s.active p = some e → Driven s.pwm p e
  channels : ∀ t c, c ∈ s.pwm.s_pwm_chan_active t ↔ s.Used t c
  owned : ∀ t, s.pwm.board.timers.owner t = .pwm ↔ ∃ p e, s.active p = some e ∧ e.timer = t

/-- What `analogWriteStop` does to the pins. -/
structure Undone (v : Variant) (s : System) (pin : ℕ) : Prop where
  /-- A pin that was driven no longer is. -/
  input : ∀ e, s.active pin = some e →
    (s.pwm.analogWriteStop v pin).board.pins pin = .input
  /-- The other pins stay as they are. -/
  pins : ∀ q, q ≠ pin → (s.pwm.analogWriteStop v pin).board.pins q = s.pwm.board.pins q
  /-- All channels keep their duty. -/
  duty : ∀ t, ((s.pwm.analogWriteStop v pin).board.tim t).channels =
    (s.pwm.board.tim t).channels

/-! ### Searching the map -/

/-- What `ch32h4_pwm_find` returns, if it does not come from before the loop. -/
theorem pwmFindLoop_some {timers : Registry} {pin : ℕ} {es : List PwmAf} {e : PwmAf} :
    ∀ {first_free : Option PwmAf}, pwmFindLoop timers pin first_free es = some e →
      first_free = some e ∨ e ∈ es ∧ e.pin = pin ∧ e.negated = false := by
  induction es with
  | nil => exact fun h => .inl h
  | cons e' es ih =>
    intro first_free h
    rw [pwmFindLoop] at h
    have hlater {first_free : Option PwmAf} (h : pwmFindLoop timers pin first_free es = some e) :
        first_free = some e ∨ e ∈ e' :: es ∧ e.pin = pin ∧ e.negated = false :=
      (ih h).imp_right fun h => ⟨List.mem_cons_of_mem _ h.1, h.2⟩
    split_ifs at h with hpin hnegated hpwm hfree
    · exact hlater h
    · exact hlater h
    · rw [← Option.some.inj h]
      exact .inr ⟨List.mem_cons_self, not_not.mp hpin, Bool.eq_false_of_not_eq_true hnegated⟩
    · rcases hlater h with hfirst | hin
      · rw [← Option.some.inj hfirst]
        exact .inr ⟨List.mem_cons_self, not_not.mp hpin, Bool.eq_false_of_not_eq_true hnegated⟩
      · exact .inr hin
    · exact hlater h

/-- An entry that fits a pin that can have PWM. -/
structure Fits (v : Variant) (pin : ℕ) (e : PwmAf) : Prop where
  range : pin < v.pinsCount
  noDac : pinHasDac v pin = false
  mem : e ∈ v.pwmAfMap
  pin_eq : e.pin = pin
  positive : e.negated = false

theorem configured_some {pin : ℕ} {e : PwmAf} (h : pwm.configured v pin = some e) :
    Fits v pin e ∧ pwmFind v pwm.board.timers pin = some e ∧
      (pwm.board.timers.claim e.timer .pwm).1 = true := by
  unfold configured at h
  split_ifs at h with hrange
  obtain ⟨hfind, hclaim⟩ := Option.filter_eq_some_iff.mp h
  obtain ⟨hcount, hdac⟩ := not_or.mp hrange
  rcases pwmFindLoop_some hfind with hnone | ⟨hmem, hpin, hpositive⟩
  · cases hnone
  · exact ⟨⟨not_le.mp hcount, Bool.eq_false_of_not_eq_true hdac, hmem, hpin, hpositive⟩, hfind,
      hclaim⟩

/-! ### What the calls do -/

/-- Two states with the same timers and the same channels in use; pins of the DAC may differ. -/
structure Same (v : Variant) (pwm' pwm : Pwm) : Prop where
  timers : pwm'.board.timers = pwm.board.timers
  tim : pwm'.board.tim = pwm.board.tim
  channels : pwm'.s_pwm_chan_active = pwm.s_pwm_chan_active
  pins : ∀ q, pinHasDac v q = false → pwm'.board.pins q = pwm.board.pins q

theorem Same.refl (pwm : Pwm) : Same v pwm pwm :=
  ⟨rfl, rfl, rfl, fun _ _ => rfl⟩

theorem same_dacWrite {pin : ℕ} (hdac : pinHasDac v pin = true) (code : ℕ) :
    Same v (pwm.dacWrite v pin code) pwm := by
  unfold dacWrite
  dsimp only
  by_cases hstarted : (pwm.dac (dacChannel v pin)).started = true
  · rw [if_pos hstarted]
    exact ⟨rfl, rfl, rfl, fun _ _ => rfl⟩
  · rw [if_neg hstarted]
    refine ⟨rfl, rfl, rfl, fun q hq => Function.update_of_ne ?_ _ _⟩
    rintro rfl
    exact absurd hdac (Bool.eq_false_iff.mp hq)

theorem same_analogWrite {pin : ℕ} {value : ℤ} (h : pwm.configured v pin = none) :
    Same v (pwm.analogWrite v pin value) pwm := by
  unfold configured at h
  unfold analogWrite
  split_ifs with hrange hdac
  · exact Same.refl pwm
  · exact same_dacWrite hdac _
  rw [if_neg (not_or.mpr ⟨hrange, hdac⟩)] at h
  cases hfind : pwmFind v pwm.board.timers pin with
  | none => exact Same.refl pwm
  | some e =>
    rw [hfind, Option.filter_some] at h
    cases hclaim : (pwm.board.timers.claim e.timer .pwm).1 with
    | false =>
      dsimp only
      rw [hclaim]
      exact Same.refl pwm
    | true =>
      rw [hclaim] at h
      cases h

/-- What `analogWrite` has done when it has configured an entry. -/
structure Written (pwm' pwm : Pwm) (pin : ℕ) (e : PwmAf) : Prop where
  owner : ∀ t, pwm'.board.timers.owner t =
    if t = e.timer then .pwm else pwm.board.timers.owner t
  channels : ∀ t c, c ∈ pwm'.s_pwm_chan_active t ↔
    (t = e.timer ∧ c = e.channel) ∨ c ∈ pwm.s_pwm_chan_active t
  pins : ∀ q, pwm'.board.pins q = if q = pin then .af e.af else pwm.board.pins q
  others : ∀ t, t ≠ e.timer → pwm'.board.tim t = pwm.board.tim t
  enabled : (pwm'.board.tim e.timer).enabled = true
  mainOutput : e.timer = 1 ∨ e.timer = 8 → (pwm'.board.tim e.timer).mainOutput = true
  config : ∀ i, i = Tim.channelIndex e.channel →
    ((pwm'.board.tim e.timer).channels i).output = !e.negated ∧
      ((pwm'.board.tim e.timer).channels i).outputN = e.negated
  rest : pwm.s_pwm_chan_active e.timer ≠ ∅ → ∀ i, i ≠ Tim.channelIndex e.channel →
    (pwm'.board.tim e.timer).channels i = (pwm.board.tim e.timer).channels i

theorem startTim_enabled {e : PwmAf} {value : ℕ} {dev : Tim} :
    (pwm.startTim v e value dev).enabled = true := by
  unfold startTim
  rfl

theorem startTim_mainOutput {e : PwmAf} {value : ℕ} {dev : Tim}
    (hadvanced : e.timer = 1 ∨ e.timer = 8) :
    (pwm.startTim v e value dev).mainOutput = true := by
  unfold startTim
  dsimp only
  rw [if_pos hadvanced]
  rfl

theorem startTim_channels {e : PwmAf} {value : ℕ} {dev : Tim} :
    (pwm.startTim v e value dev).channels =
      Function.update (if pwm.s_pwm_chan_active e.timer = ∅ then dev.reset else dev).channels
        (Tim.channelIndex e.channel) ⟨!e.negated, e.negated, value % 65536⟩ := by
  unfold startTim
  dsimp only
  split_ifs <;> rfl

theorem written_analogWrite {pin : ℕ} (value : ℤ) {e : PwmAf}
    (h : pwm.configured v pin = some e) : Written (pwm.analogWrite v pin value) pwm pin e := by
  obtain ⟨hfits, hfind, hclaim⟩ := configured_some h
  unfold analogWrite
  rw [if_neg hfits.range.not_ge, if_neg (Bool.eq_false_iff.mp hfits.noDac), hfind]
  dsimp only
  rw [hclaim]
  generalize hclaimed : ({ pwm with board :=
    { pwm.board with timers := (pwm.board.timers.claim e.timer .pwm).2 } } : Pwm) = claimed
  show Written (claimed.start v pin e value) pwm pin e
  have htim : (claimed.start v pin e value).board.tim e.timer =
      claimed.startTim v e (claimed.clip value) (pwm.board.tim e.timer) := by
    subst hclaimed
    exact Function.update_self ..
  have hchannels : claimed.s_pwm_chan_active = pwm.s_pwm_chan_active := by
    subst hclaimed
    rfl
  refine ⟨fun t => ?_, fun t c => ?_, fun q => ?_, fun t ht => ?_, ?_, fun hadvanced => ?_,
    fun i hi => ?_, fun hused i hi => ?_⟩
  · subst hclaimed
    exact Registry.owner_claim hclaim
  · show c ∈ Function.update claimed.s_pwm_chan_active e.timer _ t ↔ _
    rw [hchannels]
    by_cases ht : t = e.timer
    · subst ht
      rw [Function.update_self, Finset.mem_insert, and_iff_right rfl]
    · rw [Function.update_of_ne ht, or_iff_right fun h => ht h.1]
  · subst hclaimed
    exact Function.update_apply ..
  · subst hclaimed
    exact Function.update_of_ne ht _ _
  · rw [htim]
    exact startTim_enabled
  · rw [htim]
    exact startTim_mainOutput hadvanced
  · rw [htim, startTim_channels, hi, Function.update_self]
    exact ⟨rfl, rfl⟩
  · rw [htim, startTim_channels, hchannels, if_neg hused, Function.update_of_ne hi]

/-- What `analogWriteStop` has done when it has found an entry. -/
structure Cleared (pwm' pwm : Pwm) (pin : ℕ) (e : PwmAf) : Prop where
  owner : ∀ t, pwm'.board.timers.owner t =
    if t = e.timer ∧ pwm'.s_pwm_chan_active e.timer = ∅ then .free
    else pwm.board.timers.owner t
  channels : ∀ t c, c ∈ pwm'.s_pwm_chan_active t ↔
    ¬(t = e.timer ∧ c = e.channel) ∧ c ∈ pwm.s_pwm_chan_active t
  pins : ∀ q, pwm'.board.pins q = if q = pin then .input else pwm.board.pins q
  tim : ∀ t, (pwm'.s_pwm_chan_active t).Nonempty → pwm'.board.tim t = pwm.board.tim t
  duty : ∀ t, (pwm'.board.tim t).channels = (pwm.board.tim t).channels

/-- A stop that finds nothing does nothing to the board. -/
theorem analogWriteStop_none {pin : ℕ} (h : pwm.stopped v pin = none) :
    (pwm.analogWriteStop v pin).board = pwm.board ∧
      (pwm.analogWriteStop v pin).s_pwm_chan_active = pwm.s_pwm_chan_active := by
  unfold stopped at h
  unfold analogWriteStop dacStop
  dsimp only
  split_ifs with hrange hdac
  · exact ⟨rfl, rfl⟩
  · exact ⟨rfl, rfl⟩
  · exact ⟨rfl, rfl⟩
  rw [if_neg (not_or.mpr ⟨hrange, hdac⟩)] at h
  rw [h]
  exact ⟨rfl, rfl⟩

theorem same_analogWriteStop {pin : ℕ} (h : pwm.stopped v pin = none) :
    Same v (pwm.analogWriteStop v pin) pwm := by
  obtain ⟨hboard, hchannels⟩ := analogWriteStop_none h
  exact ⟨congrArg Board.timers hboard, congrArg Board.tim hboard, hchannels,
    fun q _ => congrArg (Board.pins · q) hboard⟩

theorem cleared_finish {pin : ℕ} {e : PwmAf} (hheld : pwm.board.timers.owner e.timer = .pwm) :
    Cleared (pwm.finish pin e) pwm pin e := by
  have hchannels (t c : ℕ) : c ∈ Function.update pwm.s_pwm_chan_active e.timer
      ((pwm.s_pwm_chan_active e.timer).erase e.channel) t ↔
        ¬(t = e.timer ∧ c = e.channel) ∧ c ∈ pwm.s_pwm_chan_active t := by
    by_cases ht : t = e.timer
    · subst ht
      rw [Function.update_self, Finset.mem_erase, and_iff_right rfl]
    · rw [Function.update_of_ne ht, and_iff_right fun h => ht h.1]
  unfold finish
  dsimp only
  split_ifs with hempty
  · -- The last channel of the timer: it stops and is given back.
    have hnone : Function.update pwm.s_pwm_chan_active e.timer
        ((pwm.s_pwm_chan_active e.timer).erase e.channel) e.timer = ∅ :=
      (Function.update_self ..).trans hempty
    refine ⟨fun t => ?_, hchannels, fun q => Function.update_apply .., fun t ht => ?_,
      fun t => ?_⟩
    · refine Registry.owner_release.trans (if_congr (and_congr_right fun _ => ?_) rfl rfl)
      exact iff_of_true hheld hnone
    · refine Function.update_of_ne ?_ _ _
      rintro rfl
      exact Finset.not_nonempty_iff_eq_empty.mpr hnone ht
    · show (Function.update pwm.board.tim e.timer _ t).channels = _
      by_cases ht : t = e.timer
      · rw [ht, Function.update_self]
        rfl
      · rw [Function.update_of_ne ht]
  · refine ⟨fun t => ?_, hchannels, fun q => Function.update_apply .., fun _ _ => rfl,
      fun _ => rfl⟩
    refine (if_neg fun h => hempty ?_).symm
    exact (Function.update_self e.timer _ pwm.s_pwm_chan_active).symm.trans h.2

theorem cleared_analogWriteStop {pin : ℕ} {e : PwmAf} (h : pwm.stopped v pin = some e) :
    Cleared (pwm.analogWriteStop v pin) pwm pin e := by
  unfold stopped at h
  split_ifs at h with hrange
  obtain ⟨hcount, hdac⟩ := not_or.mp hrange
  have hfound := List.find?_some h
  simp only [Bool.and_eq_true, decide_eq_true_eq] at hfound
  unfold analogWriteStop
  rw [if_neg hcount, if_neg hdac, h]
  dsimp only
  rw [if_neg (not_not.mpr hfound.2)]
  exact cleared_finish hfound.2

/-! ### What follows from the channels in use -/

/-- What holds whatever the steps: the registers, the owners and the pins follow the channels in
use and the entries that the pins were given. -/
structure Kept (v : Variant) (s : System) : Prop where
  fits : ∀ p e, s.active p = some e → Fits v p e
  routed : ∀ p e, s.active p = some e → s.pwm.board.pins p = .af e.af
  owner : ∀ t, s.pwm.board.timers.owner t = .pwm ↔ (s.pwm.s_pwm_chan_active t).Nonempty
  enabled : ∀ t, (s.pwm.s_pwm_chan_active t).Nonempty → (s.pwm.board.tim t).enabled = true
  mainOutput : ∀ t, (s.pwm.s_pwm_chan_active t).Nonempty → t = 1 ∨ t = 8 →
    (s.pwm.board.tim t).mainOutput = true
  output : ∀ t, ∀ c ∈ s.pwm.s_pwm_chan_active t,
    ((s.pwm.board.tim t).channels (Tim.channelIndex c)).output = true ∧
      ((s.pwm.board.tim t).channels (Tim.channelIndex c)).outputN = false

/-- So the bits and the entries decide. -/
theorem Kept.exact_iff (h : Kept v s) :
    Exact s ↔ ∀ t c, c ∈ s.pwm.s_pwm_chan_active t ↔ s.Used t c := by
  refine ⟨Exact.channels, fun hchannels => ⟨fun p e he => ?_, hchannels, fun t => ?_⟩⟩
  · have hin := (hchannels e.timer e.channel).mpr ⟨p, e, he, rfl, rfl⟩
    have hpositive := (h.fits p e he).positive
    refine ⟨(h.owner _).mpr ⟨_, hin⟩, h.enabled _ ⟨_, hin⟩, h.mainOutput _ ⟨_, hin⟩, ?_, ?_,
      h.routed p e he⟩
    · rw [hpositive]
      exact (h.output _ _ hin).1
    · rw [hpositive]
      exact (h.output _ _ hin).2
  · refine (h.owner t).trans ⟨fun ⟨c, hc⟩ => ?_, fun ⟨p, e, he, ht⟩ => ?_⟩
    · obtain ⟨p, e, he, ht, -⟩ := (hchannels t c).mp hc
      exact ⟨p, e, he, ht⟩
    · exact ⟨e.channel, (hchannels t _).mpr ⟨p, e, he, ht, rfl⟩⟩

/-- Nothing is in use that did not change. -/
theorem Kept.of_same (h : Kept v s) {active : ℕ → Option PwmAf} (hsame : Same v pwm' s.pwm)
    (hactive : ∀ p e, active p = some e → s.active p = some e) : Kept v ⟨pwm', active⟩ := by
  refine ⟨fun p e he => h.fits p e (hactive p e he), fun p e he => ?_, ?_, ?_, ?_, ?_⟩
  · have hold := hactive p e he
    exact (hsame.pins p (h.fits p e hold).noDac).trans (h.routed p e hold)
  · show ∀ t, pwm'.board.timers.owner t = .pwm ↔ (pwm'.s_pwm_chan_active t).Nonempty
    rw [hsame.timers, hsame.channels]
    exact h.owner
  · show ∀ t, (pwm'.s_pwm_chan_active t).Nonempty → (pwm'.board.tim t).enabled = true
    rw [hsame.tim, hsame.channels]
    exact h.enabled
  · show ∀ t, (pwm'.s_pwm_chan_active t).Nonempty → t = 1 ∨ t = 8 →
      (pwm'.board.tim t).mainOutput = true
    rw [hsame.tim, hsame.channels]
    exact h.mainOutput
  · show ∀ t, ∀ c ∈ pwm'.s_pwm_chan_active t, ((pwm'.board.tim t).channels _).output = true ∧
      ((pwm'.board.tim t).channels _).outputN = false
    rw [hsame.tim, hsame.channels]
    exact h.output

theorem Kept.write (h : Kept v s) (pin : ℕ) (value : ℤ) :
    Kept v (s.act v (.write pin value)) := by
  unfold System.act
  dsimp only
  cases hconfigured : s.pwm.configured v pin with
  | none => exact h.of_same (same_analogWrite hconfigured) fun _ _ he => he
  | some e =>
    rw [if_pos (Option.isSome_some)]
    have hw := written_analogWrite value hconfigured
    have hfits := (configured_some hconfigured).1
    generalize s.pwm.analogWrite v pin value = pwm' at hw ⊢
    have hactive {p : ℕ} {e' : PwmAf} (he : Function.update s.active pin (some e) p = some e') :
        p = pin ∧ e' = e ∨ p ≠ pin ∧ s.active p = some e' := by
      by_cases hp : p = pin
      · rw [hp, Function.update_self] at he
        exact .inl ⟨hp, (Option.some.inj he).symm⟩
      · rw [Function.update_of_ne hp] at he
        exact .inr ⟨hp, he⟩
    have hold {t : ℕ} (ht : t ≠ e.timer) (hused : (pwm'.s_pwm_chan_active t).Nonempty) :
        (s.pwm.s_pwm_chan_active t).Nonempty := by
      obtain ⟨c, hc⟩ := hused
      exact ⟨c, ((hw.channels t c).mp hc).resolve_left fun heq => ht heq.1⟩
    refine ⟨fun p e' he => ?_, fun p e' he => ?_, fun t => ?_, fun t ht => ?_,
      fun t ht hadvanced => ?_, fun t c hc => ?_⟩
    · obtain ⟨rfl, rfl⟩ | ⟨-, he⟩ := hactive he
      · exact hfits
      · exact h.fits p e' he
    · obtain ⟨rfl, rfl⟩ | ⟨hp, he⟩ := hactive he
      · exact (hw.pins p).trans (if_pos rfl)
      · exact ((hw.pins p).trans (if_neg hp)).trans (h.routed p e' he)
    · show pwm'.board.timers.owner t = .pwm ↔ (pwm'.s_pwm_chan_active t).Nonempty
      rw [hw.owner]
      split_ifs with ht
      · exact iff_of_true rfl ⟨e.channel, (hw.channels t _).mpr (.inl ⟨ht, rfl⟩)⟩
      · refine (h.owner t).trans ⟨fun ⟨c, hc⟩ => ⟨c, (hw.channels t c).mpr (.inr hc)⟩, hold ht⟩
    · show (pwm'.board.tim t).enabled = true
      by_cases hsame : t = e.timer
      · rw [hsame]
        exact hw.enabled
      · rw [hw.others t hsame]
        exact h.enabled t (hold hsame ht)
    · show (pwm'.board.tim t).mainOutput = true
      by_cases hsame : t = e.timer
      · rw [hsame]
        exact hw.mainOutput (hsame ▸ hadvanced)
      · rw [hw.others t hsame]
        exact h.mainOutput t (hold hsame ht) hadvanced
    · show ((pwm'.board.tim t).channels _).output = true ∧
        ((pwm'.board.tim t).channels _).outputN = false
      have hpositive := hfits.positive
      by_cases hsame : t = e.timer
      · by_cases hindex : Tim.channelIndex c = Tim.channelIndex e.channel
        · have hconfig := hw.config _ hindex
          rw [hpositive] at hconfig
          rw [hsame]
          exact hconfig
        · have hin : c ∈ s.pwm.s_pwm_chan_active e.timer := by
            refine ((hw.channels e.timer c).mp (hsame ▸ hc)).resolve_left fun heq => hindex ?_
            rw [heq.2]
          have hused : s.pwm.s_pwm_chan_active e.timer ≠ ∅ := Finset.ne_empty_of_mem hin
          rw [hsame, hw.rest hused _ hindex]
          exact h.output e.timer c hin
      · have hin := ((hw.channels t c).mp hc).resolve_left fun heq => hsame heq.1
        rw [hw.others t hsame]
        exact h.output t c hin

theorem Kept.stop (h : Kept v s) (pin : ℕ) : Kept v (s.act v (.stop pin)) := by
  unfold System.act
  dsimp only
  have hactive {p : ℕ} {e' : PwmAf} (he : Function.update s.active pin none p = some e') :
      p ≠ pin ∧ s.active p = some e' := by
    by_cases hp : p = pin
    · rw [hp, Function.update_self] at he
      cases he
    · rw [Function.update_of_ne hp] at he
      exact ⟨hp, he⟩
  cases hstopped : s.pwm.stopped v pin with
  | none => exact h.of_same (same_analogWriteStop hstopped) fun _ _ he => (hactive he).2
  | some e =>
    have hc := cleared_analogWriteStop hstopped
    generalize s.pwm.analogWriteStop v pin = pwm' at hc ⊢
    have hold {t : ℕ} (hused : (pwm'.s_pwm_chan_active t).Nonempty) :
        (s.pwm.s_pwm_chan_active t).Nonempty := by
      obtain ⟨c, hin⟩ := hused
      exact ⟨c, ((hc.channels t c).mp hin).2⟩
    refine ⟨fun p e' he => h.fits p e' (hactive he).2, fun p e' he => ?_, fun t => ?_,
      fun t ht => ?_, fun t ht hadvanced => ?_, fun t c hin => ?_⟩
    · obtain ⟨hp, he⟩ := hactive he
      exact ((hc.pins p).trans (if_neg hp)).trans (h.routed p e' he)
    · show pwm'.board.timers.owner t = .pwm ↔ (pwm'.s_pwm_chan_active t).Nonempty
      rw [hc.owner]
      split_ifs with hlast
      · refine iff_of_false nofun ?_
        rw [hlast.1, hlast.2]
        exact Finset.not_nonempty_empty
      · refine (h.owner t).trans ⟨fun ⟨c, hin⟩ => ?_, hold⟩
        by_cases ht : t = e.timer
        · rw [ht]
          exact Finset.nonempty_iff_ne_empty.mpr fun hempty => hlast ⟨ht, hempty⟩
        · exact ⟨c, (hc.channels t c).mpr ⟨fun heq => ht heq.1, hin⟩⟩
    · show (pwm'.board.tim t).enabled = true
      rw [hc.tim t ht]
      exact h.enabled t (hold ht)
    · show (pwm'.board.tim t).mainOutput = true
      rw [hc.tim t ht]
      exact h.mainOutput t (hold ht) hadvanced
    · show ((pwm'.board.tim t).channels _).output = true ∧
        ((pwm'.board.tim t).channels _).outputN = false
      rw [hc.duty]
      exact h.output t c ((hc.channels t c).mp hin).2

/-- **What happens to a timer that PWM does not own** is nothing to the pins. -/
theorem Kept.of_foreign (h : Kept v s) {timer : ℕ} {f : Board → Board}
    (hbefore : s.pwm.board.timers.owner timer ≠ .pwm)
    (hafter : (f s.pwm.board).timers.owner timer ≠ .pwm)
    (howner : ∀ t, t ≠ timer → (f s.pwm.board).timers.owner t = s.pwm.board.timers.owner t)
    (htim : ∀ t, t ≠ timer → (f s.pwm.board).tim t = s.pwm.board.tim t)
    (hpins : (f s.pwm.board).pins = s.pwm.board.pins) :
    Kept v { s with pwm := s.pwm.onBoard f } := by
  have hne {t : ℕ} (ht : (s.pwm.s_pwm_chan_active t).Nonempty) : t ≠ timer := by
    rintro rfl
    exact hbefore ((h.owner t).mpr ht)
  refine ⟨h.fits, fun p e he => ?_, fun t => ?_, fun t ht => ?_, fun t ht hadvanced => ?_,
    fun t c hc => ?_⟩
  · exact (congrFun hpins p).trans (h.routed p e he)
  · by_cases ht : t = timer
    · subst ht
      exact iff_of_false hafter fun hused => hne hused rfl
    · show (f s.pwm.board).timers.owner t = .pwm ↔ (s.pwm.s_pwm_chan_active t).Nonempty
      rw [howner t ht]
      exact h.owner t
  · exact (congrArg Tim.enabled (htim t (hne ht))).trans (h.enabled t ht)
  · exact (congrArg Tim.mainOutput (htim t (hne ht))).trans (h.mainOutput t ht hadvanced)
  · show (((f s.pwm.board).tim t).channels _).output = true ∧
      (((f s.pwm.board).tim t).channels _).outputN = false
    rw [htim t (hne ⟨c, hc⟩)]
    exact h.output t c hc

theorem Kept.claim (h : Kept v s) (o : Other) (timer : ℕ) :
    Kept v (s.act v (.claim o timer)) := by
  unfold System.act onBoard
  dsimp only
  rcases Registry.foreign_claim s.pwm.board.timers timer o.2 Owner.noConfusion with
    hsame | ⟨hbefore, hafter, hothers⟩
  · rw [hsame]
    exact h
  · exact h.of_foreign (f := fun b => { b with timers := (b.timers.claim timer o).2 }) hbefore
      hafter hothers (fun _ _ => rfl) rfl

theorem Kept.release (h : Kept v s) (o : Other) (timer : ℕ) :
    Kept v (s.act v (.release o timer)) := by
  unfold System.act onBoard
  dsimp only
  rcases Registry.foreign_release s.pwm.board.timers timer o.2 Owner.noConfusion with
    hsame | ⟨hbefore, hafter, hothers⟩
  · rw [hsame]
    exact h
  · exact h.of_foreign (f := fun b => { b with timers := b.timers.release timer o }) hbefore
      hafter hothers (fun _ _ => rfl) rfl

theorem Kept.program (h : Kept v s) (o : Other) (timer : ℕ) (dev : Tim) :
    Kept v (s.act v (.program o timer dev)) := by
  unfold System.act
  dsimp only
  split_ifs with hheld
  · have hforeign : s.pwm.board.timers.owner timer ≠ .pwm := hheld.symm ▸ o.2.2
    exact h.of_foreign hforeign hforeign (fun _ _ => rfl)
      (fun t ht => Function.update_of_ne ht _ _) rfl
  · exact h

theorem same_analogWriteFrequency (hz : ℕ) : Same v (pwm.analogWriteFrequency hz) pwm := by
  unfold analogWriteFrequency
  split_ifs
  · exact ⟨rfl, rfl, rfl, fun _ _ => rfl⟩
  · exact Same.refl pwm

theorem same_analogWriteResolution (bits : ℤ) :
    Same v (pwm.analogWriteResolution bits) pwm := by
  unfold analogWriteResolution
  split_ifs
  · exact ⟨rfl, rfl, rfl, fun _ _ => rfl⟩
  · exact Same.refl pwm

theorem Kept.act (h : Kept v s) : (a : Action) → Kept v (s.act v a)
  | .write pin value => h.write pin value
  | .stop pin => h.stop pin
  | .frequency hz => h.of_same (same_analogWriteFrequency hz) fun _ _ he => he
  | .resolution bits => h.of_same (same_analogWriteResolution bits) fun _ _ he => he
  | .claim o timer => h.claim o timer
  | .program o timer dev => h.program o timer dev
  | .release o timer => h.release o timer

/-! ### Bits and entries -/

/-- The bits and the entries agree. -/
def Counted (s : System) : Prop :=
  ∀ t c, c ∈ s.pwm.s_pwm_chan_active t ↔ s.Used t c

/-- A channel is used after a call about a pin if another pin has it, or this one now. -/
theorem used_update (pwm' : Pwm) (pin : ℕ) (e : Option PwmAf) (t c : ℕ) :
    (⟨pwm', Function.update s.active pin e⟩ : System).Used t c ↔
      (∃ e' ∈ e, e'.timer = t ∧ e'.channel = c) ∨
        ∃ q e', q ≠ pin ∧ s.active q = some e' ∧ e'.timer = t ∧ e'.channel = c := by
  constructor
  · rintro ⟨q, e', he, hchannel⟩
    by_cases hq : q = pin
    · subst hq
      exact .inl ⟨e', (Function.update_self q e s.active).symm.trans he, hchannel⟩
    · exact .inr ⟨q, e', hq, (Function.update_of_ne hq e s.active).symm.trans he, hchannel⟩
  · rintro (⟨e', he, hchannel⟩ | ⟨q, e', hq, he, hchannel⟩)
    · exact ⟨pin, e', (Function.update_self pin e s.active).trans he, hchannel⟩
    · exact ⟨q, e', (Function.update_of_ne hq e s.active).trans he, hchannel⟩

theorem Kept.sharedWith_iff (h : Kept v s) {pin : ℕ} {e : PwmAf} : s.SharedWith v pin e ↔
    ∃ q e', q ≠ pin ∧ s.active q = some e' ∧ e'.timer = e.timer ∧ e'.channel = e.channel := by
  constructor
  · rintro ⟨q, -, hq, e', he, hchannel⟩
    exact ⟨q, e', hq, he, hchannel⟩
  · rintro ⟨q, e', hq, he, hchannel⟩
    exact ⟨q, (h.fits q e' he).range, hq, e', he, hchannel⟩

/-- A channel is used now if another pin has it, or this one. -/
theorem used_iff (s : System) (pin t c : ℕ) : s.Used t c ↔
    (∃ e ∈ s.active pin, e.timer = t ∧ e.channel = c) ∨
      ∃ q e, q ≠ pin ∧ s.active q = some e ∧ e.timer = t ∧ e.channel = c := by
  have hself := used_update (s := s) s.pwm pin (s.active pin) t c
  rw [Function.update_eq_self] at hself
  exact hself

section

variable {this own other : Prop}

/-- What is set with this channel, and what is used with it. -/
theorem insert_iff :
    ((this ∨ (own ∨ other)) ↔ (this ∨ other)) ↔ (own → this ∨ other) := by
  tauto

/-- What stays set without this channel, and what is used without the pin's own. -/
theorem erase_iff :
    ((¬this ∧ (own ∨ other)) ↔ other) ↔ (this → ¬other) ∧ (own → this ∨ other) := by
  tauto

end

/-- **`analogWrite`** keeps the bits and the entries in step just if it leaves no channel behind. -/
theorem Kept.counted_write_iff (h : Kept v s) (hcounted : Counted s) (pin : ℕ) (value : ℤ) :
    Counted (s.act v (.write pin value)) ↔ Orderly v s (.write pin value) := by
  show Counted ⟨_, _⟩ ↔ ∀ e ∈ s.pwm.configured v pin, _
  cases hconfigured : s.pwm.configured v pin with
  | none =>
    refine iff_of_true ?_ nofun
    unfold Counted
    dsimp only
    rw [(same_analogWrite hconfigured).channels]
    exact hcounted
  | some e =>
    have hw := written_analogWrite value hconfigured
    rw [if_pos (Option.isSome_some)]
    -- A channel that was the pin's is the pin's still, or another one's.
    have hkeep (t c : ℕ) : (c ∈ (s.pwm.analogWrite v pin value).s_pwm_chan_active t ↔
        (⟨s.pwm.analogWrite v pin value, Function.update s.active pin (some e)⟩ : System).Used
          t c) ↔
        ((∃ e₀ ∈ s.active pin, e₀.timer = t ∧ e₀.channel = c) → (t = e.timer ∧ c = e.channel) ∨
          ∃ q e', q ≠ pin ∧ s.active q = some e' ∧ e'.timer = t ∧ e'.channel = c) := by
      have hthis : (∃ e' ∈ some e, e'.timer = t ∧ e'.channel = c) ↔
          t = e.timer ∧ c = e.channel := by
        simp [eq_comm]
      rw [hw.channels, hcounted, used_update, used_iff s pin, hthis]
      exact insert_iff
    refine (forall_congr' fun t => forall_congr' fun c => hkeep t c).trans ⟨?_, ?_⟩
    · rintro hall e' ⟨⟩ e₀ he₀
      exact (hall e₀.timer e₀.channel ⟨e₀, he₀, rfl, rfl⟩).imp_right h.sharedWith_iff.mpr
    · rintro hall t c ⟨e₀, he₀, rfl, rfl⟩
      exact (hall e rfl e₀ he₀).imp_right h.sharedWith_iff.mp

/-- A pin that was given a channel is found. -/
theorem Kept.stopped_isSome (h : Kept v s) (hcounted : Counted s) {pin : ℕ} {e : PwmAf}
    (he : s.active pin = some e) : (s.pwm.stopped v pin).isSome = true := by
  have hfits := h.fits pin e he
  have hheld : s.pwm.board.timers.owner e.timer = .pwm :=
    (h.owner _).mpr ⟨_, (hcounted _ _).mpr ⟨pin, e, he, rfl, rfl⟩⟩
  unfold stopped
  rw [if_neg (not_or.mpr ⟨hfits.range.not_ge, Bool.eq_false_iff.mp hfits.noDac⟩)]
  refine List.find?_isSome.mpr ⟨e, hfits.mem, ?_⟩
  rw [hfits.pin_eq, hheld]
  simp

/-- **`analogWriteStop`** keeps the bits and the entries in step just if it takes from the pin what
it has, and nothing from the others. -/
theorem Kept.counted_stop_iff (h : Kept v s) (hcounted : Counted s) (pin : ℕ) :
    Counted (s.act v (.stop pin)) ↔ Orderly v s (.stop pin) := by
  show Counted ⟨_, _⟩ ↔ ∀ e ∈ s.pwm.stopped v pin, _
  cases hstopped : s.pwm.stopped v pin with
  | none =>
    refine iff_of_true (fun t c => ?_) nofun
    have hinactive : ¬∃ e ∈ s.active pin, e.timer = t ∧ e.channel = c := by
      rintro ⟨e, he, -⟩
      have hsome := h.stopped_isSome hcounted he
      rw [hstopped] at hsome
      cases hsome
    have hnone : ¬∃ e ∈ (none : Option PwmAf), e.timer = t ∧ e.channel = c := nofun
    show c ∈ (s.pwm.analogWriteStop v pin).s_pwm_chan_active t ↔ _
    rw [(same_analogWriteStop hstopped).channels, hcounted, used_update, used_iff s pin,
      or_iff_right hinactive, or_iff_right hnone]
  | some e =>
    have hc := cleared_analogWriteStop hstopped
    -- The channel was no other pin's, and what was the pin's is this one, or another pin's.
    have hkeep (t c : ℕ) : (c ∈ (s.pwm.analogWriteStop v pin).s_pwm_chan_active t ↔
        (⟨s.pwm.analogWriteStop v pin, Function.update s.active pin none⟩ : System).Used t c) ↔
        ((t = e.timer ∧ c = e.channel →
          ¬∃ q e', q ≠ pin ∧ s.active q = some e' ∧ e'.timer = t ∧ e'.channel = c) ∧
        ((∃ e₀ ∈ s.active pin, e₀.timer = t ∧ e₀.channel = c) → (t = e.timer ∧ c = e.channel) ∨
          ∃ q e', q ≠ pin ∧ s.active q = some e' ∧ e'.timer = t ∧ e'.channel = c)) := by
      have hnone : ¬∃ e ∈ (none : Option PwmAf), e.timer = t ∧ e.channel = c := nofun
      rw [hc.channels, hcounted, used_update, used_iff s pin, or_iff_right hnone]
      exact erase_iff
    refine (forall_congr' fun t => forall_congr' fun c => hkeep t c).trans ⟨?_, ?_⟩
    · rintro hall e' ⟨⟩
      refine ⟨fun hshared => (hall _ _).1 ⟨rfl, rfl⟩ (h.sharedWith_iff.mp hshared),
        fun e₀ he₀ => ?_⟩
      exact ((hall e₀.timer e₀.channel).2 ⟨e₀, he₀, rfl, rfl⟩).imp_right h.sharedWith_iff.mpr
    · intro hall t c
      obtain ⟨halone, hown⟩ := hall e rfl
      constructor
      · rintro ⟨rfl, rfl⟩ hother
        exact halone (h.sharedWith_iff.mpr hother)
      · rintro ⟨e₀, he₀, rfl, rfl⟩
        exact (hown e₀ he₀).imp_right h.sharedWith_iff.mp

/-! ### Runs -/

/-- **A step** leaves in use what the pins were given just if it is orderly. -/
theorem Kept.exact_act_iff (h : Kept v s) (hexact : Exact s) (a : Action) :
    Exact (s.act v a) ↔ Orderly v s a := by
  have hcounted := h.exact_iff.mp hexact
  refine (h.act a).exact_iff.trans ?_
  cases a with
  | write pin value => exact h.counted_write_iff hcounted pin value
  | stop pin => exact h.counted_stop_iff hcounted pin
  | frequency hz =>
    refine iff_of_true ?_ trivial
    show ∀ t c, c ∈ (s.pwm.analogWriteFrequency hz).s_pwm_chan_active t ↔ _
    rw [(same_analogWriteFrequency (v := v) hz).channels]
    exact hcounted
  | resolution bits =>
    refine iff_of_true ?_ trivial
    show ∀ t c, c ∈ (s.pwm.analogWriteResolution bits).s_pwm_chan_active t ↔ _
    rw [(same_analogWriteResolution (v := v) bits).channels]
    exact hcounted
  | claim o timer => exact iff_of_true hcounted trivial
  | program o timer dev =>
    refine iff_of_true ?_ trivial
    unfold System.act
    dsimp only
    split_ifs
    · exact hcounted
    · exact hcounted
  | release o timer => exact iff_of_true hcounted trivial

/-- **A stop** takes away the pin and leaves the others with their duty. -/
theorem Kept.undone (h : Kept v s) (hexact : Exact s) (pin : ℕ) : Undone v s pin := by
  cases hstopped : s.pwm.stopped v pin with
  | none =>
    obtain ⟨hboard, -⟩ := analogWriteStop_none hstopped
    refine ⟨fun e he => ?_, fun q hq => congrArg (Board.pins · q) hboard,
      fun t => congrArg (fun b => (Board.tim b t).channels) hboard⟩
    have hsome := h.stopped_isSome hexact.channels he
    rw [hstopped] at hsome
    cases hsome
  | some e =>
    have hc := cleared_analogWriteStop hstopped
    exact ⟨fun _ _ => (hc.pins pin).trans (if_pos rfl), fun q hq => (hc.pins q).trans (if_neg hq),
      hc.duty⟩

theorem Kept.fresh (h : s.Fresh) : Kept v s ∧ Exact s := by
  obtain ⟨hfree, hunused, hinactive⟩ := h
  have howner (t : ℕ) : s.pwm.board.timers.owner t ≠ .pwm := by
    rw [Registry.owner, hfree, ite_self]
    exact Owner.noConfusion
  have hempty (t : ℕ) : ¬(s.pwm.s_pwm_chan_active t).Nonempty := by
    rw [hunused]
    exact Finset.not_nonempty_empty
  have hnone {p : ℕ} {e : PwmAf} (he : s.active p = some e) : False := by
    cases (hinactive p).symm.trans he
  have hkept : Kept v s :=
    ⟨fun p e he => (hnone he).elim, fun p e he => (hnone he).elim,
      fun t => iff_of_false (howner t) (hempty t), fun t ht => absurd ht (hempty t),
      fun t ht => absurd ht (hempty t), fun t c hc => absurd ⟨c, hc⟩ (hempty t)⟩
  refine ⟨hkept, hkept.exact_iff.mpr fun t c => ?_⟩
  refine iff_of_false (fun hc => hempty t ⟨c, hc⟩) ?_
  rintro ⟨p, e, he, -⟩
  exact hnone he

/-- **`analogWriteStop` undoes what `analogWrite` took** after every run of orderly steps: what is
in use is what the pins were given, a stop leaves the other pins as they are, and the next step
keeps to it just if it is orderly, too. -/
theorem exact_of_reachable (h : (machine v).Reachable (Orderly v) s) :
    Exact s ∧ (∀ pin, Undone v s pin) ∧ ∀ a, Exact (s.act v a) ↔ Orderly v s a := by
  have hs : Kept v s ∧ Exact s := by
    refine invariant (I := fun s => Kept v s ∧ Exact s) (fun s => Kept.fresh) ?_ h
    rintro s a s' ⟨hkept, hexact⟩ horderly hstep
    rw [← Option.some.inj hstep]
    exact ⟨hkept.act a, (hkept.exact_act_iff hexact a).mpr horderly⟩
  exact ⟨hs.2, hs.1.undone hs.2, hs.1.exact_act_iff hs.2⟩

/-! ### Runs on either side -/

/-- Three pins of the map of the CH32H415REU6: PA1, PB3 and PB14. -/
def threePins : Variant where
  pinsCount := 96
  pinDac1 := 4
  pinDac2 := 5
  pwmAfMap :=
    [⟨1, 2, 2, false, 1⟩, ⟨1, 5, 2, false, 2⟩, ⟨1, 9, 2, false, 6⟩, ⟨19, 2, 2, false, 1⟩,
      ⟨30, 9, 1, false, 2⟩, ⟨30, 1, 2, true, 1⟩, ⟨30, 8, 2, true, 3⟩]
  channels := by decide
  hclk := 100000000

/-- The registers are at their reset values. -/
def atRest : System where
  pwm :=
    { board :=
        ⟨fun _ => .free, fun _ => ⟨false, 0, 65535, fun _ => ⟨false, false, 0⟩, false, false⟩,
          fun _ => .input⟩
      dac := fun _ => ⟨false, 0⟩
      s_pwm_hz := 1000
      s_write_bits := 8
      s_pwm_chan_active := fun _ => ∅ }
  active := fun _ => none

theorem atRest_fresh : atRest.Fresh :=
  ⟨fun _ => rfl, fun _ => rfl, fun _ => rfl⟩

/-- PA1 joins PB14 on TIM9, and is left there when PB14 is stopped. -/
theorem exact_of_reachable_stop : ∃ s, (machine threePins).run (Orderly threePins) atRest
      [.write 30 128, .write 1 64, .stop 30] = some s ∧
    s.active 1 = some ⟨1, 9, 2, false, 6⟩ ∧
    Exact s ∧ (∀ pin, Undone threePins s pin) ∧
      ∀ a, Exact (s.act threePins a) ↔ Orderly threePins s a := by
  have hrun : ((machine threePins).run (Orderly threePins) atRest
      [.write 30 128, .write 1 64, .stop 30]).map (·.active 1) =
        some (some ⟨1, 9, 2, false, 6⟩) := by decide +kernel
  obtain ⟨s, hs, hactive⟩ := Option.map_eq_some_iff.mp hrun
  exact ⟨s, hs, hactive, exact_of_reachable (reachable_of_run (.init atRest_fresh) hs)⟩

/-- PA1 joins PB14 on TIM9, PB3 takes TIM2, and stopping PA1 takes TIM2 away from PB3. -/
theorem not_exact_of_reachable :
    ¬ ∀ s, (machine threePins).Reachable anyStep s → Exact s := by
  intro hall
  have hrun : ((machine threePins).run anyStep atRest
      [.write 30 128, .write 1 64, .write 19 32, .stop 1]).map
        (fun s => (s.active 19, s.pwm.board.timers.owner 2)) =
          some (some ⟨19, 2, 2, false, 1⟩, .free) := by decide +kernel
  obtain ⟨s, hs, hstate⟩ := Option.map_eq_some_iff.mp hrun
  obtain ⟨hactive, howner⟩ := Prod.mk.inj hstate
  have hdriven := (hall s (reachable_of_run (.init atRest_fresh) hs)).driven 19 _ hactive
  cases howner.symm.trans hdriven.owner

end Ch32h4.Timer.Pwm
