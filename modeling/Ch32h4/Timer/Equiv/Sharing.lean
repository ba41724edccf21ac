import Ch32h4.Timer.Servo
import Mathlib.Tactic.SplitIfs

/-!
# Servos that share timers

`shared_of_reachable`: every timer with an attached servo on it is owned by `Servo` and runs with
the frame of 20 ms, and `Servo` owns no other, as long as a servo detaches, or attaches elsewhere,
only when it is alone on its timer or leaves it to another one, and a servo attaches only to a timer
whose bit in the mask is clear or whose time base is still that of the servos.  A step that is not
of this kind does break it.

The registry has no count, so the first `detach` on a timer gives it back (`release` in `detach`),
an `attach` that moves a servo gives nothing back, and the bit in the mask is never cleared.

`shared_of_reachable_tone` and `not_shared_of_reachable` are runs on either side.
-/

namespace Ch32h4.Timer

open Machine

/-! ### The property -/

variable {v : Variant} {n : ℕ} {s s' : System n}

/-- A timer runs with the frame of 20 ms. -/
def ServoBase (v : Variant) (dev : Tim) : Prop :=
  dev.prescaler = Servo.prescaler v ∧ dev.period = refreshInterval - 1

instance (dev : Tim) : Decidable (ServoBase v dev) :=
  inferInstanceAs (Decidable (_ ∧ _))

/-- Where the timers' clock is a number of MHz that the prescaler can divide by, the frame has
20 ms. -/
theorem ServoBase.frame {dev : Tim} (h : ServoBase v dev) {mhz : ℕ} (hpos : 0 < mhz)
    (hle : mhz ≤ 65536) (hclk : v.hclk = mhz * 1000000) :
    (dev.prescaler + 1) * (dev.period + 1) * 50 = v.hclk := by
  have hprescaler : Servo.prescaler v = mhz - 1 := by
    unfold Servo.prescaler toUInt16 servoTickHz
    rw [hclk]
    omega
  rw [h.1, h.2, hprescaler, hclk, refreshInterval]
  omega

/-- A servo is attached to a timer. -/
def System.On (s : System n) (t : ℕ) (i : Fin n) : Prop :=
  t ≠ 0 ∧ (s.servos i).timer = t

instance (t : ℕ) (i : Fin n) : Decidable (s.On t i) :=
  inferInstanceAs (Decidable (_ ∧ _))

/-- The timers that carry servos are those that `Servo` owns, and they run for servos. -/
structure Shared (v : Variant) (s : System n) : Prop where
  owned : ∀ t i, s.On t i → s.board.timers.owner t = .servo
  base : ∀ t i, s.On t i → ServoBase v (s.board.tim t)
  enabled : ∀ t i, s.On t i → (s.board.tim t).enabled = true
  released : ∀ t, s.board.timers.owner t = .servo → ∃ i, s.On t i

/-- The entry of the map whose timer `attach` takes. -/
def System.taken (v : Variant) (s : System n) (pin : ℤ) : Option PwmAf :=
  if pin < 0 ∨ pin ≥ v.pinsCount then none
  else (Servo.choose v s.board.timers pin.toNat).filter fun e => valid e.timer

/-- Nothing is taken from the other servos, and what is taken is configured. -/
def Orderly (v : Variant) (s : System n) : Action n → Prop
  | .attach i pin _ _ => ∀ e ∈ s.taken v pin,
      (s.configured_timers e.timer = false ∨ ServoBase v (s.board.tim e.timer)) ∧
        ((s.servos i).timer = 0 ∨ (s.servos i).timer = e.timer ∨
          ∃ j, j ≠ i ∧ (s.servos j).timer = (s.servos i).timer)
  | .detach i => ∀ j, j ≠ i → ¬s.On (s.servos i).timer j
  | _ => True

instance : (a : Action n) → Decidable (Orderly v s a)
  | .attach i pin _ _ => inferInstanceAs (Decidable (∀ e ∈ s.taken v pin,
      (s.configured_timers e.timer = false ∨ ServoBase v (s.board.tim e.timer)) ∧
        ((s.servos i).timer = 0 ∨ (s.servos i).timer = e.timer ∨
          ∃ j, j ≠ i ∧ (s.servos j).timer = (s.servos i).timer)))
  | .detach i => inferInstanceAs (Decidable (∀ j, j ≠ i → ¬s.On (s.servos i).timer j))
  | .write _ _ | .writeMicroseconds _ _ | .claim _ _ | .program _ _ _ | .release _ _ =>
    inferInstanceAs (Decidable True)

/-! ### Steps that the property does not see -/

/-- Two states with the same owners, time bases and attached servos. -/
structure Agree (v : Variant) (s' s : System n) : Prop where
  owner : ∀ t, s'.board.timers.owner t = s.board.timers.owner t
  base : ∀ t, ServoBase v (s'.board.tim t) ↔ ServoBase v (s.board.tim t)
  enabled : ∀ t, (s'.board.tim t).enabled = (s.board.tim t).enabled
  timer : ∀ i, (s'.servos i).timer = (s.servos i).timer

theorem Agree.refl (s : System n) : Agree v s s :=
  ⟨fun _ => rfl, fun _ => Iff.rfl, fun _ => rfl, fun _ => rfl⟩

theorem Agree.trans {s'' : System n} (h' : Agree v s'' s') (h : Agree v s' s) : Agree v s'' s :=
  ⟨fun t => (h'.owner t).trans (h.owner t), fun t => (h'.base t).trans (h.base t),
    fun t => (h'.enabled t).trans (h.enabled t), fun i => (h'.timer i).trans (h.timer i)⟩

theorem Agree.on (h : Agree v s' s) {t : ℕ} {i : Fin n} : s'.On t i ↔ s.On t i := by
  unfold System.On
  rw [h.timer]

theorem Agree.shared (h : Agree v s' s) (hs : Shared v s) : Shared v s' where
  owned t i hon := (h.owner t).trans (hs.owned t i (h.on.mp hon))
  base t i hon := (h.base t).mpr (hs.base t i (h.on.mp hon))
  enabled t i hon := (h.enabled t).trans (hs.enabled t i (h.on.mp hon))
  released t ht := by
    obtain ⟨i, hon⟩ := hs.released t ((h.owner t).symm.trans ht)
    exact ⟨i, h.on.mpr hon⟩

theorem setServo_timer {i j : Fin n} {servo : Servo} : ((s.setServo i servo).servos j).timer =
    if j = i then servo.timer else (s.servos j).timer := by
  unfold System.setServo
  by_cases hj : j = i
  · subst hj
    simp
  · simp [hj]

theorem agree_setServo {i : Fin n} {servo : Servo} (htimer : servo.timer = (s.servos i).timer) :
    Agree v (s.setServo i servo) s := by
  refine ⟨fun _ => rfl, fun _ => Iff.rfl, fun _ => rfl, fun j => ?_⟩
  rw [setServo_timer]
  split_ifs with hj
  · rw [hj, htimer]
  · rfl

/-- Registers other than those of the time base may change. -/
theorem agree_onTim {timer : ℕ} {f : Tim → Tim}
    (hbase : ∀ dev, ServoBase v (f dev) ↔ ServoBase v dev)
    (henabled : ∀ dev, (f dev).enabled = dev.enabled) :
    Agree v { s with board := s.board.onTim timer f } s := by
  refine ⟨fun _ => rfl, fun t => ?_, fun t => ?_, fun _ => rfl⟩
  all_goals
    by_cases ht : t = timer
    · subst ht
      simp [Board.onTim, hbase, henabled]
    · simp [Board.onTim, ht]

theorem agree_writeMicroseconds (i : Fin n) (value : ℤ) :
    Agree v (s.writeMicroseconds i value) s := by
  unfold System.writeMicroseconds
  dsimp only
  split_ifs
  · refine Agree.trans (agree_onTim ?_ ?_) (agree_setServo rfl)
    · exact fun _ => Iff.rfl
    · exact fun _ => rfl
  · exact agree_setServo rfl

/-! ### What the other owners do -/

/-- **What happens to a timer that `Servo` does not own** is nothing to the servos. -/
theorem Shared.of_foreign (hs : Shared v s) {timer : ℕ}
    (hbefore : s.board.timers.owner timer ≠ .servo)
    (hafter : s'.board.timers.owner timer ≠ .servo)
    (howner : ∀ t, t ≠ timer → s'.board.timers.owner t = s.board.timers.owner t)
    (htim : ∀ t, t ≠ timer → s'.board.tim t = s.board.tim t)
    (hservos : s'.servos = s.servos) : Shared v s' := by
  have hon {t : ℕ} {i : Fin n} : s'.On t i ↔ s.On t i := by rw [System.On, hservos, System.On]
  have hne {t : ℕ} {i : Fin n} (h : s.On t i) : t ≠ timer := by
    rintro rfl
    exact hbefore (hs.owned t i h)
  refine ⟨fun t i h => ?_, fun t i h => ?_, fun t i h => ?_, fun t ht => ?_⟩
  · rw [howner t (hne (hon.mp h))]
    exact hs.owned t i (hon.mp h)
  · rw [htim t (hne (hon.mp h))]
    exact hs.base t i (hon.mp h)
  · rw [htim t (hne (hon.mp h))]
    exact hs.enabled t i (hon.mp h)
  · have ht' : t ≠ timer := by
      rintro rfl
      exact hafter ht
    obtain ⟨i, h⟩ := hs.released t ((howner t ht').symm.trans ht)
    exact ⟨i, hon.mpr h⟩

theorem Shared.claim (hs : Shared v s) (o : Other) (timer : ℕ) :
    Shared v (s.act v (.claim o timer)) := by
  unfold System.act
  dsimp only
  rcases Registry.foreign_claim s.board.timers timer o.2 Owner.noConfusion with
    hsame | ⟨hbefore, hafter, hothers⟩
  · rw [hsame]
    exact hs
  · exact hs.of_foreign hbefore hafter hothers (fun _ _ => rfl) rfl

theorem Shared.program (hs : Shared v s) (o : Other) (timer : ℕ) (dev : Tim) :
    Shared v (s.act v (.program o timer dev)) := by
  unfold System.act
  dsimp only
  split_ifs with hheld
  · have hforeign : s.board.timers.owner timer ≠ .servo := hheld.symm ▸ o.2.2
    exact hs.of_foreign hforeign hforeign (fun _ _ => rfl)
      (fun t ht => Function.update_of_ne ht _ _) rfl
  · exact hs

theorem Shared.release (hs : Shared v s) (o : Other) (timer : ℕ) :
    Shared v (s.act v (.release o timer)) := by
  unfold System.act
  dsimp only
  rcases Registry.foreign_release s.board.timers timer o.2 Owner.noConfusion with
    hsame | ⟨hbefore, hafter, hothers⟩
  · rw [hsame]
    exact hs
  · exact hs.of_foreign hbefore hafter hothers (fun _ _ => rfl) rfl

/-! ### `attach` -/

theorem valid_ne_zero {t : ℕ} (hvalid : valid t = true) : t ≠ 0 := by
  rintro rfl
  cases hvalid

/-- What `attach` has done when it has taken the timer of an entry. -/
structure Attached (v : Variant) (s' s : System n) (i : Fin n) (e : PwmAf) : Prop where
  owner : ∀ t, s'.board.timers.owner t =
    if t = e.timer then .servo else s.board.timers.owner t
  timer : ∀ j, (s'.servos j).timer = if j = i then e.timer else (s.servos j).timer
  base : ServoBase v (s'.board.tim e.timer) ↔
    s.configured_timers e.timer = false ∨ ServoBase v (s.board.tim e.timer)
  enabled : (s'.board.tim e.timer).enabled = true
  others : ∀ t, t ≠ e.timer → (ServoBase v (s'.board.tim t) ↔ ServoBase v (s.board.tim t)) ∧
    (s'.board.tim t).enabled = (s.board.tim t).enabled

theorem Attached.of_agree {s₁ s₂ : System n} {i : Fin n} {e : PwmAf} (hafter : Agree v s' s₂)
    (h : Attached v s₂ s₁ i e) (hbefore : Agree v s₁ s)
    (hconfigured : s₁.configured_timers = s.configured_timers) : Attached v s' s i e where
  owner t := ((hafter.owner t).trans (h.owner t)).trans (by rw [hbefore.owner])
  timer j := ((hafter.timer j).trans (h.timer j)).trans (by rw [hbefore.timer])
  base := ((hafter.base _).trans h.base).trans (by rw [hconfigured, hbefore.base])
  enabled := (hafter.enabled _).trans h.enabled
  others t ht :=
    ⟨((hafter.base t).trans (h.others t ht).1).trans (hbefore.base t),
      ((hafter.enabled t).trans (h.others t ht).2).trans (hbefore.enabled t)⟩

theorem startTim_base {first : Bool} {timer channel : ℕ} {pulse : ℤ} {dev : Tim} :
    ServoBase v (Servo.startTim v first timer channel pulse dev) ↔
      first = true ∨ ServoBase v dev := by
  unfold Servo.startTim
  dsimp only
  by_cases hfirst : first = true
  · rw [if_pos hfirst]
    refine iff_of_true ?_ (.inl hfirst)
    split_ifs <;> exact ⟨rfl, rfl⟩
  · rw [if_neg hfirst]
    refine Iff.trans ?_ (or_iff_right hfirst).symm
    split_ifs <;> exact Iff.rfl

theorem startTim_enabled {first : Bool} {timer channel : ℕ} {pulse : ℤ} {dev : Tim} :
    (Servo.startTim v first timer channel pulse dev).enabled = true := by
  unfold Servo.startTim
  rfl

theorem attached_start (i : Fin n) (pin : ℕ) {e : PwmAf}
    (hclaim : (s.board.timers.claim e.timer .servo).1 = true) :
    Attached v (System.start v { s with board :=
      { s.board with timers := (s.board.timers.claim e.timer .servo).2 } } i pin e) s i e := by
  -- What `writeMicroseconds` does at the end is not seen.
  refine Attached.of_agree (agree_writeMicroseconds i _) ?_ (Agree.refl s) rfl
  refine ⟨fun t => Registry.owner_claim hclaim, fun j => setServo_timer, ?_, ?_, fun t ht => ?_⟩
  · show ServoBase v (Function.update s.board.tim e.timer _ e.timer) ↔ _
    rw [Function.update_self, startTim_base, Bool.not_eq_true']
    exact Iff.rfl
  · show (Function.update s.board.tim e.timer _ e.timer).enabled = true
    rw [Function.update_self, startTim_enabled]
  · show (ServoBase v (Function.update s.board.tim e.timer _ t) ↔ _) ∧
      (Function.update s.board.tim e.timer _ t).enabled = _
    rw [Function.update_of_ne ht]
    exact ⟨Iff.rfl, rfl⟩

/-- The entry that is chosen, if the pin is in range. -/
theorem choose_some {timers : Registry} {pin : ℕ} {e : PwmAf}
    (hchoose : Servo.choose v timers pin = some e) :
    timers.owner e.timer = .free ∨ timers.owner e.timer = .servo := by
  have hfound := List.find?_some hchoose
  simp only [Bool.and_eq_true, Bool.or_eq_true, decide_eq_true_eq] at hfound
  exact hfound.2

theorem attach_none {i : Fin n} {pin min max : ℤ} (hnone : s.taken v pin = none) :
    Agree v (s.attach v i pin min max).2 s := by
  unfold System.taken at hnone
  unfold System.attach
  dsimp only
  split_ifs at hnone ⊢ with hrange
  · exact Agree.refl s
  have hset : Agree v (s.setServo i { s.servos i with min, max }) s := agree_setServo rfl
  cases hchoose : Servo.choose v (s.setServo i { s.servos i with min, max }).board.timers
    pin.toNat with
  | none => exact hset
  | some e =>
    have hinvalid : valid e.timer = false := by
      have hchoose' : Servo.choose v s.board.timers pin.toNat = some e := hchoose
      rw [hchoose', Option.filter_some] at hnone
      simpa using hnone
    have hrefused : ((s.setServo i { s.servos i with min, max }).board.timers.claim e.timer
        .servo).1 = false := by
      rw [Registry.claim_fst Owner.noConfusion, hinvalid, Bool.false_and]
    dsimp only
    rw [hrefused]
    by_cases hzero : e.timer = 0
    · rw [if_pos hzero]
      exact hset
    · rw [if_neg hzero]
      exact hset

theorem attach_some (i : Fin n) {pin : ℤ} (min max : ℤ) {e : PwmAf}
    (hsome : s.taken v pin = some e) :
    Attached v (s.attach v i pin min max).2 s i e ∧ e.timer ≠ 0 := by
  unfold System.taken at hsome
  unfold System.attach
  dsimp only
  split_ifs at hsome ⊢ with hrange
  have hset : Agree v (s.setServo i { s.servos i with min, max }) s := agree_setServo rfl
  obtain ⟨hchoose, hvalid⟩ := Option.filter_eq_some_iff.mp hsome
  have hpos := valid_ne_zero hvalid
  have hclaim : ((s.setServo i { s.servos i with min, max }).board.timers.claim e.timer
      .servo).1 = true := by
    rw [Registry.claim_fst Owner.noConfusion, hvalid, Bool.true_and, Bool.or_eq_true,
      decide_eq_true_eq, decide_eq_true_eq]
    exact choose_some hchoose
  have hchoose' : Servo.choose v (s.setServo i { s.servos i with min, max }).board.timers
      pin.toNat = some e := hchoose
  rw [hchoose']
  dsimp only
  rw [if_neg hpos, hclaim]
  exact ⟨(attached_start i pin.toNat hclaim).of_agree (Agree.refl _) hset rfl, hpos⟩

/-- **`attach`** keeps the timers of the servos just if it finds the one it takes configured, and
leaves none behind. -/
theorem Attached.shared_iff {i : Fin n} {e : PwmAf} (h : Attached v s' s i e) (hs : Shared v s)
    (hpos : e.timer ≠ 0) : Shared v s' ↔
      (s.configured_timers e.timer = false ∨ ServoBase v (s.board.tim e.timer)) ∧
        ((s.servos i).timer = 0 ∨ (s.servos i).timer = e.timer ∨
          ∃ j, j ≠ i ∧ (s.servos j).timer = (s.servos i).timer) := by
  have honNew : s'.On e.timer i := ⟨hpos, (h.timer i).trans (if_pos rfl)⟩
  have honOld {t : ℕ} {j : Fin n} (ht : t ≠ e.timer) (hon : s'.On t j) : j ≠ i ∧ s.On t j := by
    have hj : j ≠ i := by
      rintro rfl
      exact ht (hon.2.symm.trans ((h.timer j).trans (if_pos rfl)))
    exact ⟨hj, hon.1, ((h.timer j).trans (if_neg hj)).symm.trans hon.2⟩
  constructor
  · intro hs'
    refine ⟨h.base.mp (hs'.base _ i honNew), ?_⟩
    by_cases hzero : (s.servos i).timer = 0
    · exact .inl hzero
    by_cases hsame : (s.servos i).timer = e.timer
    · exact .inr (.inl hsame)
    -- The old timer is still the servos', so one of them is still on it.
    have hold : s'.board.timers.owner (s.servos i).timer = .servo :=
      ((h.owner _).trans (if_neg hsame)).trans (hs.owned _ i ⟨hzero, rfl⟩)
    obtain ⟨j, hon⟩ := hs'.released _ hold
    obtain ⟨hj, -, htimer⟩ := honOld hsame hon
    exact .inr (.inr ⟨j, hj, htimer⟩)
  · rintro ⟨hbase, hleft⟩
    refine ⟨fun t j hon => ?_, fun t j hon => ?_, fun t j hon => ?_, fun t ht => ?_⟩
    · rw [h.owner]
      split_ifs with hsame
      · rfl
      · exact hs.owned t j (honOld hsame hon).2
    · by_cases hsame : t = e.timer
      · rw [hsame]
        exact h.base.mpr hbase
      · exact (h.others t hsame).1.mpr (hs.base t j (honOld hsame hon).2)
    · by_cases hsame : t = e.timer
      · rw [hsame]
        exact h.enabled
      · exact (h.others t hsame).2.trans (hs.enabled t j (honOld hsame hon).2)
    · by_cases hsame : t = e.timer
      · exact ⟨i, hsame ▸ honNew⟩
      rw [h.owner, if_neg hsame] at ht
      obtain ⟨j, hpos', htimer⟩ := hs.released t ht
      by_cases hj : j = i
      · subst hj
        rcases hleft with hzero | heq | ⟨k, hk, hktimer⟩
        · exact absurd (htimer.symm.trans hzero) hpos'
        · exact absurd (htimer.symm.trans heq) hsame
        · exact ⟨k, hpos', ((h.timer k).trans (if_neg hk)).trans (hktimer.trans htimer)⟩
      · exact ⟨j, hpos', ((h.timer j).trans (if_neg hj)).trans htimer⟩

/-! ### `detach` -/

/-- **`detach`** keeps the timers of the servos just if the servo is alone on its own. -/
theorem shared_detach_iff (hs : Shared v s) (i : Fin n) :
    Shared v (s.detach i) ↔ ∀ j, j ≠ i → ¬s.On (s.servos i).timer j := by
  unfold System.detach
  dsimp only
  split_ifs with hattached
  · -- Nothing is attached, and nothing happens.
    have hzero : (s.servos i).timer = 0 := by simpa [Servo.attached] using hattached
    exact iff_of_true hs fun j _ hon => hon.1 hzero
  have hpos : (s.servos i).timer ≠ 0 := by simpa [Servo.attached] using hattached
  have hheld := hs.owned _ i ⟨hpos, rfl⟩
  generalize hs' : System.setServo _ _ _ = s'
  have howner (t : ℕ) : s'.board.timers.owner t =
      if t = (s.servos i).timer then .free else s.board.timers.owner t := by
    subst hs'
    refine Registry.owner_release.trans (if_congr ?_ rfl rfl)
    exact and_iff_left hheld
  have htimer (j : Fin n) : (s'.servos j).timer = if j = i then 0 else (s.servos j).timer := by
    subst hs'
    exact setServo_timer
  have htim : s'.board.tim = s.board.tim := by
    subst hs'
    rfl
  have hon {t : ℕ} {j : Fin n} : s'.On t j ↔ j ≠ i ∧ s.On t j := by
    unfold System.On
    rw [htimer]
    split_ifs with hj
    · exact ⟨fun h => absurd h.2.symm h.1, fun h => absurd hj h.1⟩
    · exact (and_iff_right hj).symm
  constructor
  · intro hshared j hj hold
    have := (howner _).symm.trans (hshared.owned _ j (hon.mpr ⟨hj, hold⟩))
    rw [if_pos rfl] at this
    cases this
  · intro halone
    have hne {t : ℕ} {j : Fin n} (h : s'.On t j) : t ≠ (s.servos i).timer := by
      rintro rfl
      exact halone j (hon.mp h).1 (hon.mp h).2
    refine ⟨fun t j h => ?_, fun t j h => ?_, fun t j h => ?_, fun t ht => ?_⟩
    · rw [howner, if_neg (hne h)]
      exact hs.owned t j (hon.mp h).2
    · rw [htim]
      exact hs.base t j (hon.mp h).2
    · rw [htim]
      exact hs.enabled t j (hon.mp h).2
    · rw [howner] at ht
      split_ifs at ht with hold
      obtain ⟨j, h⟩ := hs.released t ht
      refine ⟨j, hon.mpr ⟨?_, h⟩⟩
      rintro rfl
      exact hold h.2.symm

/-! ### Runs -/

/-- **A step** keeps the timers of the servos just if it is orderly. -/
theorem shared_act_iff (hs : Shared v s) (a : Action n) : Shared v (s.act v a) ↔ Orderly v s a := by
  cases a with
  | attach i pin min max =>
    show Shared v (s.attach v i pin min max).2 ↔ _
    cases htaken : s.taken v pin with
    | none =>
      refine iff_of_true ((attach_none htaken).shared hs) fun e he => ?_
      rw [htaken] at he
      cases he
    | some e =>
      obtain ⟨hatt, hpos⟩ := attach_some i min max htaken
      refine (hatt.shared_iff hs hpos).trans ⟨fun h e' he' => ?_, fun h => h e htaken⟩
      rw [← Option.some.inj (htaken.symm.trans he')]
      exact h
  | detach i => exact shared_detach_iff hs i
  | write i value => exact iff_of_true ((agree_writeMicroseconds i _).shared hs) trivial
  | writeMicroseconds i value =>
    exact iff_of_true ((agree_writeMicroseconds i value).shared hs) trivial
  | claim o timer => exact iff_of_true (hs.claim o timer) trivial
  | program o timer dev => exact iff_of_true (hs.program o timer dev) trivial
  | release o timer => exact iff_of_true (hs.release o timer) trivial

theorem Shared.fresh (h : s.Fresh) : Shared v s := by
  obtain ⟨hfree, -, hdetached⟩ := h
  have hnone {t : ℕ} {i : Fin n} : ¬s.On t i := by
    rintro ⟨hpos, htimer⟩
    rw [hdetached] at htimer
    exact hpos htimer.symm
  refine ⟨fun t i h => absurd h hnone, fun t i h => absurd h hnone, fun t i h => absurd h hnone,
    fun t ht => ?_⟩
  rw [Registry.owner, hfree, ite_self] at ht
  cases ht

/-- **Servos that share timers** run at 50 Hz on timers that they own after every run of orderly
steps, and the next step leaves it so just if it is orderly, too. -/
theorem shared_of_reachable (h : (servoMachine v n).Reachable (Orderly v) s) :
    Shared v s ∧ ∀ a, Shared v (s.act v a) ↔ Orderly v s a := by
  have hs : Shared v s := by
    refine invariant (fun s => Shared.fresh) ?_ h
    intro s a s' hs horderly hstep
    rw [← Option.some.inj hstep]
    exact (shared_act_iff hs a).mpr horderly
  exact ⟨hs, shared_act_iff hs⟩

/-! ### Runs on either side -/

/-- Three pins of the map of the CH32H415REU6: PA9 and PA10 on TIM1, PA0 on TIM2, TIM5 and
TIM9. -/
def threePins : Variant where
  pinsCount := 96
  pinDac1 := 4
  pinDac2 := 5
  pwmAfMap :=
    [⟨0, 2, 1, false, 1⟩, ⟨0, 5, 1, false, 2⟩, ⟨0, 9, 1, false, 6⟩, ⟨9, 1, 2, false, 1⟩,
      ⟨10, 1, 3, false, 1⟩]
  channels := by decide
  hclk := 100000000

/-- The registers are at their reset values. -/
def atRest : System 2 where
  board := ⟨fun _ => .free, fun _ => ⟨false, 0, 65535, fun _ => ⟨false, false, 0⟩, false, false⟩,
    fun _ => .input⟩
  configured_timers := fun _ => false
  servos := fun _ => {}

theorem atRest_fresh : atRest.Fresh :=
  ⟨fun _ => rfl, fun _ => rfl, fun _ => rfl⟩

/-- Two servos share a timer, one of them moves, and `tone` gets and gives back what is free. -/
theorem shared_of_reachable_tone : ∃ s, (servoMachine threePins 2).run (Orderly threePins) atRest
      [.attach 0 9 544 2400, .attach 1 10 544 2400, .attach 0 0 1000 2000,
        .claim ⟨.tone, nofun, nofun⟩ 5, .release ⟨.tone, nofun, nofun⟩ 5, .detach 1] = some s ∧
    (s.board.timers 1 = .free ∧ s.board.timers 2 = .servo) ∧
    Shared threePins s ∧ ∀ a, Shared threePins (s.act threePins a) ↔ Orderly threePins s a := by
  have hrun : ((servoMachine threePins 2).run (Orderly threePins) atRest
      [.attach 0 9 544 2400, .attach 1 10 544 2400, .attach 0 0 1000 2000,
        .claim ⟨.tone, nofun, nofun⟩ 5, .release ⟨.tone, nofun, nofun⟩ 5, .detach 1]).map
        (fun s => (s.board.timers 1, s.board.timers 2)) = some (.free, .servo) := by
    decide +kernel
  obtain ⟨s, hs, howners⟩ := Option.map_eq_some_iff.mp hrun
  exact ⟨s, hs, Prod.mk.inj howners,
    shared_of_reachable (reachable_of_run (.init atRest_fresh) hs)⟩

/-- Two servos share a timer, and the first of them to detach gives it back. -/
theorem not_shared_of_reachable :
    ¬ ∀ s, (servoMachine threePins 2).Reachable anyStep s → Shared threePins s := by
  intro hall
  have hrun : ((servoMachine threePins 2).run anyStep atRest
      [.attach 0 9 544 2400, .attach 1 10 544 2400, .detach 0]).map
        (fun s => ((s.servos 1).timer, s.board.timers.owner 1)) = some (1, .free) := by
    decide +kernel
  obtain ⟨s, hs, hstate⟩ := Option.map_eq_some_iff.mp hrun
  obtain ⟨htimer, howner⟩ := Prod.mk.inj hstate
  have howned := (hall s (reachable_of_run (.init atRest_fresh) hs)).owned 1 1
    ⟨Nat.one_ne_zero, htimer⟩
  rw [howner] at howned
  cases howned

end Ch32h4.Timer
