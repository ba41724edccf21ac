import Ch32h4.Ticker.Equiv.Walking

/-!
# The timer under the Tickers

TIM4 runs for the Tickers as long as `s_timer_running` is set, and that is so as long as the list is
not empty: the two change together where interrupts are masked (`Timed`).  `arm` of the sketch is
the exception: it starts the timer, or finds it running, and inserts the Ticker later.  A tick in
between that takes out the last Ticker of the list stops the timer, and what is inserted then waits
for a tick that never comes.
-/

namespace Ch32h4.Ticker

open Machine Links
open Timer (Tim Registry)

variable {ι κ : Type*} {s s' : System ι κ} {x t : ι} {r : Request κ} {clock : ℕ}

/-- TIM4 is owned by the Tickers and runs, with its interrupt attached. -/
structure On (s : System ι κ) : Prop where
  owner : s.timers.owner 4 = .ticker
  enabled : s.tim4.enabled = true
  fn : s.irq4.fn = some .ticker
  unmasked : s.irq4.enabled = true
  line : s.irq4.line = true

/-- What is promised where no call is in progress. -/
structure Backed (s : System ι κ) : Prop where
  iff : s.Idle → (On s ↔ s.links.head ≠ none)
  /-- An armed Ticker is in the list. -/
  listed : ∀ x, (s.tickers x).active = true →
    ∃ l, Spells s.links.next s.links.head l ∧ x ∈ l

/-- **The condition**: the timer still runs when `arm` inserts the Ticker, and no callback arms that
Ticker before. -/
def Timely (s : System ι κ) : System.Action ι κ → Prop
  | .arm x r => r.Refused ∨ s.place.pending ≠ some x
  | .sketch => match s.place with | .insert _ _ => s.running = true | _ => True
  | _ => True

instance [DecidableEq ι] (s : System ι κ) : (a : System.Action ι κ) → Decidable (Timely s a)
  | .arm _ _ => inferInstanceAs (Decidable (_ ∨ _))
  | .sketch =>
    match h : s.place with
    | .insert _ _ => decidable_of_iff (s.running = true) (by simp [Timely, h])
    | .idle | .start _ _ | .started _ _ => .isTrue (by simp [Timely, h])
  | .detach _ | .update | .tick | .visit | .leave | .claim _ | .program _ _ _ _ _ | .release _ =>
    inferInstanceAs (Decidable True)

theorem Timely.apart {a : System.Action ι κ} (h : Timely s a) : Apart s a := by
  cases a with
  | arm x r => exact h
  | detach | sketch | update | tick | visit | leave | claim | program | release => trivial

/-! ### The timer and the list -/

/-- `s_timer_running`, TIM4 and the list. -/
structure Timed (s : System ι κ) : Prop where
  on : s.running = true → On s
  off : s.running = false → (∀ x r, s.place ≠ .started x r) → s.timers.owner 4 ≠ .ticker
  started : ∀ x r, s.place = .started x r → s.running = false ∧ On s ∧ s.walk = .idle
  listed : s.links.head ≠ none → s.running = true
  empty : s.running = true → s.links.head ≠ none ∨ ∃ x r, s.place = .insert x r

theorem On.congr (h : On s) (htimers : s'.timers = s.timers) (htim : s'.tim4 = s.tim4)
    (hirq : s'.irq4 = { s.irq4 with flag := s'.irq4.flag }) : On s' where
  owner := htimers ▸ h.owner
  enabled := htim ▸ h.enabled
  fn := by rw [hirq]; exact h.fn
  unmasked := by rw [hirq]; exact h.unmasked
  line := by rw [hirq]; exact h.line

/-- Steps that leave the timer alone, and the list empty or not. -/
theorem Timed.congr (h : Timed s) (hrunning : s'.running = s.running)
    (htimers : s'.timers = s.timers) (htim : s'.tim4 = s.tim4)
    (hirq : s'.irq4 = { s.irq4 with flag := s'.irq4.flag })
    (hhead : s'.links.head = none ↔ s.links.head = none) (hplace : s'.place = s.place)
    (hwalk : ∀ x r, s.place = .started x r → s.walk = .idle → s'.walk = .idle) : Timed s' where
  on hrun := (h.on (hrunning ▸ hrun)).congr htimers htim hirq
  off hrun hplace' := by
    rw [htimers]
    exact h.off (hrunning ▸ hrun) (hplace ▸ hplace')
  started x r hat := by
    rw [hplace] at hat
    obtain ⟨hrun, hon, hidle⟩ := h.started x r hat
    exact ⟨hrunning.trans hrun, hon.congr htimers htim hirq, hwalk x r hat hidle⟩
  listed hne := hrunning.trans (h.listed (mt hhead.mpr hne))
  empty hrun := by
    rw [hplace]
    exact (h.empty (hrunning ▸ hrun)).imp (mt hhead.mp) id

/-- `timer_stop` gives the timer back. -/
theorem timerStop_on (h : On s) (hrun : s.running = true) :
    s.timerStop.running = false ∧ s.timerStop.timers.owner 4 = .free := by
  unfold System.timerStop
  rw [if_neg (by simp [hrun])]
  refine ⟨rfl, ?_⟩
  show (s.timers.release 4 .ticker).owner 4 = .free
  rw [Registry.owner_release, if_pos ⟨rfl, h.owner⟩]

/-- What follows a change of the list: with the last Ticker the timer goes. -/
theorem Timed.settle (h : Timed s) (hrunning : s'.running = s.running)
    (htimers : s'.timers = s.timers) (htim : s'.tim4 = s.tim4) (hirq : s'.irq4 = s.irq4)
    (hhead : s'.links.head ≠ none → s.links.head ≠ none) (hplace : s'.place = s.place)
    (hwalk : s'.walk = s.walk) :
    Timed (if s'.links.head.isNone then s'.timerStop else s') := by
  have hon (hrun : s'.running = true) : On s' :=
    (h.on (hrunning ▸ hrun)).congr htimers htim (by rw [hirq])
  have hstarted (x : ι) (r : Request κ) (hat : s'.place = .started x r) :
      s'.running = false ∧ On s' ∧ s'.walk = .idle := by
    obtain ⟨hrun, hon, hidle⟩ := h.started x r (hplace ▸ hat)
    exact ⟨hrunning.trans hrun, hon.congr htimers htim (by rw [hirq]), hwalk.trans hidle⟩
  have hoff (hrun : s'.running = false) (hnot : ∀ x r, s'.place ≠ .started x r) :
      s'.timers.owner 4 ≠ .ticker := by
    rw [htimers]
    exact h.off (hrunning ▸ hrun) (hplace ▸ hnot)
  split_ifs with hempty
  · have hnone : s'.links.head = none := Option.isNone_iff_eq_none.mp hempty
    by_cases hrun : s'.running = true
    · have hstopped := timerStop_on (hon hrun) hrun
      have hlinks : s'.timerStop.links = s'.links := by rw [timerStop_eq]
      have hplace' : s'.timerStop.place = s'.place := by rw [timerStop_eq]
      refine ⟨fun h => ?_, fun _ _ => ?_, fun x r hat => ?_, fun hne => ?_, fun h => ?_⟩
      · cases hstopped.1.symm.trans h
      · rw [hstopped.2]
        decide
      · cases hrun.symm.trans (hstarted x r (hplace' ▸ hat)).1
      · rw [hlinks] at hne
        exact absurd hnone hne
      · cases hstopped.1.symm.trans h
    · have hsame : s'.timerStop = s' := by
        unfold System.timerStop
        rw [if_pos (by simpa using hrun)]
      rw [hsame]
      exact ⟨fun h => absurd h hrun, hoff, hstarted, fun hne => absurd hnone hne,
        fun h => absurd h hrun⟩
  · have hne : s'.links.head ≠ none := fun hnone => hempty (Option.isNone_iff_eq_none.mpr hnone)
    exact ⟨hon, hoff, hstarted, fun _ => hrunning.trans (h.listed (hhead hne)), fun _ => .inl hne⟩

/-- `timer_start` where the timer does not run. -/
theorem on_timerSetup (clock : ℕ) (h : (s.timers.claim 4 .ticker).1 = true) :
    On (s.timerSetup clock) where
  owner := (Registry.owner_claim h).trans (if_pos rfl)
  enabled := rfl
  fn := rfl
  unmasked := rfl
  line := rfl

/-- Where something walks, the timer is not just being started. -/
theorem Timed.not_started (h : Timed s) (hwalk : s.walk ≠ .idle) (x : ι) (r : Request κ) :
    s.place ≠ .started x r :=
  fun hat => hwalk (h.started x r hat).2.2

variable [DecidableEq ι]

/-- A Ticker is inserted while the timer runs. -/
theorem Timed.insert (hon : On s) (hrun : s.running = true)
    (hplace : ∀ x r, s.place ≠ .started x r) : Timed (s.insert x r) where
  on _ := hon.congr rfl rfl rfl
  off h := by cases hrun.symm.trans h
  started x r hat := absurd hat (hplace x r)
  listed _ := hrun
  empty _ := .inl (Option.some_ne_none x)

variable [Fintype ι] {l : List ι}

theorem Timed.detach (h : Timed s) (hlisted : Listed s l) (hdetach : s.detach x = some s') :
    Timed s' := by
  unfold System.detach at hdetach
  by_cases hactive : (s.tickers x).active = true
  · have hne : s.links.head ≠ none := by
      have hmem := (hlisted.active x).mp hactive
      rw [hlisted.spells.eq_head?]
      intro hnil
      rw [List.head?_eq_none_iff.mp hnil] at hmem
      cases hmem
    rw [if_pos hactive, System.unlink, Option.map_map] at hdetach
    obtain ⟨links, -, rfl⟩ := Option.map_eq_some_iff.mp hdetach
    exact h.settle rfl rfl rfl rfl (fun _ => hne) rfl rfl
  · rw [if_neg hactive, Option.map_some] at hdetach
    rw [← Option.some.inj hdetach]
    exact h.settle rfl rfl rfl rfl id rfl rfl

theorem Timed.arm (h : Timed s) (hlisted : Listed s l) (hwalk : s.walk ≠ .idle)
    (hr : ¬ r.Refused) (harm : s.arm clock x r = some s') : Timed s' := by
  obtain ⟨s₁, hdetach, hlisted₁, hdetached⟩ := hlisted.detach x
  have htimed : Timed s₁ := h.detach hlisted hdetach
  have hplace (y : ι) (r' : Request κ) : s₁.place ≠ .started y r' := by
    rw [hdetached.place]
    exact h.not_started hwalk y r'
  rw [System.arm, if_neg hr, hdetach, Option.map_some] at harm
  rw [← Option.some.inj harm]
  unfold System.timerStart
  by_cases hrun : s₁.running = true
  · rw [if_pos hrun]
    exact .insert (htimed.on hrun) hrun hplace
  · rw [if_neg hrun]
    cases hclaim : (s₁.timers.claim 4 .ticker).1 with
    | false => exact htimed
    | true =>
      have hon : On { s₁.timerSetup clock with running := true } :=
        (on_timerSetup clock hclaim).congr rfl rfl rfl
      exact .insert hon rfl hplace

theorem Timed.visit (h : Timed s) (hlisted : Listed s l) (hat : s.walk = .visit t)
    (hvisit : s.visit t = some s') : Timed s' := by
  -- The walk is somewhere, so it does not matter where it goes.
  have hwalk : s.walk ≠ .idle := fun hidle => by cases hat.symm.trans hidle
  have hmoved (s₁ s₂ : System ι κ) (h₁ : Timed s₁) (hplace : s₁.place = s.place)
      (heq : s₂ = { s₁ with walk := s₂.walk, tickers := s₂.tickers }) : Timed s₂ := by
    rw [heq]
    refine h₁.congr rfl rfl rfl rfl Iff.rfl rfl fun x r hstarted _ => ?_
    exact absurd (hplace ▸ hstarted) (h.not_started hwalk x r)
  unfold System.visit at hvisit
  dsimp only at hvisit
  split at hvisit
  swap
  · rw [← Option.some.inj hvisit]
    exact hmoved s _ h rfl rfl
  split at hvisit
  swap
  · rw [← Option.some.inj hvisit]
    exact hmoved s _ h rfl rfl
  obtain ⟨s₁, hs₁, rfl⟩ := Option.map_eq_some_iff.mp hvisit
  suffices htimed : Timed s₁ ∧ s₁.place = s.place by
    split_ifs <;> exact hmoved s₁ _ htimed.1 htimed.2 rfl
  split at hs₁
  · rw [← Option.some.inj hs₁]
    exact ⟨hmoved s _ h rfl rfl, rfl⟩
  · set s₀ : System ι κ := { s with
      tickers := Function.update s.tickers t
        { s.tickers t with remaining := (s.tickers t).remaining - 1 } } with hs₀
    have hlisted₀ : Listed s₀ l := by
      refine hlisted.congr (fun y => ?_) rfl
      by_cases heq : y = t
      · subst heq
        show (Function.update s.tickers y _ y).active = _
        rw [Function.update_self]
      · show (Function.update s.tickers t _ y).active = _
        rw [Function.update_of_ne heq]
    have htimed₀ : Timed s₀ := hmoved s s₀ h rfl rfl
    obtain ⟨s₂, hdetach, -, hdetached⟩ := hlisted₀.detach t
    obtain rfl : s₂ = s₁ := Option.some.inj (hdetach.symm.trans hs₁)
    exact ⟨htimed₀.detach hlisted₀ hdetach, hdetached.place⟩

omit [Fintype ι] in
/-- `arm` of the sketch goes on. -/
theorem Timed.sketch (h : Timed s) (hwalk : s.walk = .idle) (htimely : Timely s .sketch)
    (hstep : s.sketch clock = some s') : Timed s' := by
  unfold System.sketch at hstep
  unfold Timely at htimely
  cases hat : s.place with
  | idle => rw [hat] at hstep; cases hstep
  | start x r =>
    rw [hat] at hstep
    rw [← Option.some.inj hstep]
    have hnot (y : ι) (r' : Request κ) : s.place ≠ .started y r' := by
      rw [hat]
      exact fun h => by cases h
    by_cases hrun : s.running = true
    · rw [if_pos hrun]
      exact ⟨fun _ => (h.on hrun).congr rfl rfl rfl, fun h => (nomatch hrun.symm.trans h),
        fun _ _ h => (nomatch h), fun _ => hrun, fun _ => .inr ⟨x, r, rfl⟩⟩
    · have hstopped := Bool.eq_false_iff.mpr hrun
      have hempty : s.links.head = none := by
        by_contra hne
        exact hrun (h.listed hne)
      rw [if_neg hrun]
      cases hclaim : (s.timers.claim 4 .ticker).1 with
      | false =>
        exact ⟨fun h => absurd h hrun, fun _ _ => h.off hstopped hnot, fun _ _ h => (nomatch h),
          fun hne => absurd hempty hne, fun h => absurd h hrun⟩
      | true =>
        have hon : On { s.timerSetup clock with place := .started x r } :=
          (on_timerSetup clock hclaim).congr rfl rfl rfl
        exact ⟨fun h => absurd h hrun, fun _ hnot => absurd rfl (hnot x r),
          fun _ _ _ => ⟨hstopped, hon, hwalk⟩, fun hne => absurd hempty hne,
          fun h => absurd h hrun⟩
  | started x r =>
    rw [hat] at hstep
    rw [← Option.some.inj hstep]
    obtain ⟨-, hon, -⟩ := h.started x r hat
    exact ⟨fun _ => hon.congr rfl rfl rfl, fun h => (nomatch h), fun _ _ h => (nomatch h),
      fun _ => rfl, fun _ => .inr ⟨x, r, rfl⟩⟩
  | insert x r =>
    rw [hat] at hstep htimely
    rw [← Option.some.inj hstep]
    exact ⟨fun _ => (h.on htimely).congr rfl rfl rfl, fun h => (nomatch htimely.symm.trans h),
      fun _ _ h => (nomatch h), fun _ => htimely, fun _ => .inl (Option.some_ne_none x)⟩

/-! ### The other owners -/

omit [DecidableEq ι] [Fintype ι] in
theorem System.Idle.not_started (h : s.Idle) (x : ι) (r : Request κ) : s.place ≠ .started x r := by
  intro hat
  have hidle := h.1
  rw [hat] at hidle
  exact hidle

omit [DecidableEq ι] [Fintype ι] in
/-- What they do where the timer is not owned by the Tickers. -/
theorem Timed.foreign (h : Timed s) (hidle : s.Idle) {timers : Registry} {tim4 : Tim}
    {irq4 : Timer.Irq} (hstopped : s.running = false) (howner : timers.owner 4 ≠ .ticker) :
    Timed { s with timers, tim4, irq4 } where
  on h := by cases hstopped.symm.trans h
  off _ _ := howner
  started x r hat := absurd hat (hidle.not_started x r)
  listed := h.listed
  empty := h.empty

omit [DecidableEq ι] [Fintype ι] in
theorem Timed.claim (h : Timed s) (hidle : s.Idle) (o : System.Other) :
    Timed { s with timers := (s.timers.claim 4 o).2 } := by
  cases hclaim : (s.timers.claim 4 o).1 with
  | false =>
    rw [Registry.claim_of_fst_false hclaim]
    exact h
  | true =>
    have howner := Registry.owner_claim (t := 4) hclaim
    rw [if_pos rfl] at howner
    have hheld := hclaim.symm.trans (Registry.claim_fst o.2.1)
    have hstopped : s.running = false := by
      by_contra hrun
      rw [(h.on (by simpa using hrun)).owner] at hheld
      simp [o.2.2.symm] at hheld
    exact h.foreign hidle hstopped (by rw [howner]; exact o.2.2)

omit [DecidableEq ι] [Fintype ι] in
/-- A timer that another owner has does not run for the Tickers. -/
theorem Timed.not_running (h : Timed s) {o : System.Other} (howner : s.timers.owner 4 = o) :
    s.running = false := by
  by_contra hrun
  exact o.2.2 (howner.symm.trans (h.on (by simpa using hrun)).owner)

omit [DecidableEq ι] [Fintype ι] in
theorem Timed.release (h : Timed s) (hidle : s.Idle) (o : System.Other) :
    Timed { s with timers := s.timers.release 4 o } := by
  by_cases hheld : s.timers.owner 4 = o
  · have hfree : (s.timers.release 4 o).owner 4 = .free := by
      rw [Registry.owner_release, if_pos ⟨rfl, hheld⟩]
    exact h.foreign hidle (h.not_running hheld) (by rw [hfree]; decide)
  · rw [Registry.release_of_ne hheld]
    exact h

omit [DecidableEq ι] [Fintype ι] in
/-- A tick begins; where the timer is just being started there is nothing to walk over. -/
theorem Timed.dispatch (h : Timed s) : Timed s.dispatch := by
  unfold System.dispatch
  dsimp only
  split_ifs
  · refine h.congr rfl rfl rfl rfl Iff.rfl rfl fun x r hat _ => ?_
    have hempty : s.links.head = none := by
      by_contra hne
      cases (h.started x r hat).1.symm.trans (h.listed hne)
    show (s.links.head.elim Walk.idle Walk.visit) = .idle
    rw [hempty]
    rfl
  · exact h.congr rfl rfl rfl rfl Iff.rfl rfl fun _ _ _ => id

/-! ### Runs -/

/-- **The timer goes with the list.** -/
theorem Timed.step (h : Timed s) (hkept : Kept s) {a : System.Action ι κ} (htimely : Timely s a)
    (hstep : Step clock s a s') : Timed s' := by
  obtain ⟨l, hlisted⟩ := hkept.listed
  cases hstep with
  | refused x r hr => exact h
  | armed x r next s' hat hr harm =>
    exact h.arm hlisted (fun hidle => by cases hat.symm.trans hidle) hr harm
  | called x r s' hidle hr hdetach =>
    have htimed := h.detach hlisted hdetach
    obtain ⟨-, hdetached⟩ := hkept.detach hdetach
    have hnot (y : ι) (r' : Request κ) : s'.place ≠ .started y r' := by
      rw [hdetached.place]
      exact hidle.not_started y r'
    refine ⟨fun hrun => (htimed.on hrun).congr rfl rfl rfl, fun hrun _ => htimed.off hrun hnot,
      fun _ _ h => (nomatch h), htimed.listed, fun hrun => ?_⟩
    -- Before the call no Ticker was about to be inserted, so the timer runs for the list.
    refine (htimed.empty hrun).imp id fun ⟨y, r', hat⟩ => ?_
    have hplace := hidle.1
    rw [← hdetached.place, hat] at hplace
    exact hplace.elim
  | detached x next s' hat hdetach => exact h.detach hlisted hdetach
  | dropped x s' hidle hdetach => exact h.detach hlisted hdetach
  | sketch s' hwalk hsketch => exact h.sketch hwalk htimely hsketch
  | update => exact h.congr rfl rfl rfl rfl Iff.rfl rfl fun _ _ _ => id
  | tick hwalk => exact h.dispatch
  | visit t s' hat hvisit => exact h.visit hlisted hat hvisit
  | leave next hat =>
    refine h.congr rfl rfl rfl rfl Iff.rfl rfl fun x r hstarted => ?_
    exact absurd hstarted (h.not_started (fun hidle => by cases hat.symm.trans hidle) x r)
  | claim o hidle => exact h.claim hidle o
  | program o dev enabled flag line hidle howner =>
    exact h.foreign hidle (h.not_running howner) (by rw [howner]; exact o.2.2)
  | release o hidle => exact h.release hidle o

omit [DecidableEq ι] [Fintype ι] in
theorem Timed.of_fresh (h : s.Fresh) : Timed s where
  on hrun := by cases h.stopped.symm.trans hrun
  off _ _ := h.owner
  started x r hat := absurd hat (h.idle.not_started x r)
  listed hne := absurd h.empty hne
  empty hrun := by cases h.stopped.symm.trans hrun

omit [DecidableEq ι] [Fintype ι] in
theorem Timed.backed (h : Timed s) (hkept : Kept s) : Backed s where
  iff hidle := by
    constructor
    · intro hon
      have hrun : s.running = true := by
        by_contra hstopped
        exact h.off (by simpa using hstopped) hidle.not_started hon.owner
      refine (h.empty hrun).elim id fun ⟨x, r, hat⟩ => ?_
      have hplace := hidle.1
      rw [hat] at hplace
      exact hplace.elim
    · intro hne
      exact h.on (h.listed hne)
  listed x hactive := by
    obtain ⟨l, hlisted⟩ := hkept.listed
    exact ⟨l, hlisted.spells, (hlisted.active x).mp hactive⟩

theorem timed_of_reachable (h : (machine ι κ clock).Reachable Timely s) : Kept s ∧ Timed s := by
  refine invariant (I := fun s => Kept s ∧ Timed s) (fun s hfresh => ?_)
    (fun s a s' hinv htimely hstep => ?_) h
  · exact ⟨.of_fresh hfresh, .of_fresh hfresh⟩
  · have hstep := step_cases hstep
    exact ⟨hinv.1.step htimely.apart hstep, hinv.2.step hinv.1 htimely hstep⟩

/-- **In every run whose `arm` finds the timer running where it inserts, the timer runs for the
Tickers exactly where the list is not empty; and if callbacks spare the Ticker that comes next, a
tick decrements all that stay armed.** -/
theorem backed_of_reachable {s : System ι κ × Note ι}
    (h : (noted ι κ clock).Reachable (fun s a => Timely s.1 a) s) :
    Backed s.1 ∧ ((noted ι κ clock).Reachable (fun s a => Timely s.1 a ∧ Spares s.1 a) s →
      s.1.walk = .idle → ∀ x, s.2.kept x = true → s.2.decremented x = 1) := by
  constructor
  · obtain ⟨hkept, htimed⟩ :=
      timed_of_reachable (reachable_observed_iff.mp ⟨s.2, h⟩)
    exact htimed.backed hkept
  · intro hboth
    exact (walks_of_reachable (hboth.mono fun _ _ => And.right)).decremented

/-- One Ticker is armed and served once, and another is armed after the tick. -/
theorem backed_arm_after_tick : ∃ s, (noted (Fin 3) Unit 400000000).run (fun s a => Timely s.1 a)
      (atRest _, .none) [.arm 0 ⟨1, some (), false⟩, .sketch, .sketch, .sketch, .arm 1
        ⟨7, some (), true⟩, .update, .tick, .visit, .leave, .sketch, .sketch, .sketch] = some s ∧
    (s.1.Idle ∧ s.1.links.head = some 1) ∧ Backed s.1 := by
  have hrun : ((noted (Fin 3) Unit 400000000).run (fun s a => Timely s.1 a)
      (atRest _, .none) [.arm 0 ⟨1, some (), false⟩, .sketch, .sketch, .sketch, .arm 1
        ⟨7, some (), true⟩, .update, .tick, .visit, .leave, .sketch, .sketch, .sketch]).map
      (fun s => (decide s.1.Idle, s.1.links.head)) = some (true, some 1) := by decide +kernel
  obtain ⟨s, hs, hstate⟩ := Option.map_eq_some_iff.mp hrun
  simp only [Prod.mk.injEq, decide_eq_true_eq] at hstate
  exact ⟨s, hs, hstate,
    (backed_of_reachable (reachable_of_run (.init atRest_init) hs)).1⟩

/-- The tick falls in between. -/
theorem not_backed_of_reachable :
    ¬ ∀ s, (machine (Fin 3) Unit 400000000).Reachable anyStep s → Backed s := by
  intro hall
  have hrun : ((machine (Fin 3) Unit 400000000).run anyStep (atRest _)
      [.arm 0 ⟨1, some (), false⟩, .sketch, .sketch, .sketch, .arm 1 ⟨7, some (), true⟩,
        .sketch, .update, .tick, .visit, .leave, .sketch]).map
      (fun s => (decide s.Idle, s.links.head, s.tim4.enabled)) = some (true, some 1, false) := by
    decide +kernel
  obtain ⟨s, hs, hstate⟩ := Option.map_eq_some_iff.mp hrun
  simp only [Prod.mk.injEq, decide_eq_true_eq] at hstate
  obtain ⟨hidle, hhead, hstill⟩ := hstate
  have hbacked := hall s (reachable_of_run (.init (atRest_fresh _)) hs)
  have hne : s.links.head ≠ none := by rw [hhead]; exact Option.some_ne_none 1
  cases hstill.symm.trans ((hbacked.iff hidle).mpr hne).enabled

end Ch32h4.Ticker
