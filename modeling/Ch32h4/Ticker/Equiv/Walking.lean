import Ch32h4.Ticker.Service

/-!
# The walk over the Tickers

The links spell a list without duplicates, and the Tickers in it are the active ones (`Listed`).
The walk divides the list: behind it are the Tickers it has visited and the ones armed since, ahead
of it those it still has to visit (`Tracks`).  A callback may take Tickers from anywhere and put new
ones in front; what is ahead stays ahead, if only the one Ticker stays that the walk goes on with.
That is the one it has saved, so a callback must not detach it (`Spares`).  If one does, the walk
goes on with a Ticker that leads nowhere, or, armed again, to the Tickers that were served already.
-/

namespace Ch32h4.Ticker

open Machine Links
open Timer (Tim)

variable {ι κ : Type*}
variable {s s' : System ι κ} {x y t : ι} {r : Request κ} {l pre suf post : List ι} {clock : ℕ}

/-! ### The list -/

/-- The links spell the list of the active Tickers. -/
structure Listed (s : System ι κ) (l : List ι) : Prop where
  spells : Spells s.links.next s.links.head l
  nodup : l.Nodup
  active : ∀ x, (s.tickers x).active = true ↔ x ∈ l

/-- An active Ticker counts down. -/
def Live (s : System ι κ) : Prop :=
  ∀ x, (s.tickers x).active = true → 0 < (s.tickers x).remaining ∧ 0 < (s.tickers x).interval

theorem Listed.congr (h : Listed s l) (hactive : ∀ x, (s'.tickers x).active = (s.tickers x).active)
    (hlinks : s'.links = s.links) : Listed s' l where
  spells := hlinks ▸ h.spells
  nodup := h.nodup
  active x := by rw [hactive, h.active]

theorem timerStop_eq (s : System ι κ) : s.timerStop =
    { s with
      irq4 := s.timerStop.irq4, tim4 := s.timerStop.tim4, timers := s.timerStop.timers,
      running := s.timerStop.running } := by
  unfold System.timerStop
  split_ifs <;> rfl

theorem timerStart_eq (clock : ℕ) (s : System ι κ) : (s.timerStart clock).2 =
    { s with
      irq4 := (s.timerStart clock).2.irq4, tim4 := (s.timerStart clock).2.tim4,
      timers := (s.timerStart clock).2.timers, running := (s.timerStart clock).2.running } := by
  unfold System.timerStart
  split_ifs <;> rfl

variable [DecidableEq ι]

/-- What `detach` does to the Tickers. -/
structure Detached (s : System ι κ) (x : ι) (s' : System ι κ) : Prop where
  tickers : s'.tickers = Function.update s.tickers x { s.tickers x with active := false }
  place : s'.place = s.place
  walk : s'.walk = s.walk

theorem Detached.others (h : Detached s x s') (hy : y ≠ x) : s'.tickers y = s.tickers y := by
  rw [h.tickers, Function.update_of_ne hy]

theorem Detached.inactive (h : Detached s x s') : (s'.tickers x).active = false := by
  rw [h.tickers, Function.update_self]

theorem Detached.live (h : Detached s x s')
    (hlive : ∀ y ≠ x, (s.tickers y).active = true →
      0 < (s.tickers y).remaining ∧ 0 < (s.tickers y).interval) : Live s' := by
  intro y hy
  have hne : y ≠ x := by
    rintro rfl
    cases h.inactive.symm.trans hy
  rw [h.others hne] at hy ⊢
  exact hlive y hne hy

/-- **A Ticker that is not in the list is inserted in front.** -/
theorem Listed.insert (h : Listed s l) (hx : (s.tickers x).active = false) :
    Listed (s.insert x r) (x :: l) := by
  have hnot : x ∉ l := fun hmem => by cases hx.symm.trans ((h.active x).mpr hmem)
  refine ⟨h.spells.cons hnot, List.nodup_cons.mpr ⟨hnot, h.nodup⟩, fun y => ?_⟩
  by_cases hy : y = x
  · subst hy
    simp [System.insert]
  · rw [List.mem_cons, or_iff_right_of_imp (fun heq => absurd heq hy), ← h.active]
    show (Function.update s.tickers x _ y).active = true ↔ _
    rw [Function.update_of_ne hy]

theorem Live.insert (h : Live s) (hms : 0 < r.ms) : Live (s.insert x r) := by
  intro y hy
  by_cases heq : y = x
  · subst heq
    show 0 < (Function.update s.tickers y _ y).remaining ∧
      0 < (Function.update s.tickers y _ y).interval
    rw [Function.update_self]
    exact ⟨hms, hms⟩
  · have hsame : (s.insert x r).tickers y = s.tickers y := Function.update_of_ne heq ..
    rw [hsame] at hy ⊢
    exact h y hy

variable [Fintype ι]

/-- **`detach` ends, and takes one Ticker out of the list.** -/
theorem Listed.detach (h : Listed s l) (x : ι) :
    ∃ s', s.detach x = some s' ∧ Listed s' (l.erase x) ∧ Detached s x s' := by
  -- The timer does not matter here.
  have hsettle (s₁ : System ι κ) (hlisted : Listed s₁ (l.erase x)) (hdetached : Detached s x s₁) :
      Listed (if s₁.links.head.isNone then s₁.timerStop else s₁) (l.erase x) ∧
        Detached s x (if s₁.links.head.isNone then s₁.timerStop else s₁) := by
    split_ifs
    · rw [timerStop_eq]
      exact ⟨hlisted.congr (fun _ => rfl) rfl, hdetached.tickers, hdetached.place, hdetached.walk⟩
    · exact ⟨hlisted, hdetached⟩
  unfold System.detach
  by_cases hactive : (s.tickers x).active = true
  · rw [if_pos hactive]
    obtain ⟨pre, post, rfl⟩ := List.append_of_mem ((h.active x).mp hactive)
    have hsplit := List.nodup_append.mp h.nodup
    have hpre : x ∉ pre := fun hx => hsplit.2.2 x hx x List.mem_cons_self rfl
    have hpost : x ∉ post := (List.nodup_cons.mp hsplit.2.1).1
    have herase : (pre ++ x :: post).erase x = pre ++ post := by
      rw [List.erase_append_right _ hpre, List.erase_cons_head]
    have hlength := h.nodup.length_le_card
    rw [List.length_append, List.length_cons] at hlength
    have hfuel : pre.length < Fintype.card ι + 1 := by omega
    obtain ⟨links, hunlink, hspells⟩ := spells_unlink h.spells h.nodup hfuel
    have hx : x ∉ pre ++ post := by
      rw [List.mem_append]
      exact not_or.mpr ⟨hpre, hpost⟩
    rw [System.unlink, hunlink, Option.map_some, Option.map_some]
    refine ⟨_, rfl, hsettle _ ⟨?_, h.nodup.erase x, fun y => ?_⟩ ⟨rfl, rfl, rfl⟩⟩
    · rw [herase]
      exact hspells.update hx none
    · rw [herase]
      by_cases hy : y = x
      · subst hy
        simp [hx]
      · show (Function.update s.tickers x _ y).active = true ↔ _
        rw [Function.update_of_ne hy, h.active]
        simp [hy]
  · rw [if_neg hactive]
    have hx : x ∉ l := mt (h.active x).mpr hactive
    refine ⟨_, rfl, hsettle s ?_ ⟨?_, rfl, rfl⟩⟩
    · rwa [List.erase_of_not_mem hx]
    · have hsame : { s.tickers x with active := false } = s.tickers x := by
        rw [← Bool.eq_false_iff.mpr hactive]
      rw [hsame, Function.update_eq_self]

/-- What `arm` in a callback does: the Ticker is in front, or nowhere if there is no timer. -/
structure Armed (s : System ι κ) (x : ι) (s' : System ι κ) (l : List ι) : Prop where
  listed : Listed s' (x :: l.erase x) ∨ Listed s' (l.erase x)
  others : ∀ y ≠ x, s'.tickers y = s.tickers y
  place : s'.place = s.place
  walk : s'.walk = s.walk
  live : Live s → Live s'

/-- **`arm` ends.** -/
theorem Listed.arm (h : Listed s l) (x : ι) (hr : ¬ r.Refused) :
    ∃ s', s.arm clock x r = some s' ∧ Armed s x s' l := by
  obtain ⟨s₁, hdetach, hlisted, hdetached⟩ := h.detach x
  have hlive (hs : Live s) : Live s₁ := hdetached.live fun y _ => hs y
  have hms : 0 < r.ms := Nat.pos_of_ne_zero (not_or.mp hr).1
  unfold System.arm
  rw [if_neg hr, hdetach, Option.map_some]
  dsimp only
  refine ⟨_, rfl, ?_⟩
  split_ifs
  · have hstarted := timerStart_eq clock s₁
    set s₂ := (s₁.timerStart clock).2 with hs₂
    have htickers : s₂.tickers = s₁.tickers := by rw [hstarted]
    have hlinks : s₂.links = s₁.links := by rw [hstarted]
    have hlisted₂ : Listed s₂ (l.erase x) := hlisted.congr (fun y => by rw [htickers]) hlinks
    refine ⟨.inl (hlisted₂.insert ?_), fun y hy => ?_, ?_, ?_, fun hs => Live.insert ?_ hms⟩
    · rw [htickers]
      exact hdetached.inactive
    · show Function.update s₂.tickers x _ y = s.tickers y
      rw [Function.update_of_ne hy, htickers, hdetached.others hy]
    · show s₂.place = s.place
      rw [hstarted]
      exact hdetached.place
    · show s₂.walk = s.walk
      rw [hstarted]
      exact hdetached.walk
    · intro y hy
      rw [htickers] at hy ⊢
      exact hlive hs y hy
  · exact ⟨.inr hlisted, fun y => hdetached.others, hdetached.place, hdetached.walk, hlive⟩

/-! ### One round -/

/-- What the walk goes on with. -/
def Walk.next : Walk ι → Option ι
  | .idle => none
  | .visit t => some t
  | .callback next => next

omit [Fintype ι] in
theorem walk_sketch (h : s.sketch clock = some s') : s'.walk = s.walk := by
  unfold System.sketch at h
  cases hat : s.place with
  | idle => rw [hat] at h; cases h
  | start x r =>
    rw [hat] at h
    rw [← Option.some.inj h]
    split_ifs <;> rfl
  | started x r | insert x r =>
    rw [hat] at h
    obtain rfl := Option.some.inj h
    rfl

omit [DecidableEq ι] [Fintype ι] in
theorem walk_advance (s : System ι κ) (next : Option ι) : (s.advance next).walk.next = next := by
  cases next <;> rfl

/-- What a round does with the Ticker it visits, in the list or not. -/
structure Visited (s : System ι κ) (t : ι) (s' : System ι κ) (l : List ι) : Prop where
  listed : Listed s' l ∨ Listed s' (l.erase t)
  others : ∀ y ≠ t, s'.tickers y = s.tickers y
  inactive : ∀ y, (s.tickers y).active = false → (s'.tickers y).active = false
  live : Live s'
  place : s'.place = s.place
  walk : s'.walk.next = s.links.next t

omit [Fintype ι] in
/-- As long as a Ticker stays active, its count may be any. -/
theorem Listed.counted (h : Listed s l) (hlive : Live s) {count : ℕ} (hcount : 0 < count)
    (htickers : s'.tickers = Function.update s.tickers t { s.tickers t with remaining := count })
    (hlinks : s'.links = s.links) (hplace : s'.place = s.place)
    (hwalk : s'.walk.next = s.links.next t) : Visited s t s' l := by
  have hothers (y : ι) (hy : y ≠ t) : s'.tickers y = s.tickers y := by
    rw [htickers, Function.update_of_ne hy]
  have hself : s'.tickers t = { s.tickers t with remaining := count } := by
    rw [htickers, Function.update_self]
  have hactive (y : ι) : (s'.tickers y).active = (s.tickers y).active := by
    by_cases heq : y = t
    · rw [heq, hself]
    · rw [hothers y heq]
  refine ⟨.inl (h.congr hactive hlinks), hothers, fun y hy => (hactive y).trans hy, fun y hy => ?_,
    hplace, hwalk⟩
  rw [hactive] at hy
  by_cases heq : y = t
  · rw [heq, hself]
    exact ⟨hcount, (hlive t (heq ▸ hy)).2⟩
  · rw [hothers y heq]
    exact hlive y hy

/-- **A round ends.** -/
theorem Listed.visit (h : Listed s l) (hlive : Live s) (t : ι) :
    ∃ s', s.visit t = some s' ∧ Visited s t s' l := by
  unfold System.visit
  dsimp only
  by_cases hactive : (s.tickers t).active = true
  swap
  · -- A Ticker that was taken out is visited for its link only.
    rw [if_neg (by simp [hactive])]
    exact ⟨_, rfl, .inl (h.congr (fun _ => rfl) rfl), fun _ _ => rfl, fun _ => id, hlive, rfl,
      walk_advance ..⟩
  obtain ⟨hpos, hinterval⟩ := hlive t hactive
  rw [if_pos (by simp [hactive, hpos])]
  by_cases hzero : (s.tickers t).remaining - 1 = 0
  · rw [if_pos hzero]
    by_cases hrepeats : (s.tickers t).repeats = true
    · rw [if_pos hrepeats, Option.map_some]
      refine ⟨_, rfl, ?_⟩
      split_ifs
      · exact h.counted hlive hinterval (Function.update_idem ..) rfl rfl rfl
      · exact h.counted hlive hinterval (Function.update_idem ..) rfl rfl (walk_advance ..)
    · rw [if_neg hrepeats]
      set s₀ : System ι κ := { s with
        tickers := Function.update s.tickers t
          { s.tickers t with remaining := (s.tickers t).remaining - 1 } } with hs₀
      have hself₀ : s₀.tickers t =
          { s.tickers t with remaining := (s.tickers t).remaining - 1 } := Function.update_self ..
      have hothers₀ (y : ι) (hy : y ≠ t) : s₀.tickers y = s.tickers y := Function.update_of_ne hy ..
      have hlisted₀ : Listed s₀ l := by
        refine h.congr (fun y => ?_) rfl
        by_cases heq : y = t
        · rw [heq, hself₀]
        · rw [hothers₀ y heq]
      obtain ⟨s₁, hdetach, hlisted₁, hdetached⟩ := hlisted₀.detach t
      have hothers (y : ι) (hy : y ≠ t) : s₁.tickers y = s.tickers y :=
        (hdetached.others hy).trans (hothers₀ y hy)
      have hinactive (y : ι) (hy : (s.tickers y).active = false) :
          (s₁.tickers y).active = false := by
        by_cases heq : y = t
        · rw [heq]
          exact hdetached.inactive
        · rw [hothers y heq]
          exact hy
      have hlive₁ : Live s₁ := by
        refine hdetached.live fun y hy => ?_
        rw [hothers₀ y hy]
        exact hlive y
      rw [hdetach, Option.map_some]
      refine ⟨_, rfl, ?_⟩
      split_ifs
      · exact ⟨.inr (hlisted₁.congr (fun _ => rfl) rfl), hothers, hinactive, hlive₁,
          hdetached.place, rfl⟩
      · exact ⟨.inr (hlisted₁.congr (fun _ => rfl) rfl), hothers, hinactive, hlive₁,
          hdetached.place, walk_advance ..⟩
  · rw [if_neg hzero]
    exact ⟨_, rfl, h.counted hlive (Nat.pos_of_ne_zero hzero) rfl rfl rfl (walk_advance ..)⟩

/-! ### The steps -/

/-- What an action does, and where it can happen. -/
inductive Step (clock : ℕ) (s : System ι κ) : System.Action ι κ → System ι κ → Prop
  | refused (x : ι) (r : Request κ) (hr : r.Refused) : Step clock s (.arm x r) s
  | armed (x : ι) (r : Request κ) (next : Option ι) (s' : System ι κ)
    (hat : s.walk = .callback next) (hr : ¬ r.Refused) (h : s.arm clock x r = some s') :
    Step clock s (.arm x r) s'
  | called (x : ι) (r : Request κ) (s' : System ι κ) (hidle : s.Idle) (hr : ¬ r.Refused)
    (h : s.detach x = some s') : Step clock s (.arm x r) { s' with place := .start x r }
  | detached (x : ι) (next : Option ι) (s' : System ι κ) (hat : s.walk = .callback next)
    (h : s.detach x = some s') : Step clock s (.detach x) s'
  | dropped (x : ι) (s' : System ι κ) (hidle : s.Idle) (h : s.detach x = some s') :
    Step clock s (.detach x) s'
  | sketch (s' : System ι κ) (hwalk : s.walk = .idle) (h : s.sketch clock = some s') :
    Step clock s .sketch s'
  | update (h : s.tim4.enabled = true) :
    Step clock s .update { s with irq4 := { s.irq4 with flag := true } }
  | tick (hwalk : s.walk = .idle)
    (htaken : (s.irq4.line && s.irq4.enabled && s.irq4.flag) = true) :
    Step clock s .tick s.dispatch
  | visit (t : ι) (s' : System ι κ) (hat : s.walk = .visit t) (h : s.visit t = some s') :
    Step clock s .visit s'
  | leave (next : Option ι) (hat : s.walk = .callback next) :
    Step clock s .leave (s.advance next)
  | claim (o : System.Other) (hidle : s.Idle) :
    Step clock s (.claim o) { s with timers := (s.timers.claim 4 o).2 }
  | program (o : System.Other) (dev : Tim) (enabled flag line : Bool) (hidle : s.Idle)
    (howner : s.timers.owner 4 = o) : Step clock s (.program o dev enabled flag line)
      { s with tim4 := dev, irq4 := ⟨some o, enabled, flag, line⟩ }
  | release (o : System.Other) (hidle : s.Idle) :
    Step clock s (.release o) { s with timers := s.timers.release 4 o }

/-- **The steps are these.** -/
theorem step_cases {a : System.Action ι κ} (h : (machine ι κ clock).step s a = some s') :
    Step clock s a s' := by
  change s.act clock a = some s' at h
  unfold System.act at h
  cases a with
  | arm x r =>
    cases hat : s.walk with
    | callback next =>
      simp only [hat] at h
      by_cases hr : r.Refused
      · rw [System.arm, if_pos hr] at h
        exact Option.some.inj h ▸ .refused x r hr
      · exact .armed x r next s' hat hr h
    | visit t => simp only [hat] at h; cases h
    | idle =>
      simp only [hat] at h
      split_ifs at h with hidle hr
      · exact Option.some.inj h ▸ .refused x r hr
      · obtain ⟨s₁, hdetach, rfl⟩ := Option.map_eq_some_iff.mp h
        exact .called x r s₁ (by simpa using hidle) hr hdetach
  | detach x =>
    cases hat : s.walk with
    | callback next =>
      simp only [hat] at h
      exact .detached x next s' hat h
    | visit t => simp only [hat] at h; cases h
    | idle =>
      simp only [hat] at h
      split_ifs at h with hidle
      exact .dropped x s' hidle h
  | sketch =>
    dsimp only at h
    split_ifs at h with hwalk
    exact .sketch s' hwalk h
  | update =>
    dsimp only at h
    split_ifs at h with hruns
    exact Option.some.inj h ▸ .update hruns
  | tick =>
    dsimp only at h
    split_ifs at h with htaken
    exact Option.some.inj h ▸ .tick htaken.1 htaken.2
  | visit =>
    cases hat : s.walk with
    | visit t =>
      simp only [hat] at h
      exact .visit t s' hat h
    | idle | callback next => simp only [hat] at h; cases h
  | leave =>
    cases hat : s.walk with
    | callback next =>
      simp only [hat] at h
      exact Option.some.inj h ▸ .leave next hat
    | idle | visit t => simp only [hat] at h; cases h
  | claim o =>
    dsimp only at h
    split_ifs at h with hidle
    exact Option.some.inj h ▸ .claim o hidle
  | program o dev enabled flag line =>
    dsimp only at h
    split_ifs at h with hidle
    exact Option.some.inj h ▸ .program o dev enabled flag line hidle.1 hidle.2
  | release o =>
    dsimp only at h
    split_ifs at h with hidle
    exact Option.some.inj h ▸ .release o hidle

/-! ### The list in every state -/

/-- What `arm` of the sketch was asked for. -/
def Place.request : Place ι κ → Option (ι × Request κ)
  | .idle => none
  | .start x r | .started x r | .insert x r => some (x, r)

omit [DecidableEq ι] [Fintype ι] in
theorem Place.pending_eq (p : Place ι κ) : p.pending = p.request.map Prod.fst := by
  cases p <;> rfl

/-- What `arm` of the sketch is about to insert. -/
def Waits (s : System ι κ) : Prop :=
  ∀ x r, s.place.request = some (x, r) → (s.tickers x).active = false ∧ 0 < r.ms

/-- A callback does not arm the Ticker that an interrupted `arm` is about to insert. -/
def Apart (s : System ι κ) : System.Action ι κ → Prop
  | .arm x r => r.Refused ∨ s.place.pending ≠ some x
  | _ => True

/-- The links and the counts are in order. -/
structure Kept (s : System ι κ) : Prop where
  listed : ∃ l, Listed s l
  live : Live s
  waits : Waits s

omit [DecidableEq ι] [Fintype ι] in
theorem Waits.congr (h : Waits s) (hplace : s'.place = s.place)
    (hactive : ∀ x, (s.tickers x).active = false → (s'.tickers x).active = false) : Waits s' := by
  intro x r hx
  rw [hplace] at hx
  obtain ⟨hinactive, hms⟩ := h x r hx
  exact ⟨hactive x hinactive, hms⟩

omit [DecidableEq ι] [Fintype ι] in
/-- Steps that have nothing to do with the list. -/
theorem Kept.congr (h : Kept s) (htickers : s'.tickers = s.tickers) (hlinks : s'.links = s.links)
    (hplace : s'.place.request = none ∨ s'.place.request = s.place.request) : Kept s' := by
  obtain ⟨l, hlisted⟩ := h.listed
  refine ⟨⟨l, hlisted.congr (fun y => by rw [htickers]) hlinks⟩, fun y hy => ?_, fun y r hy => ?_⟩
  · rw [htickers] at hy ⊢
    exact h.live y hy
  · rw [htickers]
    rcases hplace with hnone | hsame
    · cases hnone.symm.trans hy
    · exact h.waits y r (hsame.symm.trans hy)

theorem Kept.detach (h : Kept s) (hdetach : s.detach x = some s') :
    Kept s' ∧ Detached s x s' := by
  obtain ⟨l, hlisted⟩ := h.listed
  obtain ⟨s₁, hdetach₁, hlisted₁, hdetached⟩ := hlisted.detach x
  obtain rfl : s₁ = s' := Option.some.inj (hdetach₁.symm.trans hdetach)
  refine ⟨⟨⟨_, hlisted₁⟩, hdetached.live fun y _ => h.live y,
    h.waits.congr hdetached.place fun y hy => ?_⟩, hdetached⟩
  by_cases heq : y = x
  · rw [heq]
    exact hdetached.inactive
  · rw [hdetached.others heq]
    exact hy

theorem Kept.arm (h : Kept s) (hpending : s.place.pending ≠ some x) (hr : ¬ r.Refused)
    (harm : s.arm clock x r = some s') : Kept s' := by
  obtain ⟨l, hlisted⟩ := h.listed
  obtain ⟨s₁, harm₁, harmed⟩ : ∃ s₁, s.arm clock x r = some s₁ ∧ Armed s x s₁ l :=
    hlisted.arm x hr
  obtain rfl : s₁ = s' := Option.some.inj (harm₁.symm.trans harm)
  refine ⟨harmed.listed.elim (fun h => ⟨_, h⟩) fun h => ⟨_, h⟩, harmed.live h.live,
    fun y r' hy => ?_⟩
  rw [harmed.place] at hy
  have hne : y ≠ x := by
    rintro rfl
    rw [Place.pending_eq, hy] at hpending
    exact hpending rfl
  rw [harmed.others y hne]
  exact h.waits y r' hy

omit [Fintype ι] in
/-- The rest of `arm` of the sketch. -/
theorem Kept.sketch (h : Kept s) (hstep : s.sketch clock = some s') : Kept s' := by
  unfold System.sketch at hstep
  cases hat : s.place with
  | idle => rw [hat] at hstep; cases hstep
  | start x r =>
    rw [hat] at hstep
    rw [← Option.some.inj hstep]
    split_ifs
    · exact h.congr rfl rfl (.inr (by rw [hat]; rfl))
    · exact h.congr rfl rfl (.inl rfl)
    · exact h.congr rfl rfl (.inr (by rw [hat]; rfl))
  | started x r =>
    rw [hat] at hstep
    rw [← Option.some.inj hstep]
    exact h.congr rfl rfl (.inr (by rw [hat]; rfl))
  | insert x r =>
    rw [hat] at hstep
    rw [← Option.some.inj hstep]
    obtain ⟨l, hlisted⟩ := h.listed
    obtain ⟨hinactive, hms⟩ := h.waits x r (by rw [hat]; rfl)
    have hlive : Live (s.insert x r) := h.live.insert hms
    have hlisted' : Listed (s.insert x r) (x :: l) := hlisted.insert hinactive
    exact ⟨⟨_, hlisted'.congr (fun _ => rfl) rfl⟩, hlive, fun y r' hy => nomatch hy⟩

/-- **The list stays in order, whatever the walk does.** -/
theorem Kept.step (h : Kept s) {a : System.Action ι κ} (hapart : Apart s a)
    (hstep : Step clock s a s') : Kept s' := by
  cases hstep with
  | refused x r hr => exact h
  | armed x r next s' hat hr harm => exact h.arm (hapart.resolve_left hr) hr harm
  | called x r s' hidle hr hdetach =>
    obtain ⟨hkept, hdetached⟩ := h.detach hdetach
    refine ⟨hkept.listed.imp fun _ h => h.congr (fun _ => rfl) rfl, hkept.live, fun y r' hy => ?_⟩
    cases hy
    exact ⟨hdetached.inactive, Nat.pos_of_ne_zero (not_or.mp hr).1⟩
  | detached x next s' hat hdetach => exact (h.detach hdetach).1
  | dropped x s' hidle hdetach => exact (h.detach hdetach).1
  | sketch s' hwalk hsketch => exact h.sketch hsketch
  | tick =>
    unfold System.dispatch
    dsimp only
    split_ifs <;> exact h.congr rfl rfl (.inr rfl)
  | visit t s' hat hvisit =>
    obtain ⟨l, hlisted⟩ := h.listed
    obtain ⟨s₁, hvisit₁, hvisited⟩ := hlisted.visit h.live t
    obtain rfl : s₁ = s' := Option.some.inj (hvisit₁.symm.trans hvisit)
    exact ⟨hvisited.listed.elim (fun h => ⟨_, h⟩) fun h => ⟨_, h⟩, hvisited.live,
      h.waits.congr hvisited.place hvisited.inactive⟩
  | update | leave | claim | program | release => exact h.congr rfl rfl (.inr rfl)

omit [DecidableEq ι] [Fintype ι] in
theorem Kept.of_fresh (h : s.Fresh) : Kept s := by
  have hlisted : Listed s [] :=
    ⟨h.empty, List.nodup_nil, fun x => by simp [h.inactive x]⟩
  refine ⟨⟨[], hlisted⟩, fun x hx => ?_, fun x r hx => ?_⟩
  · cases (h.inactive x).symm.trans hx
  · have hidle := h.idle.1
    cases hat : s.place with
    | idle => rw [hat] at hx; cases hx
    | start y r | started y r | insert y r => rw [hat] at hidle; exact hidle.elim

/-! ### What happens in a tick -/

/-- What happened in a tick so far, or in the last one. -/
structure Note (ι : Type*) where
  /-- The Tickers that were visited. -/
  visits : List ι
  /-- It has been armed since the tick began. -/
  kept : ι → Bool
  /-- Its time is over with this tick, and no callback was faster to take it out. -/
  due : ι → Bool
  /-- How many times it was decremented. -/
  decremented : ι → ℕ
  /-- How many times it was served. -/
  served : ι → ℕ

namespace Note

/-- No tick was taken. -/
def none : Note ι := ⟨[], fun _ => false, fun _ => false, fun _ => 0, fun _ => 0⟩

/-- A tick begins. -/
def begin (s : System ι κ) : Note ι where
  visits := []
  kept x := (s.tickers x).active
  due x := (s.tickers x).active && (s.tickers x).remaining = 1
  decremented _ := 0
  served _ := 0

/-- A Ticker is visited. -/
def visit (n : Note ι) (t : ι) (f : Fields κ) : Note ι :=
  let n := { n with visits := t :: n.visits }
  if f.active && f.remaining > 0 then
    let n := { n with decremented := Function.update n.decremented t (n.decremented t + 1) }
    if f.remaining - 1 = 0 then
      { n with
        served := Function.update n.served t (n.served t + 1)
        kept := if f.repeats then n.kept else Function.update n.kept t false }
    else n
  else n

/-- A callback takes a Ticker out, and perhaps puts it in again. -/
def move (n : Note ι) (x : ι) : Note ι :=
  { n with
    kept := Function.update n.kept x false
    due := Function.update n.due x (n.due x && n.served x ≠ 0) }

end Note

/-- What an action adds. -/
def note (s : System ι κ) (n : Note ι) : System.Action ι κ → Note ι
  | .tick => if s.irq4.fn = some .ticker then .begin s else n
  | .visit => match s.walk with | .visit t => n.visit t (s.tickers t) | _ => n
  | .arm x r => match s.walk with | .callback _ => if r.Refused then n else n.move x | _ => n
  | .detach x => match s.walk with | .callback _ => n.move x | _ => n
  | _ => n

/-- What is promised of a tick. -/
structure Faithful (s : System ι κ × Note ι) : Prop where
  /-- A Ticker that is visited is in the list. -/
  visits : ∀ t, s.1.walk = .visit t → ∃ l, Spells s.1.links.next s.1.links.head l ∧ t ∈ l
  /-- None is visited twice, so the walk ends. -/
  once : s.2.visits.Nodup
  /-- And so does the walk of `detach`. -/
  ends : ∀ x, (s.1.detach x).isSome = true
  decremented : s.1.walk = .idle → ∀ x, s.2.kept x = true → s.2.decremented x = 1
  served : s.1.walk = .idle → ∀ x, s.2.served x = if s.2.due x then 1 else 0

/-- **The condition**: a callback does not detach the Ticker that the walk goes on with, and does
not arm the one that an interrupted `arm` is about to insert. -/
def Spares (s : System ι κ) : System.Action ι κ → Prop
  | .arm x r => r.Refused ∨ s.walk ≠ .callback (some x) ∧ s.place.pending ≠ some x
  | .detach x => s.walk ≠ .callback (some x)
  | _ => True

instance (s : System ι κ) : (a : System.Action ι κ) → Decidable (Spares s a)
  | .arm _ _ => inferInstanceAs (Decidable (_ ∨ _ ∧ _))
  | .detach _ => inferInstanceAs (Decidable (_ ≠ _))
  | .sketch | .update | .tick | .visit | .leave | .claim _ | .program _ _ _ _ _ | .release _ =>
    inferInstanceAs (Decidable True)

omit [DecidableEq ι] [Fintype ι] in
theorem Spares.apart {a : System.Action ι κ} (h : Spares s a) : Apart s a := by
  cases a with
  | arm x r => exact h.imp id And.right
  | detach | sketch | update | tick | visit | leave | claim | program | release => trivial

/-! ### What is ahead -/

/-- The walk has come as far as between two parts of the list. -/
structure Tracks (s : System ι κ) (n : Note ι) (pre suf : List ι) : Prop where
  listed : Listed s (pre ++ suf)
  position : s.walk.next = suf.head?
  ahead : ∀ x ∈ suf, n.kept x = true ∧ x ∉ n.visits ∧
    (n.due x = true ↔ (s.tickers x).remaining = 1)
  kept : ∀ x, n.kept x = true → x ∉ n.visits → x ∈ suf
  decremented : ∀ x, n.kept x = true → x ∈ n.visits → n.decremented x = 1
  unvisited : ∀ x ∉ n.visits,
    n.decremented x = 0 ∧ n.served x = 0 ∧ (n.due x = true → n.kept x = true)
  visited : ∀ x ∈ n.visits, n.served x = if n.due x then 1 else 0
  once : n.visits.Nodup

variable {n : Note ι}

omit [DecidableEq ι] [Fintype ι] in
/-- All of the list is ahead. -/
theorem Tracks.begin (h : Listed s l) :
    Tracks (s.advance s.links.head) (.begin s) [] l where
  listed := h.congr (fun _ => rfl) rfl
  position := by
    rw [h.spells.eq_head?]
    cases l <;> rfl
  ahead x hx := by
    have hactive := (h.active x).mpr hx
    refine ⟨hactive, List.not_mem_nil, ?_⟩
    simp [Note.begin, hactive, System.advance]
  kept x hx _ := (h.active x).mp hx
  decremented x _ hx := absurd hx List.not_mem_nil
  unvisited x _ := by
    refine ⟨rfl, rfl, fun hdue => ?_⟩
    simp only [Note.begin, Bool.and_eq_true] at hdue ⊢
    exact hdue.1
  visited x hx := absurd hx List.not_mem_nil
  once := List.nodup_nil

omit [Fintype ι] in
theorem erase_append_of_nodup (h : (pre ++ suf).Nodup) (x : ι) :
    (pre ++ suf).erase x = pre.erase x ++ suf.erase x := by
  by_cases hx : x ∈ pre
  · have hsuf : x ∉ suf := fun hs => (List.nodup_append.mp h).2.2 x hx x hs rfl
    rw [List.erase_append_left _ hx, List.erase_of_not_mem hsuf]
  · rw [List.erase_append_right _ hx, List.erase_of_not_mem hx]

omit [Fintype ι] in
theorem head?_erase (h : suf.head? ≠ some x) : (suf.erase x).head? = suf.head? := by
  cases suf with
  | nil => rfl
  | cons y suf =>
    have hne : y ≠ x := fun heq => h (congrArg some heq)
    rw [List.erase_cons_tail (by simpa using hne)]
    rfl

omit [Fintype ι] in
/-- A callback takes a Ticker from anywhere but from the very front of what is ahead, and what it
puts in front is not ahead. -/
theorem Tracks.move (h : Tracks s n pre suf) (hspared : s.walk ≠ .callback (some x))
    (hcallback : ∃ next, s.walk = .callback next) (hothers : ∀ y ≠ x, s'.tickers y = s.tickers y)
    (hwalk : s'.walk = s.walk) (front : List ι)
    (hlisted : Listed s' (front ++ (pre ++ suf).erase x)) :
    Tracks s' (n.move x) (front ++ pre.erase x) (suf.erase x) := by
  have hnodup : (pre ++ suf).Nodup := h.listed.nodup
  have hsuf : suf.Nodup := (List.nodup_append.mp hnodup).2.1
  obtain ⟨next, hat⟩ := hcallback
  have hposition := h.position
  rw [hat] at hposition hspared
  have hhead : suf.head? ≠ some x := by
    intro hhead
    rw [← hposition] at hhead
    exact hspared (congrArg Walk.callback hhead)
  refine ⟨?_, ?_, fun y hy => ?_, fun y hkept hy => ?_, fun y hkept hy => ?_, fun y hy => ?_,
    fun y hy => ?_, h.once⟩
  · rw [List.append_assoc, ← erase_append_of_nodup hnodup]
    exact hlisted
  · rw [head?_erase hhead, hwalk, hat]
    exact hposition
  · obtain ⟨hne, hmem⟩ := hsuf.mem_erase_iff.mp hy
    obtain ⟨hkept, hvisits, hdue⟩ := h.ahead y hmem
    simp only [Note.move]
    rw [Function.update_of_ne hne, Function.update_of_ne hne, hothers y hne]
    exact ⟨hkept, hvisits, hdue⟩
  · have hne : y ≠ x := by
      rintro rfl
      simp [Note.move] at hkept
    simp only [Note.move, Function.update_of_ne hne] at hkept
    exact hsuf.mem_erase_iff.mpr ⟨hne, h.kept y hkept hy⟩
  · have hne : y ≠ x := by
      rintro rfl
      simp [Note.move] at hkept
    simp only [Note.move, Function.update_of_ne hne] at hkept
    exact h.decremented y hkept hy
  · obtain ⟨hdecremented, hserved, hdue⟩ := h.unvisited y hy
    refine ⟨hdecremented, hserved, ?_⟩
    by_cases heq : y = x
    · subst heq
      simp [Note.move, hserved]
    · simp only [Note.move, Function.update_of_ne heq]
      exact hdue
  · have hserved := h.visited y hy
    by_cases heq : y = x
    · subst heq
      simp only [Note.move, Function.update_self]
      cases hdue : n.due y <;> rw [hdue] at hserved <;> simp [hserved]
    · simp only [Note.move, Function.update_of_ne heq]
      exact hserved

omit [DecidableEq ι] [Fintype ι] in
/-- What is ahead begins with the Ticker that is visited next. -/
theorem Tracks.next_eq (h : Tracks s n pre suf) (hat : s.walk = .visit t) :
    ∃ post, suf = t :: post ∧ s.links.next t = post.head? := by
  have hposition := h.position
  rw [hat] at hposition
  cases suf with
  | nil => cases hposition
  | cons y post =>
    obtain rfl : t = y := Option.some.inj hposition
    exact ⟨post, rfl, h.listed.spells.next_eq⟩

omit [Fintype ι] in
/-- What a visit of an active Ticker notes. -/
theorem visit_eq {f : Fields κ} (hactive : f.active = true) (hpos : 0 < f.remaining) :
    (n.visit t f).visits = t :: n.visits ∧
      (n.visit t f).decremented = Function.update n.decremented t (n.decremented t + 1) ∧
      (n.visit t f).due = n.due ∧
      (∀ y ≠ t, (n.visit t f).served y = n.served y ∧ (n.visit t f).kept y = n.kept y) ∧
      (n.visit t f).served t = n.served t + (if f.remaining = 1 then 1 else 0) := by
  have hcond : (f.active && decide (f.remaining > 0)) = true := by simp [hactive, hpos]
  unfold Note.visit
  dsimp only
  rw [if_pos hcond]
  by_cases hone : f.remaining = 1
  · rw [if_pos (show f.remaining - 1 = 0 by omega), if_pos hone]
    refine ⟨rfl, rfl, rfl, fun y hy => ⟨Function.update_of_ne hy .., ?_⟩, Function.update_self ..⟩
    dsimp only
    split_ifs
    · rfl
    · exact Function.update_of_ne hy ..
  · rw [if_neg (show ¬ f.remaining - 1 = 0 by omega), if_neg hone]
    exact ⟨rfl, rfl, rfl, fun _ _ => ⟨rfl, rfl⟩, rfl⟩

omit [Fintype ι] in
/-- The Ticker that was ahead of all others is visited, whether it stays in the list or not. -/
theorem Tracks.visit (h : Tracks s n pre (t :: post)) {pre' : List ι}
    (hactive : (s.tickers t).active = true) (hpos : 0 < (s.tickers t).remaining)
    (hlisted : Listed s' (pre' ++ post)) (hwalk : s'.walk.next = post.head?)
    (htickers : ∀ y ≠ t, s'.tickers y = s.tickers y) :
    Tracks s' (n.visit t (s.tickers t)) pre' post := by
  obtain ⟨hvisits, hdecremented, hdue, hothers, hserved⟩ := visit_eq (n := n) (t := t) hactive hpos
  obtain ⟨hkept, hfirst, hlast⟩ := h.ahead t List.mem_cons_self
  have hnodup : (t :: post).Nodup := (List.nodup_append.mp h.listed.nodup).2.1
  have hpost : ∀ y ∈ post, y ≠ t := fun y hy heq => (List.nodup_cons.mp hnodup).1 (heq ▸ hy)
  refine ⟨hlisted, hwalk, fun y hy => ?_, fun y hkept' hy => ?_, fun y hkept' hy => ?_,
    fun y hy => ?_, fun y hy => ?_, ?_⟩
  · have hne := hpost y hy
    obtain ⟨hkept, hvisit, hdue'⟩ := h.ahead y (List.mem_cons_of_mem t hy)
    rw [hvisits, hdue, (hothers y hne).2, htickers y hne]
    exact ⟨hkept, List.not_mem_cons_of_ne_of_not_mem hne hvisit, hdue'⟩
  · rw [hvisits, List.mem_cons, not_or] at hy
    rw [(hothers y hy.1).2] at hkept'
    exact (List.mem_cons.mp (h.kept y hkept' hy.2)).resolve_left hy.1
  · rw [hvisits, List.mem_cons] at hy
    rw [hdecremented]
    by_cases heq : y = t
    · subst heq
      rw [Function.update_self, (h.unvisited y hfirst).1]
    · rw [(hothers y heq).2] at hkept'
      rw [Function.update_of_ne heq]
      exact h.decremented y hkept' (hy.resolve_left heq)
  · rw [hvisits, List.mem_cons, not_or] at hy
    rw [hdecremented, Function.update_of_ne hy.1, hdue, (hothers y hy.1).1, (hothers y hy.1).2]
    exact h.unvisited y hy.2
  · rw [hvisits, List.mem_cons] at hy
    rw [hdue]
    by_cases heq : y = t
    · subst heq
      rw [hserved, (h.unvisited y hfirst).2.1, Nat.zero_add]
      exact if_congr hlast.symm rfl rfl
    · rw [(hothers y heq).1]
      exact h.visited y (hy.resolve_left heq)
  · rw [hvisits]
    exact List.nodup_cons.mpr ⟨hfirst, h.once⟩

/-- **The walk gets on, one round at a time.** -/
theorem Tracks.round (h : Tracks s n pre suf) (hlive : Live s) (hat : s.walk = .visit t)
    (hvisit : s.visit t = some s') : ∃ pre suf, Tracks s' (n.visit t (s.tickers t)) pre suf := by
  obtain ⟨post, rfl, hnext⟩ := h.next_eq hat
  have hactive : (s.tickers t).active = true :=
    (h.listed.active t).mpr (List.mem_append_right pre List.mem_cons_self)
  obtain ⟨s₁, hvisit₁, hvisited⟩ := h.listed.visit hlive t
  obtain rfl : s₁ = s' := Option.some.inj (hvisit₁.symm.trans hvisit)
  have hpos := (hlive t hactive).1
  have hwalk : s₁.walk.next = post.head? := hvisited.walk.trans hnext
  rcases hvisited.listed with hlisted | hlisted
  · have hmid : Listed s₁ (pre ++ [t] ++ post) := by
      rw [List.append_assoc]
      exact hlisted
    exact ⟨_, _, h.visit hactive hpos hmid hwalk hvisited.others⟩
  · have hpre : t ∉ pre := fun hmem =>
      (List.nodup_append.mp h.listed.nodup).2.2 t hmem t List.mem_cons_self rfl
    rw [List.erase_append_right _ hpre, List.erase_cons_head] at hlisted
    exact ⟨_, _, h.visit hactive hpos hlisted hwalk hvisited.others⟩

omit [DecidableEq ι] [Fintype ι] in
/-- Between two ticks the list may change in any way. -/
theorem Tracks.between (h : Tracks s n pre suf) (hwalk : s.walk = .idle) (hlisted : Listed s' l)
    (hwalk' : s'.walk = .idle) : Tracks s' n l [] := by
  have hsuf : suf = [] := by
    have hposition := h.position
    rw [hwalk] at hposition
    exact List.head?_eq_none_iff.mp hposition.symm
  subst hsuf
  refine ⟨by rwa [List.append_nil], by rw [hwalk']; rfl, fun x hx => absurd hx List.not_mem_nil,
    h.kept, h.decremented, h.unvisited, h.visited, h.once⟩

omit [DecidableEq ι] [Fintype ι] in
/-- Steps that have nothing to do with the list. -/
theorem Tracks.congr (h : Tracks s n pre suf) (htickers : s'.tickers = s.tickers)
    (hlinks : s'.links = s.links) (hwalk : s'.walk.next = s.walk.next) : Tracks s' n pre suf := by
  refine ⟨h.listed.congr (fun y => by rw [htickers]) hlinks, hwalk.trans h.position,
    fun y hy => ?_, h.kept, h.decremented, h.unvisited, h.visited, h.once⟩
  rw [htickers]
  exact h.ahead y hy

/-- **What the walk still has to visit, by one case for each action.** -/
theorem Tracks.step (h : Tracks s n pre suf) (hkept : Kept s) {a : System.Action ι κ}
    (hspares : Spares s a) (hstep : Step clock s a s') :
    ∃ pre suf, Tracks s' (note s n a) pre suf := by
  have hkept' : Kept s' := hkept.step hspares.apart hstep
  cases hstep with
  | refused x r hr =>
    refine ⟨pre, suf, ?_⟩
    unfold note
    dsimp only
    split
    · rwa [if_pos hr]
    · exact h
  | armed x r next s' hat hr harm =>
    have hspared := (hspares.resolve_left hr).1
    obtain ⟨s₁, harm₁, harmed⟩ : ∃ s₁, s.arm clock x r = some s₁ ∧ Armed s x s₁ (pre ++ suf) :=
      h.listed.arm x hr
    obtain rfl : s₁ = s' := Option.some.inj (harm₁.symm.trans harm)
    simp only [note, hat, if_neg hr]
    rcases harmed.listed with hlisted | hlisted
    · exact ⟨_, _, h.move hspared ⟨next, hat⟩ harmed.others harmed.walk [x] hlisted⟩
    · exact ⟨_, _, h.move hspared ⟨next, hat⟩ harmed.others harmed.walk [] hlisted⟩
  | detached x next s' hat hdetach =>
    obtain ⟨s₁, hdetach₁, hlisted, hdetached⟩ := h.listed.detach x
    obtain rfl : s₁ = s' := Option.some.inj (hdetach₁.symm.trans hdetach)
    simp only [note, hat]
    exact ⟨_, _, h.move hspares ⟨next, hat⟩ (fun y => hdetached.others) hdetached.walk [] hlisted⟩
  | called x r s' hidle hr hdetach =>
    obtain ⟨l, hlisted⟩ := hkept'.listed
    simp only [note, hidle.2]
    exact ⟨_, _, h.between hidle.2 hlisted ((hkept.detach hdetach).2.walk.trans hidle.2)⟩
  | dropped x s' hidle hdetach =>
    obtain ⟨l, hlisted⟩ := hkept'.listed
    simp only [note, hidle.2]
    exact ⟨_, _, h.between hidle.2 hlisted ((hkept.detach hdetach).2.walk.trans hidle.2)⟩
  | sketch s' hwalk hsketch =>
    obtain ⟨l, hlisted⟩ := hkept'.listed
    exact ⟨_, _, h.between hwalk hlisted ((walk_sketch hsketch).trans hwalk)⟩
  | tick =>
    unfold System.dispatch note
    dsimp only
    split_ifs
    · have hlisted : Listed { s with irq4 := { s.irq4 with flag := false } } (pre ++ suf) :=
        h.listed.congr (fun _ => rfl) rfl
      exact ⟨_, _, .begin hlisted⟩
    · exact ⟨_, _, h.congr rfl rfl rfl⟩
  | visit t s' hat hvisit =>
    simp only [note, hat]
    exact h.round hkept.live hat hvisit
  | leave next hat => exact ⟨_, _, h.congr rfl rfl (by rw [walk_advance, hat]; rfl)⟩
  | update | claim | program | release => exact ⟨_, _, h.congr rfl rfl rfl⟩

/-! ### Runs -/

/-- What holds of every state. -/
structure Inv (s : System ι κ × Note ι) : Prop where
  kept : Kept s.1
  tracks : ∃ pre suf, Tracks s.1 s.2 pre suf

/-- A tick, seen by somebody who notes what it does. -/
def noted (ι κ : Type*) [DecidableEq ι] [Fintype ι] (clock : ℕ) :
    Machine (System ι κ × Note ι) (System.Action ι κ) :=
  (machine ι κ clock).observed (fun _ => .none) note

omit [DecidableEq ι] [Fintype ι] in
theorem Inv.of_fresh (h : s.Fresh) : Inv (s, .none) := by
  have hlisted : Listed s ([] ++ []) :=
    ⟨h.empty, List.nodup_nil, fun x => by simp [h.inactive x]⟩
  refine ⟨.of_fresh h, [], [], hlisted, by rw [h.idle.2]; rfl,
    fun x hx => absurd hx List.not_mem_nil, fun x hx => ?_,
    fun x _ hx => absurd hx List.not_mem_nil, fun x _ => ⟨rfl, rfl, id⟩,
    fun x hx => absurd hx List.not_mem_nil, List.nodup_nil⟩
  cases hx

theorem Inv.faithful {s : System ι κ × Note ι} (h : Inv s) : Faithful s := by
  obtain ⟨pre, suf, htracks⟩ := h.tracks
  have hdone (hidle : s.1.walk = .idle) : suf = [] := by
    have hposition := htracks.position
    rw [hidle] at hposition
    exact List.head?_eq_none_iff.mp hposition.symm
  refine ⟨fun t hat => ?_, htracks.once, fun x => ?_, fun hidle x hkept => ?_, fun hidle x => ?_⟩
  · obtain ⟨post, rfl, -⟩ := htracks.next_eq hat
    exact ⟨_, htracks.listed.spells, List.mem_append_right pre List.mem_cons_self⟩
  · obtain ⟨s', hdetach, -, -⟩ := htracks.listed.detach x
    rw [hdetach]
    rfl
  · have hvisited : x ∈ s.2.visits := by
      by_contra hx
      have hahead := htracks.kept x hkept hx
      rw [hdone hidle] at hahead
      cases hahead
    exact htracks.decremented x hkept hvisited
  · by_cases hx : x ∈ s.2.visits
    · exact htracks.visited x hx
    · obtain ⟨-, hserved, hdue⟩ := htracks.unvisited x hx
      have hnot : s.2.due x ≠ true := by
        intro htrue
        have hahead := htracks.kept x (hdue htrue) hx
        rw [hdone hidle] at hahead
        cases hahead
      rw [hserved, if_neg hnot]

/-- **In every run whose callbacks spare the Ticker that comes next, ticks are faithful.** -/
theorem walks_of_reachable {s : System ι κ × Note ι}
    (h : (noted ι κ clock).Reachable (fun s a => Spares s.1 a) s) : Faithful s := by
  refine (invariant (I := Inv) (fun s hinit => ?_) (fun s a s' hinv hspares hstep => ?_) h).faithful
  · obtain ⟨s, n⟩ := s
    obtain ⟨hfresh, hnote⟩ := hinit
    have hnone : n = .none := hnote
    subst hnone
    exact .of_fresh hfresh
  · obtain ⟨s, n⟩ := s
    obtain ⟨s', n'⟩ := s'
    obtain ⟨hstep, rfl⟩ := observed_step.mp hstep
    obtain ⟨pre, suf, htracks⟩ := hinv.tracks
    have hstep := step_cases hstep
    exact ⟨hinv.kept.step hspares.apart hstep, htracks.step hinv.kept hspares hstep⟩

/-- No Ticker is armed, and TIM4 is free. -/
def atRest (ι : Type*) : System ι Unit where
  tickers _ := ⟨false, false, 0, 0, none⟩
  links := ⟨none, fun _ => none⟩
  running := false
  timers _ := .free
  tim4 := ⟨false, 0, 65535, fun _ => ⟨false, false, 0⟩, false, false⟩
  irq4 := ⟨none, false, false, false⟩
  place := .idle
  walk := .idle

theorem atRest_fresh (ι : Type*) : (atRest ι).Fresh where
  inactive _ := rfl
  empty := rfl
  stopped := rfl
  owner h := by cases h
  idle := ⟨trivial, rfl⟩

theorem atRest_init : (noted (Fin 3) Unit 400000000).init (atRest _, .none) :=
  ⟨atRest_fresh _, rfl⟩

/-- Three Tickers, the one in front due with the first tick, and in its callback. -/
def threeTickers : List (System.Action (Fin 3) Unit) :=
  [.arm 2 ⟨5, some (), true⟩, .sketch, .sketch, .sketch, .arm 1 ⟨7, some (), true⟩, .sketch,
    .sketch, .arm 0 ⟨1, some (), true⟩, .sketch, .sketch, .update, .tick, .visit]

/-- The callback detaches the last Ticker, and the walk goes on with the second. -/
theorem walks_detach_last : ∃ s, (noted (Fin 3) Unit 400000000).run (fun s a => Spares s.1 a)
      (atRest _, .none) (threeTickers ++ [.detach 2, .leave, .visit]) = some s ∧
    (s.2.decremented 0 = 1 ∧ s.2.decremented 1 = 1 ∧ s.2.decremented 2 = 0) ∧ Faithful s := by
  have hrun : ((noted (Fin 3) Unit 400000000).run (fun s a => Spares s.1 a)
      (atRest _, .none) (threeTickers ++ [.detach 2, .leave, .visit])).map
      (fun s => (s.2.decremented 0, s.2.decremented 1, s.2.decremented 2)) = some (1, 1, 0) := by
    decide +kernel
  obtain ⟨s, hs, hstate⟩ := Option.map_eq_some_iff.mp hrun
  simp only [Prod.mk.injEq] at hstate
  exact ⟨s, hs, hstate,
    walks_of_reachable (reachable_of_run (.init atRest_init) hs)⟩

/-- The callback detaches the second Ticker, and the walk never comes to the last. -/
theorem not_walks_of_reachable :
    ¬ ∀ s, (noted (Fin 3) Unit 400000000).Reachable anyStep s → Faithful s := by
  intro hall
  have hrun : ((noted (Fin 3) Unit 400000000).run anyStep
      (atRest _, .none) (threeTickers ++ [.detach 1, .leave, .visit])).map
      (fun s => (s.1.walk, s.2.kept 2, s.2.decremented 2)) = some (.idle, true, 0) := by
    decide +kernel
  obtain ⟨s, hs, hstate⟩ := Option.map_eq_some_iff.mp hrun
  simp only [Prod.mk.injEq] at hstate
  obtain ⟨hidle, hkept, hdecremented⟩ := hstate
  have hfaithful := hall s (reachable_of_run (.init atRest_init) hs)
  cases hdecremented.symm.trans (hfaithful.decremented hidle 2 hkept)

end Ch32h4.Ticker
