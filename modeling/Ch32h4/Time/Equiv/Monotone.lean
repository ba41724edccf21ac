import Ch32h4.Time.Equiv.Delaying

/-!
# `micros` does not go back

`monotone_of_reachable`: in every run whose calls of `micros` are all `settled`, a call that begins
after another has ended does not return less, unless the microseconds reach a multiple of `2 ^ 32`
between them.  A call is not settled when a handler makes it that has preempted the tick handler
between its clearing of the bit of `ISR` and its store to `s_millis`: the start of the counter is
then in neither, and the call is a millisecond behind (`not_monotone_of_reachable`).

Each start of the counter is owed once, by the bit or by a tick handler that has cleared it and not
stored (`Inv.counts`).  Under the mask of `micros` only the counter moves; a start between its reads
is the one that the bit shows, and the counter is read again (`Inside`).  So the value of each call
is the microseconds of a moment between its beginning and its end (`Exact`).
-/

namespace Ch32h4.Time

variable {clk : Clock} {s s' : State}

/-! ### The positions -/

/-- The frame is in a call of `micros`. -/
def Pc.inMicros : Pc → Bool
  | .state | .disable _ | .millis _ | .cnt .. | .isr .. | .recnt .. | .enable .. => true
  | .result .. => true
  | _ => false

/-- The frame has masked the interrupts. -/
def Pc.hasMasked : Pc → Bool
  | .millis _ | .cnt .. | .isr .. | .recnt .. | .enable .. => true
  | _ => false

theorem Pc.inMicros_of_hasMasked {pc : Pc} (h : pc.hasMasked = true) : pc.inMicros = true := by
  cases pc <;> first | rfl | cases h

theorem Pc.isTick_of_hasCleared {pc : Pc} (h : pc.hasCleared = true) : pc.isTick = true := by
  cases pc <;> first | rfl | cases h

theorem Pc.isTick_of_inMicros {pc : Pc} (h : pc.inMicros = true) : pc.isTick = false := by
  cases pc <;> first | rfl | cases h

theorem Pc.hasCleared_of_not_isTick {pc : Pc} (h : pc.isTick = false) : pc.hasCleared = false := by
  cases pc <;> first | rfl | cases h

/-- Tick handlers that have cleared the bit and not stored the count. -/
def cleared (l : List Frame) : ℕ := (l.filter (·.pc.hasCleared)).length

/-- Tick handlers. -/
def ticking (l : List Frame) : ℕ := (l.filter (·.pc.isTick)).length

@[simp] theorem cleared_cons (f : Frame) (l : List Frame) :
    cleared (f :: l) = (if f.pc.hasCleared then 1 else 0) + cleared l := by
  unfold cleared
  rw [List.filter_cons]
  split_ifs
  · rw [List.length_cons, Nat.add_comm]
  · rw [Nat.zero_add]

@[simp] theorem ticking_cons (f : Frame) (l : List Frame) :
    ticking (f :: l) = (if f.pc.isTick then 1 else 0) + ticking l := by
  unfold ticking
  rw [List.filter_cons]
  split_ifs
  · rw [List.length_cons, Nat.add_comm]
  · rw [Nat.zero_add]

theorem cleared_eq_zero {l : List Frame} :
    cleared l = 0 ↔ ∀ f ∈ l, f.pc.hasCleared = false := by
  simp [cleared, List.filter_eq_nil_iff]

theorem ticking_eq_zero {l : List Frame} : ticking l = 0 ↔ ∀ f ∈ l, f.pc.isTick = false := by
  simp [ticking, List.filter_eq_nil_iff]

theorem cleared_le_ticking (l : List Frame) : cleared l ≤ ticking l := by
  induction l with
  | nil => rfl
  | cons f l ih =>
    rw [cleared_cons, ticking_cons]
    by_cases hf : f.pc.hasCleared = true
    · rw [if_pos hf, if_pos (Pc.isTick_of_hasCleared hf)]
      omega
    · rw [if_neg hf]
      omega

theorem State.owed_eq (s : State) :
    s.owed = (if s.pending then 1 else 0) + cleared (s.run :: s.below) := rfl

/-! ### The invariant -/

/-- The value that `micros` is to make of what it has read: the microseconds of a moment since the
call began. -/
def Exact (clk : Clock) (entered ticks ms cnt : ℕ) : Prop :=
  ∃ moment, entered ≤ moment ∧ moment ≤ ticks ∧ cnt = moment % clk.ticksPerMs ∧
    ms % 2 ^ 32 = moment / clk.ticksPerMs % 2 ^ 32

/-- A frame that may have been put aside: what it has read is exact. -/
def Frame.Fits (clk : Clock) (ticks : ℕ) (f : Frame) : Prop :=
  (f.pc.inMicros = true → f.entered ≤ ticks) ∧
    match f.pc with
    | .enable _ ms cnt | .result ms cnt => Exact clk f.entered ticks ms cnt
    | _ => True

/-- What the running frame has read under the mask. -/
def Inside (clk : Clock) (s : State) : Prop :=
  match s.run.pc with
  | .cnt _ ms => ms = s.millis
  | .isr _ ms cnt =>
    -- the moment of the read is in the same millisecond, unless the bit says otherwise
    ms = s.millis ∧ ∃ moment, s.run.entered ≤ moment ∧ moment ≤ s.ticks ∧
      cnt = moment % clk.ticksPerMs ∧
      (s.pending = false → moment / clk.ticksPerMs = s.ticks / clk.ticksPerMs)
  | .recnt _ ms => ms = s.millis ∧ s.pending = true
  | _ => True

/-- No frame in a call of `micros` is above a tick handler that owes a start. -/
def Undisturbed : List Frame → Prop
  | [] => True
  | f :: l => (f.pc.inMicros = true → cleared l = 0) ∧ Undisturbed l

/-- A call that has returned: its value is the microseconds of a moment in it. -/
def Call.Exact (clk : Clock) (c : Call) : Prop :=
  ∃ moment, c.entered ≤ moment ∧ moment ≤ c.left ∧
    c.value = moment / clk.ticksPerUs % 2 ^ 32

structure Inv (clk : Clock) (s : State) : Prop where
  /-- Every start of the counter is counted or owed. -/
  counts : (s.millis + s.owed) % 2 ^ 32 = s.ticks / clk.ticksPerMs % 2 ^ 32
  owed_le : s.owed ≤ 1
  ticking_le : ticking (s.run :: s.below) ≤ 1
  clearing : ∀ f ∈ s.run :: s.below, f.pc = .clear → s.pending = true
  storing : ∀ f ∈ s.run :: s.below, ∀ ms, f.pc = .store ms → ms = s.millis
  masked : s.run.pc.hasMasked = true → s.mie = false
  unmasked : ∀ f ∈ s.below, f.pc.hasMasked = false
  undisturbed : Undisturbed (s.run :: s.below)
  fits : ∀ f ∈ s.run :: s.below, f.Fits clk s.ticks
  inside : Inside clk s
  calls : ∀ c ∈ s.calls, c.left ≤ s.ticks ∧ c.Exact clk

/-! ### What is read -/

theorem Exact.mono {entered ticks ticks' ms cnt : ℕ} (h : Exact clk entered ticks ms cnt)
    (hle : ticks ≤ ticks') : Exact clk entered ticks' ms cnt := by
  obtain ⟨moment, hfrom, hto, hcnt, hms⟩ := h
  exact ⟨moment, hfrom, hto.trans hle, hcnt, hms⟩

theorem Frame.Fits.mono {f : Frame} {ticks ticks' : ℕ} (h : f.Fits clk ticks)
    (hle : ticks ≤ ticks') : f.Fits clk ticks' := by
  obtain ⟨hentered, hread⟩ := h
  refine ⟨fun hin => (hentered hin).trans hle, ?_⟩
  split at hread <;> first | exact hread.mono hle | trivial

/-- The value of an exact read. -/
theorem Exact.value {entered ticks ms cnt : ℕ} (h : Exact clk entered ticks ms cnt) :
    Call.Exact clk ⟨entered, ticks, microsValue clk ms cnt⟩ := by
  obtain ⟨moment, hfrom, hto, hcnt, hms⟩ := h
  refine ⟨moment, hfrom, hto, ?_⟩
  have hpos := clk.ticksPerUs_pos
  have hus : moment / clk.ticksPerUs
      = moment / clk.ticksPerMs * 1000 + moment % clk.ticksPerMs / clk.ticksPerUs := by
    rw [clk.ticksPerMs_eq]
    conv_lhs => rw [← Nat.div_add_mod moment (clk.ticksPerUs * 1000), Nat.mul_assoc]
    rw [Nat.mul_add_div hpos, Nat.mul_comm 1000]
  unfold microsValue
  dsimp only
  rw [hus, hcnt, Nat.add_mod, Nat.mul_mod, hms, ← Nat.mul_mod, ← Nat.add_mod]

/-- The tick that starts the counter over ends a millisecond. -/
theorem div_succ_of_rollover (hroll : s.cnt clk + 1 = clk.ticksPerMs) :
    (s.ticks + 1) / clk.ticksPerMs = s.ticks / clk.ticksPerMs + 1 := by
  have hsplit := Nat.div_add_mod s.ticks clk.ticksPerMs
  have hnext : s.ticks + 1 = clk.ticksPerMs * (s.ticks / clk.ticksPerMs + 1) := by
    unfold State.cnt at hroll
    rw [Nat.mul_add, Nat.mul_one]
    omega
  rw [hnext, Nat.mul_div_cancel_left _ clk.ticksPerMs_pos]

/-- The others do not. -/
theorem div_add_of_pass {n : ℕ} (hpass : s.cnt clk + n < clk.ticksPerMs) :
    (s.ticks + n) / clk.ticksPerMs = s.ticks / clk.ticksPerMs := by
  unfold State.cnt at hpass
  have hsplit := Nat.div_add_mod s.ticks clk.ticksPerMs
  have hnext : s.ticks + n
      = clk.ticksPerMs * (s.ticks / clk.ticksPerMs) + (s.ticks % clk.ticksPerMs + n) := by omega
  rw [hnext, Nat.mul_add_div clk.ticksPerMs_pos, Nat.div_eq_of_lt hpass, Nat.add_zero]

/-- Under the mask of `micros` only the bit owes. -/
theorem Inv.owed_of_inMicros (h : Inv clk s) (hin : s.run.pc.inMicros = true) :
    s.owed = if s.pending then 1 else 0 := by
  have hbelow : cleared s.below = 0 := h.undisturbed.1 hin
  have hrun := Pc.hasCleared_of_not_isTick (Pc.isTick_of_inMicros hin)
  rw [State.owed_eq, cleared_cons, hrun, hbelow]
  rfl

/-! ### Steps of the counter -/

theorem inv_start : Inv clk start where
  counts := by
    show 0 % 2 ^ 32 = 0 / clk.ticksPerMs % 2 ^ 32
    rw [Nat.zero_div]
  owed_le := Nat.zero_le 1
  ticking_le := Nat.zero_le 1
  clearing f hf hpc := by
    obtain rfl : f = ⟨.idle, 0⟩ := by simpa [start] using hf
    cases hpc
  storing f hf ms hpc := by
    obtain rfl : f = ⟨.idle, 0⟩ := by simpa [start] using hf
    cases hpc
  masked hpc := by cases hpc
  unmasked f hf := by cases hf
  undisturbed := ⟨fun _ => rfl, trivial⟩
  fits f hf := by
    obtain rfl : f = ⟨.idle, 0⟩ := by simpa [start] using hf
    exact ⟨fun _ => le_rfl, trivial⟩
  inside := trivial
  calls c hc := by cases hc

theorem Inv.pass (h : Inv clk s) {n : ℕ} (hpass : s.cnt clk + n < clk.ticksPerMs) :
    Inv clk { s with ticks := s.ticks + n } := by
  have hle : s.ticks ≤ s.ticks + n := Nat.le_add_right _ _
  refine { h with counts := ?_, fits := ?_, inside := ?_, calls := ?_ }
  · dsimp only
    rw [div_add_of_pass hpass]
    exact h.counts
  · intro f hf
    exact (h.fits f hf).mono hle
  · have hinside := h.inside
    unfold Inside at hinside ⊢
    dsimp only at hinside ⊢
    split at hinside
    · exact hinside
    · obtain ⟨hms, moment, hfrom, hto, hcnt, hsame⟩ := hinside
      refine ⟨hms, moment, hfrom, hto.trans hle, hcnt, fun hp => ?_⟩
      rw [div_add_of_pass hpass]
      exact hsame hp
    · exact hinside
    · trivial
  · intro c hc
    exact ⟨(h.calls c hc).1.trans hle, (h.calls c hc).2⟩

theorem Inv.rollover (h : Inv clk s) (hroll : s.cnt clk + 1 = clk.ticksPerMs) (howed : s.owed = 0) :
    Inv clk { s with ticks := s.ticks + 1, pending := true } := by
  have hle : s.ticks ≤ s.ticks + 1 := Nat.le_succ _
  have hcleared : cleared (s.run :: s.below) = 0 := by
    rw [State.owed_eq] at howed
    omega
  have howed' : State.owed { s with ticks := s.ticks + 1, pending := true } = 1 := by
    rw [State.owed_eq]
    exact congrArg (1 + ·) hcleared
  refine { h with
    counts := ?_, owed_le := howed'.le, clearing := fun _ _ _ => rfl, fits := ?_, inside := ?_,
    calls := ?_ }
  · have hcounts := h.counts
    rw [howed, Nat.add_zero] at hcounts
    rw [howed']
    dsimp only
    rw [div_succ_of_rollover hroll, Nat.add_mod, hcounts, ← Nat.add_mod]
  · intro f hf
    exact (h.fits f hf).mono hle
  · have hinside := h.inside
    unfold Inside at hinside ⊢
    dsimp only at hinside ⊢
    split at hinside
    · exact hinside
    · obtain ⟨hms, moment, hfrom, hto, hcnt, -⟩ := hinside
      exact ⟨hms, moment, hfrom, hto.trans hle, hcnt, fun hp => by cases hp⟩
    · exact ⟨hinside.1, rfl⟩
    · trivial
  · intro c hc
    exact ⟨(h.calls c hc).1.trans hle, (h.calls c hc).2⟩

/-! ### Interrupts, and the code outside of the two functions -/

theorem Inv.preempt (h : Inv clk s) (hmie : s.mie = true) {pc : Pc} (mie : Bool)
    (hin : pc.inMicros = false) (hquiet : pc.hasCleared = false)
    (hticks : pc.isTick = true → ticking (s.run :: s.below) = 0)
    (hclear : pc = .clear → s.pending = true) : Inv clk (s.preempt pc mie) := by
  have hmasked : pc.hasMasked = false := by
    by_contra hm
    rw [Pc.inMicros_of_hasMasked (by simpa using hm)] at hin
    cases hin
  have howed : (s.preempt pc mie).owed = s.owed := by
    rw [State.owed_eq, State.owed_eq]
    simp only [State.preempt, cleared_cons ⟨pc, 0⟩, hquiet, Bool.false_eq_true, if_false,
      Nat.zero_add]
    rfl
  constructor
  · rw [howed]
    exact h.counts
  · rw [howed]
    exact h.owed_le
  · show ticking (⟨pc, 0⟩ :: s.run :: s.below) ≤ 1
    rw [ticking_cons]
    split_ifs with ht
    · rw [hticks ht]
    · rw [Nat.zero_add]
      exact h.ticking_le
  · intro f hf hpc
    rcases List.mem_cons.mp hf with rfl | hf
    · exact hclear hpc
    · exact h.clearing f hf hpc
  · intro f hf ms hpc
    rcases List.mem_cons.mp hf with rfl | hf
    · obtain rfl : pc = .store ms := hpc
      cases hquiet
    · exact h.storing f hf ms hpc
  · intro hm
    exact absurd (hm.symm.trans hmasked) (by decide)
  · intro f hf
    rcases List.mem_cons.mp hf with rfl | hf
    · -- the mask is what keeps a frame that reads from being put aside
      by_contra hm
      rw [h.masked (by simpa using hm)] at hmie
      cases hmie
    · exact h.unmasked f hf
  · exact ⟨fun hc => absurd (hc.symm.trans hin) (by decide), h.undisturbed⟩
  · intro f hf
    rcases List.mem_cons.mp hf with rfl | hf
    · refine ⟨fun hc => absurd (hc.symm.trans hin) (by decide), ?_⟩
      cases pc <;> trivial
    · exact h.fits f hf
  · unfold Inside
    cases pc <;> trivial
  · exact h.calls

theorem Inv.mask (h : Inv clk s) (hidle : s.run.pc = .idle) (mie : Bool) :
    Inv clk { s with mie := mie } :=
  { h with masked := fun hm => by dsimp only at hm; rw [hidle] at hm; cases hm }

theorem Inv.call (h : Inv clk s) (hidle : s.run.pc = .idle)
    (hsettled : ∀ f ∈ s.below, f.pc.hasCleared = false) :
    Inv clk { s with run := ⟨.state, s.ticks⟩ } := by
  have howed : State.owed { s with run := ⟨.state, s.ticks⟩ } = s.owed := by
    rw [State.owed_eq, State.owed_eq]
    simp [hidle, Pc.hasCleared]
  constructor
  · rw [howed]
    exact h.counts
  · rw [howed]
    exact h.owed_le
  · have hle := h.ticking_le
    rw [ticking_cons] at hle ⊢
    simp only [hidle, Pc.isTick] at hle ⊢
    exact hle
  · intro f hf hpc
    rcases List.mem_cons.mp hf with rfl | hf
    · cases hpc
    · exact h.clearing f (List.mem_cons_of_mem _ hf) hpc
  · intro f hf ms hpc
    rcases List.mem_cons.mp hf with rfl | hf
    · cases hpc
    · exact h.storing f (List.mem_cons_of_mem _ hf) ms hpc
  · intro hm
    cases hm
  · exact h.unmasked
  · exact ⟨fun _ => cleared_eq_zero.mpr hsettled, h.undisturbed.2⟩
  · intro f hf
    rcases List.mem_cons.mp hf with rfl | hf
    · exact ⟨fun _ => le_rfl, trivial⟩
    · exact h.fits f (List.mem_cons_of_mem _ hf)
  · trivial
  · exact h.calls

theorem Inv.return (h : Inv clk s) {f : Frame} {below : List Frame} (hbelow : s.below = f :: below)
    (hdone : s.run.pc.hasCleared = false) :
    Inv clk { s with run := f, below := below, mie := true } := by
  have hmem : ∀ g, g ∈ f :: below → g ∈ s.run :: s.below := by
    intro g hg
    rw [hbelow]
    exact List.mem_cons_of_mem _ hg
  have hunmasked : f.pc.hasMasked = false := h.unmasked f (hbelow ▸ List.mem_cons_self)
  have howed : State.owed { s with run := f, below := below, mie := true } = s.owed := by
    rw [State.owed_eq, State.owed_eq, hbelow, cleared_cons s.run, hdone]
    simp
  constructor
  · rw [howed]
    exact h.counts
  · rw [howed]
    exact h.owed_le
  · have hle := h.ticking_le
    rw [ticking_cons, hbelow] at hle
    exact (Nat.le_add_left _ _).trans hle
  · exact fun g hg => h.clearing g (hmem g hg)
  · exact fun g hg => h.storing g (hmem g hg)
  · intro hm
    exact absurd (hm.symm.trans hunmasked) (by decide)
  · intro g hg
    exact h.unmasked g (hbelow ▸ List.mem_cons_of_mem _ hg)
  · have hundisturbed := h.undisturbed.2
    rw [hbelow] at hundisturbed
    exact hundisturbed
  · exact fun g hg => h.fits g (hmem g hg)
  · unfold Inside
    dsimp only
    split
    · rename_i hpc
      rw [hpc] at hunmasked
      cases hunmasked
    · rename_i hpc
      rw [hpc] at hunmasked
      cases hunmasked
    · rename_i hpc
      rw [hpc] at hunmasked
      cases hunmasked
    · trivial
  · exact h.calls

/-! ### Accesses -/

/-- An access of `micros` that leads to another one. -/
theorem Inv.goto (h : Inv clk s) (hin : s.run.pc.inMicros = true) {pc : Pc} {mie : Bool}
    (hpc : pc.inMicros = true) (hmasked : pc.hasMasked = true → mie = false)
    (hfits : Frame.Fits clk s.ticks ⟨pc, s.run.entered⟩)
    (hinside : Inside clk ({ s with mie := mie }.goto pc)) :
    Inv clk ({ s with mie := mie }.goto pc) := by
  have htick := Pc.isTick_of_inMicros hpc
  have hquiet := Pc.hasCleared_of_not_isTick htick
  have htick' := Pc.isTick_of_inMicros hin
  have hquiet' := Pc.hasCleared_of_not_isTick htick'
  have howed : ({ s with mie := mie }.goto pc).owed = s.owed := by
    rw [State.owed_eq, State.owed_eq, cleared_cons s.run, hquiet']
    simp only [State.goto, cleared_cons, hquiet]
    rfl
  constructor
  · rw [howed]
    exact h.counts
  · rw [howed]
    exact h.owed_le
  · have hle := h.ticking_le
    rw [ticking_cons, htick'] at hle
    simpa [State.goto, htick] using hle
  · intro f hf hclear
    rcases List.mem_cons.mp hf with rfl | hf
    · obtain rfl : pc = .clear := hclear
      cases hpc
    · exact h.clearing f (List.mem_cons_of_mem _ hf) hclear
  · intro f hf ms hstore
    rcases List.mem_cons.mp hf with rfl | hf
    · obtain rfl : pc = .store ms := hstore
      cases hpc
    · exact h.storing f (List.mem_cons_of_mem _ hf) ms hstore
  · exact hmasked
  · exact h.unmasked
  · exact ⟨fun _ => h.undisturbed.1 hin, h.undisturbed.2⟩
  · intro f hf
    rcases List.mem_cons.mp hf with rfl | hf
    · exact hfits
    · exact h.fits f (List.mem_cons_of_mem _ hf)
  · exact hinside
  · exact h.calls

/-- The running frame goes on outside of `micros`: what the mask protects does not matter, and the
frames below have read what they have. -/
theorem Inv.outside (h : Inv clk s) (hticks : s'.ticks = s.ticks) (hbelow : s'.below = s.below)
    (hin : s'.run.pc.inMicros = false)
    (hcounts : (s'.millis + s'.owed) % 2 ^ 32 = (s.millis + s.owed) % 2 ^ 32)
    (howed : s'.owed ≤ s.owed) (hticking : ticking (s'.run :: s.below) ≤ 1)
    (hclearing : ∀ f ∈ s'.run :: s.below, f.pc = .clear → s'.pending = true)
    (hstoring : ∀ f ∈ s'.run :: s.below, ∀ ms, f.pc = .store ms → ms = s'.millis)
    (hcalls : ∀ c ∈ s'.calls, c.left ≤ s.ticks ∧ c.Exact clk) : Inv clk s' := by
  have hnot : ¬ s'.run.pc.inMicros = true := by simp [hin]
  constructor
  · rw [hcounts, hticks]
    exact h.counts
  · exact howed.trans h.owed_le
  · rw [hbelow]
    exact hticking
  · rw [hbelow]
    exact hclearing
  · rw [hbelow]
    exact hstoring
  · exact fun hm => absurd (Pc.inMicros_of_hasMasked hm) hnot
  · rw [hbelow]
    exact h.unmasked
  · rw [hbelow]
    exact ⟨fun hc => absurd hc hnot, h.undisturbed.2⟩
  · rw [hbelow, hticks]
    intro f hf
    rcases List.mem_cons.mp hf with rfl | hf
    · refine ⟨fun hc => absurd hc hnot, ?_⟩
      split <;> first | (rename_i hpc; rw [hpc] at hin; cases hin) | trivial
    · exact h.fits f (List.mem_cons_of_mem _ hf)
  · unfold Inside
    split <;> first | (rename_i hpc; rw [hpc] at hin; cases hin) | trivial
  · rw [hticks]
    exact hcalls

/-- `micros` returns. -/
theorem Inv.leave (h : Inv clk s) {ms cnt : ℕ} (hpc : s.run.pc = .result ms cnt) :
    Inv clk { s.goto .idle with
      calls := ⟨s.run.entered, s.ticks, microsValue clk ms cnt⟩ :: s.calls } := by
  have howed : State.owed { s.goto .idle with
      calls := ⟨s.run.entered, s.ticks, microsValue clk ms cnt⟩ :: s.calls } = s.owed := by
    rw [State.owed_eq, State.owed_eq, cleared_cons s.run, hpc]
    simp only [State.goto, cleared_cons]
    rfl
  have hexact : Exact clk s.run.entered s.ticks ms cnt := by
    have hfits := (h.fits s.run List.mem_cons_self).2
    rw [hpc] at hfits
    exact hfits
  refine h.outside rfl rfl rfl ?_ howed.le ?_ ?_ ?_ ?_
  · rw [howed]
    rfl
  · have hle := h.ticking_le
    rw [ticking_cons, hpc] at hle
    simpa [State.goto, Pc.isTick] using hle
  · intro f hf hclear
    rcases List.mem_cons.mp hf with rfl | hf
    · cases hclear
    · exact h.clearing f (List.mem_cons_of_mem _ hf) hclear
  · intro f hf ms hstore
    rcases List.mem_cons.mp hf with rfl | hf
    · cases hstore
    · exact h.storing f (List.mem_cons_of_mem _ hf) ms hstore
  · intro c hc
    rcases List.mem_cons.mp hc with rfl | hc
    · exact ⟨le_rfl, hexact.value⟩
    · exact h.calls c hc

/-- Below a tick handler that runs there is no other. -/
theorem Inv.no_tick_below (h : Inv clk s) (htick : s.run.pc.isTick = true) :
    ∀ f ∈ s.below, f.pc.isTick = false := by
  have hle := h.ticking_le
  rw [ticking_cons, if_pos htick] at hle
  exact ticking_eq_zero.mp (by omega)

/-- The tick handler clears the bit: from here on it owes the start itself. -/
theorem Inv.clear (h : Inv clk s) (hpc : s.run.pc = .clear) :
    Inv clk ({ s with pending := false }.goto .load) := by
  have hpending : s.pending = true := h.clearing s.run List.mem_cons_self hpc
  have hnone := h.no_tick_below (by rw [hpc]; rfl)
  have howed : ({ s with pending := false }.goto .load).owed = s.owed := by
    rw [State.owed_eq, State.owed_eq, cleared_cons s.run, hpc, hpending]
    simp only [State.goto, cleared_cons, Pc.hasCleared]
    simp
  refine h.outside rfl rfl rfl ?_ howed.le ?_ ?_ ?_ ?_
  · rw [howed]
    rfl
  · show ticking (⟨.load, s.run.entered⟩ :: s.below) ≤ 1
    rw [ticking_cons, ticking_eq_zero.mpr hnone]
    exact Nat.le_refl 1
  · intro f hf hclear
    rcases List.mem_cons.mp hf with rfl | hf
    · cases hclear
    · have hno := hnone f hf
      rw [hclear] at hno
      cases hno
  · intro f hf ms hstore
    rcases List.mem_cons.mp hf with rfl | hf
    · cases hstore
    · exact h.storing f (List.mem_cons_of_mem _ hf) ms hstore
  · exact h.calls

theorem Inv.load (h : Inv clk s) (hpc : s.run.pc = .load) : Inv clk (s.goto (.store s.millis)) := by
  have howed : (s.goto (.store s.millis)).owed = s.owed := by
    rw [State.owed_eq, State.owed_eq, cleared_cons s.run, hpc]
    simp only [State.goto, cleared_cons]
    rfl
  refine h.outside rfl rfl rfl ?_ howed.le ?_ ?_ ?_ ?_
  · rw [howed]
    rfl
  · have hle := h.ticking_le
    rw [ticking_cons, hpc] at hle
    simpa [State.goto, Pc.isTick] using hle
  · intro f hf hclear
    rcases List.mem_cons.mp hf with rfl | hf
    · cases hclear
    · exact h.clearing f (List.mem_cons_of_mem _ hf) hclear
  · intro f hf ms hstore
    rcases List.mem_cons.mp hf with rfl | hf
    · exact (Pc.store.inj hstore).symm
    · exact h.storing f (List.mem_cons_of_mem _ hf) ms hstore
  · exact h.calls

/-- The tick handler stores the count, and owes no longer. -/
theorem Inv.store (h : Inv clk s) {ms : ℕ} (hpc : s.run.pc = .store ms) :
    Inv clk ({ s with millis := (ms + 1) % 2 ^ 32 }.goto .exit) := by
  obtain rfl : ms = s.millis := h.storing s.run List.mem_cons_self ms hpc
  have hnone := h.no_tick_below (by rw [hpc]; rfl)
  have howed : s.owed = ({ s with millis := (s.millis + 1) % 2 ^ 32 }.goto .exit).owed + 1 := by
    have hbefore : s.owed = (if s.pending then 1 else 0) + (1 + cleared s.below) := by
      rw [State.owed_eq, cleared_cons, hpc]
      rfl
    have hafter : ({ s with millis := (s.millis + 1) % 2 ^ 32 }.goto .exit).owed
        = (if s.pending then 1 else 0) + (0 + cleared s.below) := by
      rw [State.owed_eq, State.goto, cleared_cons]
      rfl
    omega
  refine h.outside rfl rfl rfl ?_ (by omega) ?_ ?_ ?_ h.calls
  · rw [howed]
    show ((s.millis + 1) % 2 ^ 32 + _) % 2 ^ 32 = _
    rw [Nat.mod_add_mod]
    congr 1
    omega
  · show ticking (⟨.exit, s.run.entered⟩ :: s.below) ≤ 1
    rw [ticking_cons, ticking_eq_zero.mpr hnone]
    exact Nat.le_refl 1
  · intro f hf hclear
    rcases List.mem_cons.mp hf with rfl | hf
    · cases hclear
    · exact h.clearing f (List.mem_cons_of_mem _ hf) hclear
  · intro f hf ms hstore
    rcases List.mem_cons.mp hf with rfl | hf
    · cases hstore
    · have hno := hnone f hf
      rw [hstore] at hno
      cases hno

/-- Every access keeps the invariant. -/
theorem Inv.access (h : Inv clk s) (hs : s.access clk = some s') : Inv clk s' := by
  have hrun := h.fits s.run List.mem_cons_self
  have hinside := h.inside
  unfold State.access at hs
  unfold Frame.Fits at hrun
  unfold Inside at hinside
  cases hpc : s.run.pc with
  | idle => rw [hpc] at hs; cases hs
  | exit => rw [hpc] at hs; cases hs
  | state =>
    rw [hpc] at hs hrun
    obtain rfl := Option.some.inj hs
    have hin : s.run.pc.inMicros = true := by rw [hpc]; rfl
    exact h.goto hin rfl (fun hm => by cases hm) ⟨hrun.1, trivial⟩ trivial
  | disable state =>
    rw [hpc] at hs hrun
    obtain rfl := Option.some.inj hs
    have hin : s.run.pc.inMicros = true := by rw [hpc]; rfl
    exact h.goto hin rfl (fun _ => rfl) ⟨hrun.1, trivial⟩ trivial
  | millis state =>
    have hmie := h.masked (by rw [hpc]; rfl)
    rw [hpc] at hs hrun
    obtain rfl := Option.some.inj hs
    have hin : s.run.pc.inMicros = true := by rw [hpc]; rfl
    exact h.goto hin rfl (fun _ => hmie) ⟨hrun.1, trivial⟩ rfl
  | cnt state ms =>
    have hmie := h.masked (by rw [hpc]; rfl)
    rw [hpc] at hs hrun hinside
    obtain rfl := Option.some.inj hs
    have hin : s.run.pc.inMicros = true := by rw [hpc]; rfl
    exact h.goto hin rfl (fun _ => hmie) ⟨hrun.1, trivial⟩
      ⟨hinside, s.ticks, hrun.1 rfl, le_rfl, rfl, fun _ => rfl⟩
  | isr state ms cnt =>
    have hmie := h.masked (by rw [hpc]; rfl)
    have hin : s.run.pc.inMicros = true := by rw [hpc]; rfl
    have howed := h.owed_of_inMicros hin
    rw [hpc] at hs hrun hinside
    obtain ⟨rfl, moment, hfrom, hto, hcnt, hsame⟩ := hinside
    obtain rfl := Option.some.inj hs
    cases hpending : s.pending with
    | true =>
      rw [if_pos rfl]
      exact h.goto hin rfl (fun _ => hmie) ⟨hrun.1, trivial⟩ ⟨rfl, hpending⟩
    | false =>
      -- the counter has not started over since it was read
      rw [if_neg (by decide)]
      have hcounts := h.counts
      rw [howed, hpending, if_neg (by decide), Nat.add_zero, ← hsame hpending] at hcounts
      exact h.goto hin rfl (fun _ => hmie)
        ⟨hrun.1, ⟨moment, hfrom, hto, hcnt, hcounts⟩⟩ trivial
  | recnt state ms =>
    have hmie := h.masked (by rw [hpc]; rfl)
    have hin : s.run.pc.inMicros = true := by rw [hpc]; rfl
    have howed := h.owed_of_inMicros hin
    rw [hpc] at hs hrun hinside
    obtain ⟨rfl, hpending⟩ := hinside
    obtain rfl := Option.some.inj hs
    -- the start that the bit shows is the last one
    have hcounts := h.counts
    rw [howed, hpending, if_pos rfl] at hcounts
    have hexact : Exact clk s.run.entered s.ticks ((s.millis + 1) % 2 ^ 32) (s.cnt clk) :=
      ⟨s.ticks, hrun.1 rfl, le_rfl, rfl, by rw [Nat.mod_mod, hcounts]⟩
    exact h.goto hin rfl (fun _ => hmie) ⟨hrun.1, hexact⟩ trivial
  | enable state ms cnt =>
    rw [hpc] at hs hrun
    obtain rfl := Option.some.inj hs
    have hin : s.run.pc.inMicros = true := by rw [hpc]; rfl
    exact h.goto hin rfl (fun hm => by cases hm) ⟨hrun.1, hrun.2⟩ trivial
  | result ms cnt =>
    rw [hpc] at hs
    obtain rfl := Option.some.inj hs
    exact h.leave hpc
  | clear =>
    rw [hpc] at hs
    obtain rfl := Option.some.inj hs
    exact h.clear hpc
  | load =>
    rw [hpc] at hs
    obtain rfl := Option.some.inj hs
    exact h.load hpc
  | store ms =>
    rw [hpc] at hs
    obtain rfl := Option.some.inj hs
    exact h.store hpc

/-! ### Runs -/

open Machine

/-- No call of `micros` is made above a tick handler that owes a start of the counter. -/
def settled (s : State) : Action → Prop
  | .call => ∀ f ∈ s.below, f.pc.hasCleared = false
  | _ => True

instance (s : State) : (a : Action) → Decidable (settled s a)
  | .call => inferInstanceAs (Decidable (∀ f ∈ s.below, f.pc.hasCleared = false))
  | .pass _ | .rollover | .tick _ | .interrupt _ | .mask _ | .access | .return =>
    inferInstanceAs (Decidable True)

/-- **Step lemma**. -/
theorem Inv.step (h : Inv clk s) {a : Action} (hsettled : settled s a)
    (hs : (machine clk).step s a = some s') : Inv clk s' := by
  simp only [machine, Time.step] at hs
  cases a with
  | pass n =>
    dsimp only at hs
    split_ifs at hs with hpass
    obtain rfl := Option.some.inj hs
    exact h.pass hpass
  | rollover =>
    dsimp only at hs
    split_ifs at hs with hroll
    obtain rfl := Option.some.inj hs
    exact h.rollover hroll.1 hroll.2
  | tick mie =>
    dsimp only at hs
    split_ifs at hs with htick
    obtain rfl := Option.some.inj hs
    obtain ⟨hmie, hpending, hnone⟩ := htick
    refine h.preempt hmie mie rfl rfl (fun _ => ?_) (fun _ => hpending)
    exact ticking_eq_zero.mpr fun f hf => by simpa using hnone f hf
  | interrupt mie =>
    dsimp only at hs
    split_ifs at hs with hmie
    obtain rfl := Option.some.inj hs
    exact h.preempt hmie mie rfl rfl (fun ht => by cases ht) (fun hc => by cases hc)
  | mask mie =>
    dsimp only at hs
    split_ifs at hs with hidle
    obtain rfl := Option.some.inj hs
    exact h.mask hidle mie
  | call =>
    dsimp only at hs
    split_ifs at hs with hidle
    obtain rfl := Option.some.inj hs
    exact h.call hidle hsettled
  | access => exact h.access hs
  | «return» =>
    dsimp only at hs
    rcases hbelow : s.below with _ | ⟨f, below⟩
    · rw [hbelow] at hs
      cases hs
    · rw [hbelow] at hs
      dsimp only at hs
      split_ifs at hs with hdone
      obtain rfl := Option.some.inj hs
      refine h.return hbelow ?_
      rcases hdone with hidle | hexit
      · rw [hidle]
        rfl
      · rw [hexit]
        rfl

/-- **Run lemma**. -/
theorem inv_of_reachable (h : (machine clk).Reachable settled s) : Inv clk s :=
  invariant (fun _ hs => hs ▸ inv_start) (fun _ _ _ hs hg hst => hs.step hg hst) h

/-- A call that begins after another has ended does not return less, unless the microseconds reach
a multiple of `2 ^ 32` from the beginning of the one to the end of the other. -/
def MonotoneCalls (clk : Clock) (s : State) : Prop :=
  ∀ c ∈ s.calls, ∀ c' ∈ s.calls, c.left ≤ c'.entered →
    c.entered / clk.ticksPerUs / 2 ^ 32 = c'.left / clk.ticksPerUs / 2 ^ 32 → c.value ≤ c'.value

/-- Values of moments in their order are in their order. -/
theorem Call.Exact.value_le {c c' : Call} (h : c.Exact clk) (h' : c'.Exact clk)
    (hafter : c.left ≤ c'.entered)
    (hwrap : c.entered / clk.ticksPerUs / 2 ^ 32 = c'.left / clk.ticksPerUs / 2 ^ 32) :
    c.value ≤ c'.value := by
  obtain ⟨moment, hfrom, hto, hvalue⟩ := h
  obtain ⟨moment', hfrom', hto', hvalue'⟩ := h'
  have h₁ : c.entered / clk.ticksPerUs ≤ moment / clk.ticksPerUs := Nat.div_le_div_right hfrom
  have h₂ : moment / clk.ticksPerUs ≤ moment' / clk.ticksPerUs := Nat.div_le_div_right (by omega)
  have h₃ : moment' / clk.ticksPerUs ≤ c'.left / clk.ticksPerUs := Nat.div_le_div_right hto'
  rw [hvalue, hvalue']
  omega

/-- **`micros` does not go back** in any run whose calls are all `settled`. -/
theorem monotone_of_reachable (h : (machine clk).Reachable settled s) : MonotoneCalls clk s := by
  intro c hc c' hc' hafter hwrap
  have hinv := inv_of_reachable h
  exact (hinv.calls c hc).2.value_le (hinv.calls c' hc').2 hafter hwrap

/-- One call of `micros` while the bit is clear. -/
def callOnce : List Action := .call :: List.replicate 7 .access

/-- A call shortly before the counter starts over, and one in a handler that has preempted the tick
handler after its store. -/
def storeFirst : List Action :=
  .pass 99999 :: callOnce ++ [.rollover, .tick true, .access, .access, .access, .interrupt true] ++
    callOnce

theorem monotone_of_reachable_storeFirst :
    ∃ s, (machine nominal).run settled start storeFirst = some s ∧
      s.calls.map Call.value = [1000, 999] ∧ MonotoneCalls nominal s := by
  have hrun : (((machine nominal).run settled start storeFirst).map fun s =>
      s.calls.map Call.value) = some [1000, 999] := by decide
  obtain ⟨s, hs, hvalues⟩ := Option.map_eq_some_iff.mp hrun
  exact ⟨s, hs, hvalues, monotone_of_reachable (reachable_of_run (.init rfl) hs)⟩

/-- The handler comes between the clearing and the store. -/
def clearFirst : List Action :=
  .pass 99999 :: callOnce ++ [.rollover, .tick true, .access, .interrupt true] ++ callOnce

/-- `micros` goes back from 999 to 0 in `clearFirst`. -/
theorem not_monotone_of_reachable :
    ¬ ∀ (clk : Clock) (s : State), (machine clk).Reachable anyStep s → MonotoneCalls clk s := by
  intro hall
  have hrun : (((machine nominal).run anyStep start clearFirst).map State.calls) =
      some [⟨100000, 100000, 0⟩, ⟨99999, 99999, 999⟩] := by decide
  obtain ⟨s, hs, hcalls⟩ := Option.map_eq_some_iff.mp hrun
  have hback := hall nominal s (reachable_of_run (.init rfl) hs) ⟨99999, 99999, 999⟩
    (by simp [hcalls]) ⟨100000, 100000, 0⟩ (by simp [hcalls]) (by decide) (by decide)
  exact absurd hback (by decide)

/-- A call that is not settled is a millisecond behind. -/
theorem exists_behind (h : Inv clk s) (hidle : s.run.pc = .idle)
    (howes : ∃ f ∈ s.below, f.pc.hasCleared = true) :
    ∃ s' ms, (machine clk).run anyStep s callOnce = some s' ∧
      s'.calls = ⟨s.ticks, s.ticks, microsValue clk ms (s.cnt clk)⟩ :: s.calls ∧
      (ms + 1) % 2 ^ 32 = s.ticks / clk.ticksPerMs % 2 ^ 32 := by
  have hcleared : cleared s.below ≠ 0 := by
    intro hzero
    obtain ⟨f, hf, howe⟩ := howes
    rw [cleared_eq_zero.mp hzero f hf] at howe
    cases howe
  have howed := h.owed_le
  have hcounts := h.counts
  rw [State.owed_eq, cleared_cons, hidle] at howed hcounts
  have hpending : s.pending = false := by
    by_contra hp
    rw [if_pos (by simpa using hp)] at howed
    omega
  rw [hpending] at howed hcounts
  have hone : cleared s.below = 1 := by
    simp only [Bool.false_eq_true, if_false, Pc.hasCleared, Nat.zero_add] at howed
    omega
  rw [hone] at hcounts
  refine ⟨{ s with
    run := ⟨.idle, s.ticks⟩
    calls := ⟨s.ticks, s.ticks, microsValue clk s.millis (s.cnt clk)⟩ :: s.calls },
    s.millis, ?_, rfl, hcounts⟩
  simp [callOnce, Machine.run, machine, Time.step, State.access, State.goto, State.cnt, anyStep,
    hidle, hpending]

end Ch32h4.Time
