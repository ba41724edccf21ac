import Ch32h4.Xcore.Mutex

/-!
# The recursive mutex excludes

`excludes_of_reachable`: a core that holds the lock has the semaphore, and the semaphore goes back
exactly with the last unlock, in every run whose steps are `orderly`.  Three kinds of step are not:

* a handler calls one of the functions while the code it preempted spins for the semaphore.  The
  depth says one already, so the handler is let in without the semaphore
  (`exists_not_holding_of_spins`, `not_excludes_of_reachable`);
* a handler returns into an unfinished call with more locks held, or fewer, than when it came;
* a core that holds the lock 255 times takes it once more, and the depth wraps.

What the invariant says of a core depends on its unfinished calls.  A frame that spins for the
semaphore has raised the depth and does not hold yet; a frame that has taken the semaphore in
`try_lock_rec`, or is about to release it, has the semaphore with a depth of zero; and when there
is no such frame the depth is the number of locks held.
-/

namespace Ch32h4.Xcore.Mutex

open Machine

/-! ### The invariant of a core -/

/-- The position waits for the semaphore. -/
def Pc.spins : Pc → Bool
  | .lockTake => true
  | _ => false

/-- At this position the semaphore has been taken, and the depth does not say so. -/
def Pc.hasTaken : Pc → Bool
  | .trySet | .release => true
  | _ => false

/-- What a frame has learnt, while the core holds `held` locks. -/
def Pc.Fits (held : ℕ) : Pc → Prop
  | .idle | .unlockLoad => True
  | .lockLoad | .tryLoad => held < 255
  | .lockStore depth => depth = held ∧ held < 255
  | .lockTake | .tryTake | .trySet | .release => held = 0
  | .tryReload => 0 < held ∧ held < 255
  | .tryStore depth => depth = held ∧ 0 < held ∧ held < 255
  | .unlockReload => 0 < held
  | .unlockStore depth => depth = held ∧ 0 < held

/-- Some frame spins. -/
def Spins (l : List Frame) : Prop := ∃ f ∈ l, f.pc.spins = true

/-- Some frame has taken the semaphore. -/
def HasTaken (l : List Frame) : Prop := ∃ f ∈ l, f.pc.hasTaken = true

/-- Each frame fits the number of locks held when it was put aside; no frame above one that spins
is in a call, and at most one has taken the semaphore. -/
def Fits : ℕ → List Frame → Prop
  | _, [] => True
  | held, f :: l =>
    f.pc.Fits held ∧ (Spins l → f.pc = .idle) ∧ (HasTaken l → f.pc.hasTaken = false) ∧
      Fits f.base l

/-- The invariant of one core; `own` says that it has the semaphore. -/
structure CoreInv (own : Prop) (x : CoreState) : Prop where
  fits : Fits x.held (x.run :: x.below)
  le : x.held ≤ 255
  resting : ¬ Spins (x.run :: x.below) → ¬ HasTaken (x.run :: x.below) →
    x.depth = x.held ∧ (own ↔ 0 < x.held)
  taken : HasTaken (x.run :: x.below) →
    x.held = 0 ∧ own ∧ (¬ Spins (x.run :: x.below) → x.depth = 0)
  spinning : Spins (x.run :: x.below) →
    x.held = 0 ∧ x.depth = 1 ∧ (¬ HasTaken (x.run :: x.below) → ¬ own)

@[simp] theorem spins_cons (f : Frame) (l : List Frame) :
    Spins (f :: l) ↔ f.pc.spins = true ∨ Spins l := by
  simp [Spins]

@[simp] theorem hasTaken_cons (f : Frame) (l : List Frame) :
    HasTaken (f :: l) ↔ f.pc.hasTaken = true ∨ HasTaken l := by
  simp [HasTaken]

variable {own : Prop} {x : CoreState}

/-- A core that holds the lock has the semaphore. -/
theorem CoreInv.own_of_held (h : CoreInv own x) (hpos : 0 < x.held) : own := by
  have hspins : ¬ Spins (x.run :: x.below) := fun hs => by
    rw [(h.spinning hs).1] at hpos
    exact absurd hpos (Nat.lt_irrefl 0)
  have htaken : ¬ HasTaken (x.run :: x.below) := fun ht => by
    rw [(h.taken ht).1] at hpos
    exact absurd hpos (Nat.lt_irrefl 0)
  exact (h.resting hspins htaken).2.mpr hpos

/-- A core outside of the three functions that has the semaphore holds the lock. -/
theorem CoreInv.held_of_own (h : CoreInv own x) (hidle : ∀ f ∈ x.run :: x.below, f.pc = .idle)
    (hown : own) : 0 < x.held := by
  have hspins : ¬ Spins (x.run :: x.below) := by
    rintro ⟨f, hf, hs⟩
    rw [hidle f hf] at hs
    cases hs
  have htaken : ¬ HasTaken (x.run :: x.below) := by
    rintro ⟨f, hf, ht⟩
    rw [hidle f hf] at ht
    cases ht
  exact (h.resting hspins htaken).2.mp hown

section

variable {c : Core} {owner : Option Core} {depth held base : ℕ} {pc : Pc} {below : List Frame}

/-- The invariant of a core whose running frame is at `pc` and above no frame that spins. -/
theorem coreInv_iff (hquiet : ¬ Spins below) (hbelow : Fits base below) :
    CoreInv own { depth := depth, held := held, run := ⟨pc, base⟩, below := below } ↔
      pc.Fits held ∧ held ≤ 255 ∧ (HasTaken below → pc.hasTaken = false) ∧
        (pc.spins = false → pc.hasTaken = false → ¬ HasTaken below →
          depth = held ∧ (own ↔ 0 < held)) ∧
        (pc.hasTaken = true ∨ HasTaken below → held = 0 ∧ own ∧ (pc.spins = false → depth = 0)) ∧
        (pc.spins = true → held = 0 ∧ depth = 1 ∧ (¬ HasTaken below → ¬ own)) := by
  have htook : pc.spins = true → pc.hasTaken = false := by cases pc <;> simp [Pc.spins, Pc.hasTaken]
  constructor
  · intro h
    obtain ⟨⟨hfits, -, htake, -⟩, hle, hrest, htaken, hspinning⟩ := h
    simp only [spins_cons, hasTaken_cons, hquiet, or_false] at hrest htaken hspinning
    refine ⟨hfits, hle, htake, fun hs ht hb => hrest (by simp [hs]) (by simp [ht, hb]),
      fun ht => ?_,
      fun hs => ?_⟩
    · obtain ⟨hzero, hown, hdepth⟩ := htaken ht
      exact ⟨hzero, hown, fun hs => hdepth (by simp [hs])⟩
    · obtain ⟨hzero, hone, hnot⟩ := hspinning hs
      exact ⟨hzero, hone, fun hb => hnot (by simp [htook hs, hb])⟩
  · rintro ⟨hfits, hle, htake, hrest, htaken, hspinning⟩
    constructor
    · exact ⟨hfits, fun hs => absurd hs hquiet, htake, hbelow⟩
    · exact hle
    · simpa [hquiet] using hrest
    · simpa [hquiet] using htaken
    · intro hs
      have hs' : pc.spins = true := by simpa [hquiet] using hs
      simpa [htook hs'] using hspinning hs'

/-- An access above a frame that has taken the semaphore: the depth is zero, or the frame spins
for good. -/
theorem CoreInv.access_above_taken
    (h : CoreInv (owner = some c) { depth := depth, held := held, run := ⟨pc, base⟩, below := below })
    (hquiet : ¬ Spins below) (hbelow : Fits base below) (ht : HasTaken below) :
    CoreInv ((CoreState.access c ⟨depth, held, ⟨pc, base⟩, below⟩ owner).2 = some c)
      (CoreState.access c ⟨depth, held, ⟨pc, base⟩, below⟩ owner).1 := by
  rw [coreInv_iff hquiet hbelow] at h
  obtain ⟨hfits, -, htake, -, htaken, hspinning⟩ := h
  obtain ⟨rfl, rfl, hdepth⟩ := htaken (.inr ht)
  cases pc <;>
    simp_all [CoreState.access, CoreState.goto, coreInv_iff hquiet hbelow, Pc.Fits, Pc.spins,
      Pc.hasTaken]

/-- An access above no frame that has taken the semaphore. -/
theorem CoreInv.access_of_not_taken
    (h : CoreInv (owner = some c) { depth := depth, held := held, run := ⟨pc, base⟩, below := below })
    (hquiet : ¬ Spins below) (hbelow : Fits base below) (ht : ¬ HasTaken below) :
    CoreInv ((CoreState.access c ⟨depth, held, ⟨pc, base⟩, below⟩ owner).2 = some c)
      (CoreState.access c ⟨depth, held, ⟨pc, base⟩, below⟩ owner).1 := by
  rw [coreInv_iff hquiet hbelow] at h
  obtain ⟨hfits, hle, -, hrest, htaken, hspinning⟩ := h
  have htook : pc.hasTaken = true → held = 0 ∧ owner = some c ∧ depth = 0 := by
    intro hp
    obtain ⟨hzero, hown, hdepth⟩ := htaken (.inl hp)
    refine ⟨hzero, hown, hdepth ?_⟩
    cases pc <;> first | rfl | cases hp
  have hquiet' : pc.spins = false → pc.hasTaken = false →
      depth = held ∧ (owner = some c ↔ 0 < held) := fun hs hp => hrest hs hp ht
  cases pc with
  | lockTake =>
    -- the depth has said one since the store, and is right once the semaphore has been taken
    obtain ⟨rfl, rfl, -⟩ := hspinning rfl
    rw [CoreState.access]
    dsimp only
    split_ifs with hfree
    · simp [CoreState.goto, coreInv_iff hquiet hbelow, Pc.Fits, Pc.spins, Pc.hasTaken, ht]
    · have hother := (hspinning rfl).2.2 ht
      simp [coreInv_iff hquiet hbelow, Pc.Fits, Pc.spins, Pc.hasTaken, ht, hother]
  | trySet =>
    obtain ⟨rfl, hown, rfl⟩ := htook rfl
    simp [CoreState.access, CoreState.goto, coreInv_iff hquiet hbelow, Pc.Fits, Pc.spins,
      Pc.hasTaken, ht, hown]
  | release =>
    obtain ⟨rfl, hown, rfl⟩ := htook rfl
    simp [CoreState.access, CoreState.goto, coreInv_iff hquiet hbelow, Pc.Fits, Pc.spins,
      Pc.hasTaken, ht, hown]
  | tryTake =>
    obtain ⟨rfl, hown⟩ := hquiet' rfl rfl
    obtain rfl : depth = 0 := hfits
    have hother : owner ≠ some c := fun ho => absurd (hown.mp ho) (Nat.lt_irrefl 0)
    rw [CoreState.access]
    dsimp only
    split_ifs with hfree <;>
      simp [CoreState.goto, coreInv_iff hquiet hbelow, Pc.Fits, Pc.spins, Pc.hasTaken, ht, hother]
  | unlockStore v =>
    -- the last lock: the depth is zero before the semaphore goes back
    obtain ⟨rfl, hown⟩ := hquiet' rfl rfl
    obtain ⟨rfl, hpos⟩ := hfits
    have hmod : (v + 255) % 256 = v - 1 := by omega
    simp only [CoreState.access, hmod]
    by_cases hone : v = 1
    · subst hone
      simp [CoreState.goto, coreInv_iff hquiet hbelow, Pc.Fits, Pc.spins, Pc.hasTaken, ht,
        hown.mpr hpos]
    · have hne : v - 1 ≠ 0 := by omega
      have hpos' : 0 < v - 1 := by omega
      simp [CoreState.goto, coreInv_iff hquiet hbelow, Pc.Fits, Pc.spins, Pc.hasTaken, ht, hne,
        hown.mpr hpos, hpos']
      omega
  | idle => exact (coreInv_iff hquiet hbelow).mpr ⟨hfits, hle, fun hb => absurd hb ht, hrest,
      htaken, hspinning⟩
  | lockStore v =>
    obtain ⟨rfl, hown⟩ := hquiet' rfl rfl
    obtain ⟨rfl, hlt⟩ := hfits
    have hmod : (v + 1) % 256 = v + 1 := by omega
    simp only [CoreState.access, hmod]
    split_ifs with hv
    · have hpos : 0 < v := Nat.pos_of_ne_zero hv
      have hle' : v + 1 ≤ 255 := hlt
      simp [CoreState.goto, coreInv_iff hquiet hbelow, Pc.Fits, Pc.spins, Pc.hasTaken, ht,
        hown.mpr hpos, hle']
    · obtain rfl : v = 0 := by simpa using hv
      have hother : owner ≠ some c := fun ho => absurd (hown.mp ho) (Nat.lt_irrefl 0)
      simp [CoreState.goto, coreInv_iff hquiet hbelow, Pc.Fits, Pc.spins, Pc.hasTaken, ht, hother]
  | tryStore v =>
    obtain ⟨rfl, hown⟩ := hquiet' rfl rfl
    obtain ⟨rfl, hpos, hlt⟩ := hfits
    have hmod : (v + 1) % 256 = v + 1 := by omega
    have hle' : v + 1 ≤ 255 := hlt
    simp [CoreState.access, CoreState.goto, coreInv_iff hquiet hbelow, Pc.Fits, Pc.spins,
      Pc.hasTaken, ht, hmod, hown.mpr hpos, hle']
  | unlockLoad =>
    obtain ⟨rfl, hown⟩ := hquiet' rfl rfl
    rw [CoreState.access]
    dsimp only
    split_ifs with hzero
    · subst hzero
      simp [CoreState.goto, coreInv_iff hquiet hbelow, Pc.Fits, Pc.spins, Pc.hasTaken, ht, hown]
    · have hpos : 0 < depth := Nat.pos_of_ne_zero hzero
      simp [CoreState.goto, coreInv_iff hquiet hbelow, Pc.Fits, Pc.spins, Pc.hasTaken, ht, hown,
        hpos, hle]
  | tryLoad =>
    obtain ⟨rfl, hown⟩ := hquiet' rfl rfl
    have hlt : depth < 255 := hfits
    rw [CoreState.access]
    dsimp only
    split_ifs with hzero
    · have hpos : 0 < depth := Nat.pos_of_ne_zero hzero
      simp [CoreState.goto, coreInv_iff hquiet hbelow, Pc.Fits, Pc.spins, Pc.hasTaken, ht, hown,
        hpos, hlt, hle]
    · obtain rfl : depth = 0 := by simpa using hzero
      simp [CoreState.goto, coreInv_iff hquiet hbelow, Pc.Fits, Pc.spins, Pc.hasTaken, ht, hown]
  | lockLoad | tryReload | unlockReload =>
    -- a load: the frame goes on with the depth, which is the number of locks held
    obtain ⟨rfl, hown⟩ := hquiet' rfl rfl
    simp_all [CoreState.access, CoreState.goto, coreInv_iff hquiet hbelow, Pc.Fits, Pc.spins,
      Pc.hasTaken]

end

/-- **One access** keeps the invariant of its core. -/
theorem CoreInv.access {c : Core} {owner : Option Core} (h : CoreInv (owner = some c) x)
    (hpc : x.run.pc ≠ .idle) :
    CoreInv ((x.access c owner).2 = some c) (x.access c owner).1 := by
  obtain ⟨depth, held, ⟨pc, base⟩, below⟩ := x
  obtain ⟨-, hspin, -, hbelow⟩ := h.fits
  have hquiet : ¬ Spins below := fun hs => hpc (hspin hs)
  by_cases ht : HasTaken below
  · exact h.access_above_taken hquiet hbelow ht
  · exact h.access_of_not_taken hquiet hbelow ht

/-- An access moves the semaphore only to its core or from it. -/
theorem access_owner (c : Core) (x : CoreState) (owner : Option Core) {c' : Core} (hne : c' ≠ c) :
    (x.access c owner).2 = some c' ↔ owner = some c' := by
  obtain ⟨depth, held, ⟨pc, base⟩, below⟩ := x
  cases pc <;> simp only [CoreState.access] <;> split_ifs <;> simp_all [eq_comm]

/-- The semaphore is given back only by `ch32h4_mutex_unlock`. -/
theorem access_release {c : Core} {owner : Option Core} (ho : owner = some c)
    (hno : (x.access c owner).2 ≠ some c) : x.run.pc = .release := by
  obtain ⟨depth, held, ⟨pc, base⟩, below⟩ := x
  subst ho
  cases pc <;> simp [CoreState.access] at hno ⊢ <;> split_ifs at hno <;> simp_all

/-! ### The two cores -/

/-- The steps that keep the invariant: no call is made above a frame that spins, a lock is not
taken for the 256th time, and a handler returns into a call with as many locks as it found. -/
def orderly (s : State) : Action → Prop
  | .call c op => (∀ f ∈ (s.core c).below, f.pc.spins = false) ∧
      (op ≠ .unlock → (s.core c).held < 255)
  | .return c => ∀ f ∈ (s.core c).below.head?, f.pc ≠ .idle →
      (s.core c).held = (s.core c).run.base
  | _ => True

instance (s : State) : ∀ a, Decidable (orderly s a)
  | .call _ _ => inferInstanceAs (Decidable (_ ∧ _))
  | .return c => inferInstanceAs (Decidable (∀ f ∈ (s.core c).below.head?, f.pc ≠ .idle →
      (s.core c).held = (s.core c).run.base))
  | .access _ => .isTrue trivial
  | .interrupt _ => .isTrue trivial

/-- The invariant of the two cores. -/
def Inv (s : State) : Prop := ∀ c, CoreInv (s.owner = some c) (s.core c)

theorem inv_start : Inv start := by
  intro c
  constructor <;> simp [start, Fits, Pc.Fits, Spins, HasTaken, Pc.spins, Pc.hasTaken]

/-- A change of one core that leaves the semaphore where it is. -/
theorem Inv.setCore {s : State} (h : Inv s) {c : Core} (hx : CoreInv (s.owner = some c) x) :
    Inv (s.setCore c x) := by
  intro c'
  rcases eq_or_ne c' c with rfl | hne
  · simpa [State.setCore] using hx
  · simpa [State.setCore, Function.update_of_ne hne] using h c'

/-- A frame enters one of the functions. -/
theorem CoreInv.call (h : CoreInv own x) (hpc : x.run.pc = .idle) {op : Op}
    (hquiet : ¬ Spins x.below) (hroom : op ≠ .unlock → x.held < 255) :
    CoreInv own (x.goto op.entry) := by
  obtain ⟨depth, held, ⟨pc, base⟩, below⟩ := x
  obtain ⟨-, -, -, hbelow⟩ := h.fits
  obtain rfl : pc = .idle := hpc
  rw [coreInv_iff hquiet hbelow] at h
  rw [CoreState.goto, coreInv_iff hquiet hbelow]
  obtain ⟨-, hle, -, hrest, htaken, -⟩ := h
  have hentry : op.entry.spins = false ∧ op.entry.hasTaken = false := by
    cases op <;> exact ⟨rfl, rfl⟩
  refine ⟨?_, hle, fun _ => hentry.2, fun _ _ => hrest rfl rfl, fun ht => ?_, fun hs => ?_⟩
  · cases op with
    | lock => exact hroom (by decide)
    | tryLock => exact hroom (by decide)
    | unlock => exact trivial
  · obtain ⟨hzero, hown, hdepth⟩ := htaken (.inr (by simpa [hentry.2] using ht))
    exact ⟨hzero, hown, fun _ => hdepth rfl⟩
  · rw [hentry.1] at hs
    cases hs

/-- An interrupt puts the running frame aside. -/
theorem CoreInv.interrupt (h : CoreInv own x) :
    CoreInv own { x with run := ⟨.idle, x.held⟩, below := x.run :: x.below } := by
  have hs : Spins (⟨.idle, x.held⟩ :: x.run :: x.below) ↔ Spins (x.run :: x.below) :=
    (spins_cons _ _).trans (or_iff_right Bool.false_ne_true)
  have ht : HasTaken (⟨.idle, x.held⟩ :: x.run :: x.below) ↔ HasTaken (x.run :: x.below) :=
    (hasTaken_cons _ _).trans (or_iff_right Bool.false_ne_true)
  constructor
  · exact ⟨trivial, fun _ => rfl, fun _ => rfl, h.fits⟩
  · exact h.le
  · rw [hs, ht]
    exact h.resting
  · rw [hs, ht]
    exact h.taken
  · rw [hs, ht]
    exact h.spinning

/-- A handler returns. -/
theorem CoreInv.return {f : Frame} {below : List Frame} (h : CoreInv own x)
    (hpc : x.run.pc = .idle) (hx : x.below = f :: below)
    (hbase : f.pc ≠ .idle → x.held = x.run.base) :
    CoreInv own { x with run := f, below := below } := by
  obtain ⟨⟨-, -, -, hfits⟩, hle, hrest, htaken, hspinning⟩ := h
  rw [hx] at hfits hrest htaken hspinning
  simp only [spins_cons x.run, hasTaken_cons x.run, hpc, Pc.spins, Pc.hasTaken,
    Bool.false_eq_true, false_or] at hrest htaken hspinning
  refine ⟨⟨?_, hfits.2⟩, hle, hrest, htaken, hspinning⟩
  by_cases hidle : f.pc = .idle
  · simp only [hidle, Pc.Fits]
  · simp only [hbase hidle]
    exact hfits.1

/-- **Step lemma**. -/
theorem Inv.step {s s' : State} {a : Action} (h : Inv s) (hg : orderly s a)
    (hst : machine.step s a = some s') : Inv s' := by
  cases a with
  | call c op =>
    simp only [machine, Mutex.step] at hst
    split_ifs at hst with hpc
    cases hst
    refine h.setCore ((h c).call hpc ?_ hg.2)
    rintro ⟨f, hf, hs⟩
    rw [hg.1 f hf] at hs
    cases hs
  | access c =>
    simp only [machine, Mutex.step] at hst
    split_ifs at hst with hpc
    cases hst
    intro c'
    rcases eq_or_ne c' c with rfl | hne
    · simpa [State.setCore] using (h c').access hpc
    · have hother := access_owner c (s.core c) s.owner hne
      simpa [State.setCore, Function.update_of_ne hne, hother] using h c'
  | interrupt c =>
    cases hst
    exact h.setCore (h c).interrupt
  | «return» c =>
    simp only [machine, Mutex.step] at hst
    rcases hbelow : (s.core c).below with _ | ⟨f, below⟩
    · simp [hbelow] at hst
    · simp only [hbelow] at hst
      split_ifs at hst with hpc
      cases hst
      refine h.setCore ((h c).return hpc hbelow fun hidle => hg f ?_ hidle)
      rw [hbelow]
      rfl

/-- **Run lemma**. -/
theorem inv_of_reachable {s : State} (h : machine.Reachable orderly s) : Inv s :=
  invariant (fun _ hs => hs ▸ inv_start) (fun _ _ _ hs hg hst => hs.step hg hst) h

/-! ### The mutex excludes -/

/-- The lock excludes the other core, and the semaphore is with a core that holds it. -/
structure Excludes (s : State) : Prop where
  has_semaphore : ∀ c, 0 < (s.core c).held → s.owner = some c
  alone : ∀ c c', 0 < (s.core c).held → 0 < (s.core c').held → c = c'
  /-- Outside of the three functions the semaphore is with no core that does not hold the lock. -/
  released : ∀ c, (∀ f ∈ (s.core c).run :: (s.core c).below, f.pc = .idle) → s.owner = some c →
    0 < (s.core c).held
  /-- The semaphore goes back in the last unlock, and nowhere else. -/
  outermost : ∀ a s', machine.step s a = some s' → ∀ c, s.owner = some c → s'.owner ≠ some c →
    a = .access c ∧ (s.core c).run.pc = .release ∧ (s.core c).held = 0

theorem Inv.excludes {s : State} (h : Inv s) : Excludes s := by
  have howner : ∀ c, 0 < (s.core c).held → s.owner = some c := fun c => (h c).own_of_held
  refine ⟨howner, fun c c' hc hc' => ?_, fun c => (h c).held_of_own, fun a s' hst c ho hno => ?_⟩
  · exact Option.some.inj ((howner c hc).symm.trans (howner c' hc'))
  · -- every step but an access leaves the semaphore where it is
    cases a with
    | call c' op =>
      simp only [machine, Mutex.step] at hst
      split_ifs at hst
      cases hst
      exact absurd ho hno
    | interrupt c' =>
      cases hst
      exact absurd ho hno
    | «return» c' =>
      simp only [machine, Mutex.step] at hst
      rcases hbelow : (s.core c').below with _ | ⟨f, below⟩
      · simp [hbelow] at hst
      · simp only [hbelow] at hst
        split_ifs at hst
        cases hst
        exact absurd ho hno
    | access c' =>
      simp only [machine, Mutex.step] at hst
      split_ifs at hst with hpc
      cases hst
      replace hno : ((s.core c').access c' s.owner).2 ≠ some c := hno
      rcases eq_or_ne c c' with rfl | hne
      · have hrel := access_release ho hno
        have hfits := (h c).fits.1
        rw [hrel] at hfits
        exact ⟨rfl, hrel, hfits⟩
      · exact absurd ((access_owner c' (s.core c') s.owner hne).mpr ho) hno

/-- **The mutex excludes** in every run whose steps are `orderly`. -/
theorem excludes_of_reachable {s : State} (h : machine.Reachable orderly s) : Excludes s :=
  (inv_of_reachable h).excludes

/-- The core takes the lock while nobody has it. -/
def lockOnce (c : Core) : List Action := [.call c .lock, .access c, .access c, .access c]

theorem excludes_of_reachable_lockOnce :
    ∃ s, machine.run orderly start (lockOnce .v3f) = some s ∧ 0 < (s.core .v3f).held ∧
      Excludes s := by
  have hrun : ((machine.run orderly start (lockOnce .v3f)).map fun s =>
      decide (0 < (s.core .v3f).held)) = some true := by decide
  obtain ⟨s, hs, hheld⟩ := Option.map_eq_some_iff.mp hrun
  exact ⟨s, hs, of_decide_eq_true hheld,
    excludes_of_reachable (reachable_of_run (.init rfl) hs)⟩

/-- The V5F holds the lock and the V3F spins for it; a handler on the V3F takes it too. -/
def handlerWalksIn : List Action :=
  lockOnce .v5f ++ [.call .v3f .lock, .access .v3f, .access .v3f, .interrupt .v3f,
    .call .v3f .lock, .access .v3f, .access .v3f]

/-- The mutex does not exclude in every run: after `handlerWalksIn` both cores hold the lock. -/
theorem not_excludes_of_reachable : ¬ ∀ s, machine.Reachable anyStep s → Excludes s := by
  intro hall
  have hrun : ((machine.run anyStep start handlerWalksIn).map fun s =>
      (decide (0 < (s.core .v3f).held), decide (0 < (s.core .v5f).held))) =
      some (true, true) := by decide
  obtain ⟨s, hs, hmarks⟩ := Option.map_eq_some_iff.mp hrun
  simp only [Prod.mk.injEq, decide_eq_true_eq] at hmarks
  have halone := (hall s (reachable_of_run (.init rfl) hs)).alone .v3f .v5f hmarks.1 hmarks.2
  cases halone

/-- A lock taken above a frame that spins is given without the semaphore, in two accesses. -/
theorem exists_not_holding_of_spins {s : State} {c : Core} (h : Inv s)
    (hpc : (s.core c).run.pc = .idle) (hs : Spins (s.core c).below) (hno : s.owner ≠ some c) :
    ∃ s', machine.run anyStep s [.call c .lock, .access c, .access c] = some s' ∧
      0 < (s'.core c).held ∧ s'.owner ≠ some c := by
  obtain ⟨-, hone, -⟩ := (h c).spinning ((spins_cons _ _).mpr (.inr hs))
  obtain ⟨core, owner⟩ := s
  obtain ⟨⟨depth, held, ⟨pc, base⟩, below⟩, hx⟩ : ∃ x, core c = x := ⟨_, rfl⟩
  simp only [hx] at hpc hone
  subst hpc hone
  refine ⟨⟨Function.update core c ⟨2, held + 1, ⟨.idle, base⟩, below⟩, owner⟩, ?_, ?_, hno⟩
  · simp [Machine.run, machine, Mutex.step, State.setCore, CoreState.goto, Op.entry, anyStep, hx,
      CoreState.access]
  · simp

end Ch32h4.Xcore.Mutex
