import Ch32h4.Rtc.Equiv.RoundTrip
import Mathlib.Order.Basic

/-!
# `ch32h4_rtc_get` while the clock runs

`soundCalls_of_reachable`: whatever cycles come between the half-word reads, the time that a call
returns lies between the clock's when it began and when it ended, its microseconds are below a
million, and calls in their order return times in their order, in every run that is `timely`: the
clock stays below `2 ^ 32` seconds of Unix time, and no round of the loop takes `65536` seconds.
After that the seconds come out modulo `2 ^ 32` (`not_soundCalls_of_reachable`), which is what
`kept_iff` says of the clock at rest.

The loop ends with two readings of the counter that agree.  In less than `65536` seconds halves
from either side of a carry cannot agree twice, so the counter stood still between the readings
(`join_eq`), and the divider, which is read there, is of the same second.  No source has a divider
of more than 16 bits, so its high half is zero and only one read of it matters.
-/

namespace Ch32h4.Rtc

variable {src : Source} {oc od : Order} {s s' : State src}

/-! ### Halves -/

/-- **Two readings that agree are of a counter that stood still**, when each half of the counter
comes round only once in all of it. -/
theorem join_eq (order : Order) {x₁ x₂ x₃ x₄ : ℕ} (h₁ : x₁ ≤ x₂) (h₂ : x₂ ≤ x₃) (h₃ : x₃ ≤ x₄)
    (hshort : x₄ < x₁ + 65536)
    (heq : order.join (order.first x₁) (order.second x₂)
      = order.join (order.first x₃) (order.second x₄)) :
    x₂ = x₃ ∧ order.join (order.first x₁) (order.second x₂) = x₂ := by
  cases order with
  | low =>
    simp only [Order.join, Order.first, Order.second] at heq ⊢
    omega
  | high =>
    simp only [Order.join, Order.first, Order.second] at heq ⊢
    omega

/-- A register of 16 bits comes whole in one of its halves. -/
theorem join_of_lt (order : Order) {d d' : ℕ} (hd : d < 65536) (hd' : d' < 65536) :
    order.join (order.first d) (order.second d') = d ∨
      order.join (order.first d) (order.second d') = d' := by
  cases order with
  | low =>
    left
    simp only [Order.join, Order.first, Order.second]
    omega
  | high =>
    right
    simp only [Order.join, Order.first, Order.second]
    omega

/-! ### The clock's time -/

/-- `CNT` at a time of the clock. -/
def cntAt (src : Source) (moment : ℕ) : ℕ := moment / src.hz

/-- `DIV` at a time of the clock. -/
def divAt (src : Source) (moment : ℕ) : ℕ := src.hz - 1 - moment % src.hz

theorem cntAt_mono {moment moment' : ℕ} (h : moment ≤ moment') :
    cntAt src moment ≤ cntAt src moment' :=
  Nat.div_le_div_right h

theorem divAt_lt (src : Source) (moment : ℕ) : divAt src moment < 65536 := by
  have hpos := src.hz_pos
  have hle := src.hz_le
  unfold divAt
  omega

namespace Registers

variable (r : Registers src)

theorem cntAt_time : cntAt src r.time = r.cnt := by
  have hphase := r.phase_lt
  unfold cntAt time
  rw [Nat.mul_comm, Nat.mul_add_div src.hz_pos]
  exact (Nat.add_eq_left).mpr (Nat.div_eq_of_lt hphase)

theorem divAt_time : divAt src r.time = r.div := by
  have hphase := r.phase_lt
  have hdiv := r.div_lt
  have hmod : r.time % src.hz = r.phase := by
    unfold time
    rw [Nat.mul_comm, Nat.mul_add_mod]
    exact Nat.mod_eq_of_lt hphase
  unfold divAt
  rw [hmod]
  unfold phase
  omega

/-- A cycle takes the clock one further, until the counter is full. -/
theorem time_cycle (h : r.cnt + 1 < 2 ^ 32) : r.cycle.time = r.time + 1 := by
  have hdiv := r.div_lt
  have hpos := src.hz_pos
  unfold cycle time
  split_ifs with hzero
  · dsimp only
    rw [Nat.mod_eq_of_lt h, Nat.add_mul]
    omega
  · dsimp only
    omega

end Registers

/-- The clock's time since 1970, in whole microseconds. -/
def unixMicroseconds (src : Source) (moment : ℕ) : ℕ :=
  epochOffset * 1000000 + moment * 1000000 / src.hz

theorem unixMicroseconds_mono {moment moment' : ℕ} (h : moment ≤ moment') :
    unixMicroseconds src moment ≤ unixMicroseconds src moment' :=
  Nat.add_le_add_left (Nat.div_le_div_right (Nat.mul_le_mul_right _ h)) _

/-- What a call returned, in microseconds. -/
def Call.value (c : Call) : ℕ := c.seconds * 1000000 + c.microseconds

theorem microseconds_divAt (src : Source) (moment : ℕ) :
    microseconds src (divAt src moment) = moment % src.hz * 1000000 / src.hz := by
  have hpos := src.hz_pos
  have hmod := Nat.mod_lt moment hpos
  have hlt : moment % src.hz * 1000000 / src.hz < 1000000 := by
    rw [Nat.div_lt_iff_lt_mul hpos, Nat.mul_comm]
    exact Nat.mul_lt_mul_of_pos_left hmod (by decide)
  have helapsed : (if divAt src moment > src.hz - 1 then 0 else src.hz - 1 - divAt src moment)
      = moment % src.hz := by
    unfold divAt
    rw [if_neg (by omega)]
    omega
  unfold microseconds
  dsimp only
  rw [helapsed]
  exact Nat.mod_eq_of_lt (hlt.trans (by decide))

/-- The fraction of a second is less than one, whatever the divider holds. -/
theorem microseconds_lt (src : Source) (div : ℕ) : microseconds src div < 1000000 := by
  have hpos := src.hz_pos
  have helapsed : (if div > src.hz - 1 then 0 else src.hz - 1 - div) < src.hz := by
    split_ifs <;> omega
  refine lt_of_le_of_lt (Nat.mod_le _ _) ?_
  rw [Nat.div_lt_iff_lt_mul hpos, Nat.mul_comm 1000000]
  exact Nat.mul_lt_mul_of_pos_right helapsed (by decide)

/-- What the two registers of one moment make is its time. -/
theorem value_at (src : Source) {moment : ℕ} (h : cntAt src moment + epochOffset < 2 ^ 32) :
    seconds (cntAt src moment) * 1000000 + microseconds src (divAt src moment)
      = unixMicroseconds src moment := by
  have hsplit : moment * 1000000
      = src.hz * (moment / src.hz * 1000000) + moment % src.hz * 1000000 := by
    conv_lhs => rw [← Nat.div_add_mod moment src.hz]
    rw [Nat.add_mul, Nat.mul_assoc]
  have hdiv : moment * 1000000 / src.hz
      = cntAt src moment * 1000000 + moment % src.hz * 1000000 / src.hz := by
    rw [hsplit]
    exact Nat.mul_add_div src.hz_pos _ _
  rw [microseconds_divAt, seconds, Nat.mod_eq_of_lt h, unixMicroseconds, hdiv, Nat.add_mul]
  ac_rfl

/-! ### The invariant -/

/-- A reading of the counter, begun not before `began` and ended at `moment`. -/
def Reading (src : Source) (oc : Order) (began moment cnt : ℕ) : Prop :=
  ∃ earlier, began ≤ earlier ∧ earlier ≤ moment ∧
    cnt = oc.join (oc.first (cntAt src earlier)) (oc.second (cntAt src moment))

/-- What the reads of a round have seen, each at a moment of its own and in their order. -/
def Seen (src : Source) (oc od : Order) (began now : ℕ) : Pc → Prop
  | .idle | .cnt => True
  | .cnt' half => ∃ m, began ≤ m ∧ m ≤ now ∧ half = oc.first (cntAt src m)
  | .div cnt => ∃ m ≤ now, Reading src oc began m cnt
  | .div' cnt half =>
    ∃ m m', m ≤ m' ∧ m' ≤ now ∧ Reading src oc began m cnt ∧ half = od.first (divAt src m')
  | .again cnt div =>
    ∃ m m', m ≤ m' ∧ m' ≤ now ∧ Reading src oc began m cnt ∧ div = divAt src m'
  | .again' cnt div half =>
    ∃ m m' m'', m ≤ m' ∧ m' ≤ m'' ∧ m'' ≤ now ∧ Reading src oc began m cnt ∧
      div = divAt src m' ∧ half = oc.first (cntAt src m'')

theorem Seen.mono {began now now' : ℕ} {pc : Pc} (h : Seen src oc od began now pc)
    (hle : now ≤ now') : Seen src oc od began now' pc := by
  cases pc with
  | idle => trivial
  | cnt => trivial
  | cnt' half =>
    obtain ⟨m, hfrom, hto, hhalf⟩ := h
    exact ⟨m, hfrom, hto.trans hle, hhalf⟩
  | div cnt =>
    obtain ⟨m, hto, hcnt⟩ := h
    exact ⟨m, hto.trans hle, hcnt⟩
  | div' cnt half =>
    obtain ⟨m, m', hm, hto, hcnt, hhalf⟩ := h
    exact ⟨m, m', hm, hto.trans hle, hcnt, hhalf⟩
  | again cnt div =>
    obtain ⟨m, m', hm, hto, hcnt, hdiv⟩ := h
    exact ⟨m, m', hm, hto.trans hle, hcnt, hdiv⟩
  | again' cnt div half =>
    obtain ⟨m, m', m'', hm, hm', hto, hcnt, hdiv, hhalf⟩ := h
    exact ⟨m, m', m'', hm, hm', hto.trans hle, hcnt, hdiv, hhalf⟩

/-- The time that a call returned lies between the clock's when it began and when it ended. -/
def Call.Within (src : Source) (c : Call) : Prop :=
  unixMicroseconds src c.entered ≤ c.value ∧ c.value ≤ unixMicroseconds src c.left

structure Inv (oc od : Order) (s : State src) : Prop where
  early : s.pc ≠ .idle → s.regs.cnt + epochOffset < 2 ^ 32
  entered : s.pc ≠ .idle → s.entered ≤ s.began
  began : s.pc ≠ .idle → s.began ≤ s.regs.time
  short : s.pc ≠ .idle → s.regs.cnt < cntAt src s.began + 65536
  seen : Seen src oc od s.began s.regs.time s.pc
  /-- The calls that have returned are over. -/
  before : s.pc ≠ .idle → ∀ c ∈ s.calls, c.left ≤ s.entered
  left : ∀ c ∈ s.calls, c.left ≤ s.regs.time
  fraction : ∀ c ∈ s.calls, c.microseconds < 1000000
  within : ∀ c ∈ s.calls, c.Within src
  forward : s.calls.Pairwise fun later earlier => earlier.value ≤ later.value

theorem inv_start (r : Registers src) : Inv oc od (start r) where
  early h := absurd rfl h
  entered h := absurd rfl h
  began h := absurd rfl h
  short h := absurd rfl h
  seen := trivial
  before h := absurd rfl h
  left c hc := by cases hc
  fraction c hc := by cases hc
  within c hc := by cases hc
  forward := List.Pairwise.nil

theorem Inv.cycle (h : Inv oc od s) (hnow : s.regs.cnt + epochOffset < 2 ^ 32)
    (hnext : s.regs.cycle.cnt + epochOffset < 2 ^ 32)
    (hshort : s.pc ≠ .idle → s.regs.cycle.cnt < cntAt src s.began + 65536) :
    Inv oc od { s with regs := s.regs.cycle } := by
  have hoff : epochOffset = 946684800 := rfl
  have htime : s.regs.cycle.time = s.regs.time + 1 := s.regs.time_cycle (by omega)
  have hle : s.regs.time ≤ s.regs.cycle.time := by omega
  exact { h with
    early := fun _ => hnext
    began := fun hpc => (h.began hpc).trans hle
    short := hshort
    seen := h.seen.mono hle
    left := fun c hc => (h.left c hc).trans hle }

theorem Inv.call (h : Inv oc od s) (hearly : s.regs.cnt + epochOffset < 2 ^ 32) :
    Inv oc od { s with pc := .cnt, entered := s.regs.time, began := s.regs.time } :=
  { h with
    early := fun _ => hearly
    entered := fun _ => le_rfl
    began := fun _ => le_rfl
    short := fun _ => by
      dsimp only
      rw [s.regs.cntAt_time]
      omega
    seen := trivial
    before := fun _ => h.left }

/-- A read that is not the last of its round. -/
theorem Inv.goto (h : Inv oc od s) (hpc : s.pc ≠ .idle) {pc : Pc}
    (hseen : Seen src oc od s.began s.regs.time pc) : Inv oc od { s with pc := pc } :=
  { h with
    early := fun _ => h.early hpc
    entered := fun _ => h.entered hpc
    began := fun _ => h.began hpc
    short := fun _ => h.short hpc
    seen := hseen
    before := fun _ => h.before hpc }

/-- The loop goes round once more. -/
theorem Inv.again (h : Inv oc od s) (hpc : s.pc ≠ .idle) :
    Inv oc od { s with pc := .cnt, began := s.regs.time } :=
  { h with
    early := fun _ => h.early hpc
    entered := fun _ => (h.entered hpc).trans (h.began hpc)
    began := fun _ => le_rfl
    short := fun _ => by
      dsimp only
      rw [s.regs.cntAt_time]
      omega
    seen := trivial
    before := fun _ => h.before hpc }

/-- **The two readings agree**: they are of one moment with the divider. -/
theorem Inv.moment (h : Inv oc od s) {cnt div half : ℕ} (hpc : s.pc = .again' cnt div half)
    (hagree : cnt = oc.join half (oc.second s.regs.cnt)) :
    ∃ moment, s.entered ≤ moment ∧ moment ≤ s.regs.time ∧ cnt = cntAt src moment ∧
      div = divAt src moment := by
  have hne : s.pc ≠ .idle := by rw [hpc]; exact Pc.noConfusion
  have hseen := h.seen
  rw [hpc] at hseen
  obtain ⟨m, m', m'', hm, hm', hto, ⟨earlier, hfrom, hearlier, hcnt⟩, hdiv, hhalf⟩ := hseen
  have hshort := h.short hne
  rw [← s.regs.cntAt_time] at hshort hagree
  have hround : cntAt src _ ≤ cntAt src _ := cntAt_mono hfrom
  rw [hhalf] at hagree
  obtain ⟨hsame, hread⟩ := join_eq oc (cntAt_mono hearlier) (cntAt_mono (hm.trans hm'))
    (cntAt_mono hto) (by omega) (hcnt.symm.trans hagree)
  have hentered := h.entered hne
  refine ⟨m', by omega, hm'.trans hto, ?_, hdiv⟩
  have h₁ : cntAt src _ ≤ cntAt src _ := cntAt_mono hm
  have h₂ : cntAt src _ ≤ cntAt src _ := cntAt_mono hm'
  omega

/-- The call returns. -/
theorem Inv.return (h : Inv oc od s) {cnt div half : ℕ} (hpc : s.pc = .again' cnt div half)
    (hagree : cnt = oc.join half (oc.second s.regs.cnt)) :
    Inv oc od { s with
      pc := .idle
      calls := ⟨s.entered, s.regs.time, seconds cnt, microseconds src div⟩ :: s.calls } := by
  have hne : s.pc ≠ .idle := by rw [hpc]; exact Pc.noConfusion
  obtain ⟨moment, hfrom, hto, rfl, rfl⟩ := h.moment hpc hagree
  have hearly : cntAt src moment + epochOffset < 2 ^ 32 := by
    have hle : cntAt src _ ≤ cntAt src _ := cntAt_mono hto
    rw [s.regs.cntAt_time] at hle
    have hnow := h.early hne
    omega
  have hvalue : Call.value ⟨s.entered, s.regs.time, seconds (cntAt src moment),
      microseconds src (divAt src moment)⟩ = unixMicroseconds src moment := value_at src hearly
  constructor
  · exact fun hidle => absurd rfl hidle
  · exact fun hidle => absurd rfl hidle
  · exact fun hidle => absurd rfl hidle
  · exact fun hidle => absurd rfl hidle
  · trivial
  · exact fun hidle => absurd rfl hidle
  · intro c hc
    rcases List.mem_cons.mp hc with rfl | hc
    · exact le_rfl
    · exact h.left c hc
  · intro c hc
    rcases List.mem_cons.mp hc with rfl | hc
    · exact microseconds_lt src _
    · exact h.fraction c hc
  · intro c hc
    rcases List.mem_cons.mp hc with rfl | hc
    · rw [Call.Within, hvalue]
      exact ⟨unixMicroseconds_mono hfrom, unixMicroseconds_mono hto⟩
    · exact h.within c hc
  · refine List.pairwise_cons.mpr ⟨fun c hc => ?_, h.forward⟩
    rw [hvalue]
    exact (h.within c hc).2.trans (unixMicroseconds_mono ((h.before hne c hc).trans hfrom))

theorem Inv.read (h : Inv oc od s) (hs : s.read oc od = some s') : Inv oc od s' := by
  have hseen := h.seen
  unfold State.read at hs
  cases hpc : s.pc with
  | idle => rw [hpc] at hs; cases hs
  | cnt =>
    rw [hpc] at hs
    have hne : s.pc ≠ .idle := by rw [hpc]; exact Pc.noConfusion
    obtain rfl := Option.some.inj hs
    exact h.goto hne ⟨s.regs.time, h.began hne, le_rfl, by rw [s.regs.cntAt_time]⟩
  | cnt' half =>
    rw [hpc] at hs hseen
    have hne : s.pc ≠ .idle := by rw [hpc]; exact Pc.noConfusion
    obtain ⟨m, hfrom, hto, rfl⟩ := hseen
    obtain rfl := Option.some.inj hs
    exact h.goto hne ⟨s.regs.time, le_rfl, m, hfrom, hto, by rw [s.regs.cntAt_time]⟩
  | div cnt =>
    rw [hpc] at hs hseen
    have hne : s.pc ≠ .idle := by rw [hpc]; exact Pc.noConfusion
    obtain ⟨m, hto, hcnt⟩ := hseen
    obtain rfl := Option.some.inj hs
    exact h.goto hne ⟨m, s.regs.time, hto, le_rfl, hcnt, by rw [s.regs.divAt_time]⟩
  | div' cnt half =>
    rw [hpc] at hs hseen
    have hne : s.pc ≠ .idle := by rw [hpc]; exact Pc.noConfusion
    obtain ⟨m, m', hm, hto, hcnt, rfl⟩ := hseen
    obtain rfl := Option.some.inj hs
    -- one of the two halves is zero, and the divider is of the moment of the other
    rw [← s.regs.divAt_time]
    rcases join_of_lt od (divAt_lt src m') (divAt_lt src s.regs.time) with hdiv | hdiv
    · exact h.goto hne ⟨m, m', hm, hto, hcnt, hdiv⟩
    · exact h.goto hne ⟨m, s.regs.time, hm.trans hto, le_rfl, hcnt, hdiv⟩
  | again cnt div =>
    rw [hpc] at hs hseen
    have hne : s.pc ≠ .idle := by rw [hpc]; exact Pc.noConfusion
    obtain ⟨m, m', hm, hto, hcnt, hdiv⟩ := hseen
    obtain rfl := Option.some.inj hs
    exact h.goto hne
      ⟨m, m', s.regs.time, hm, hto, le_rfl, hcnt, hdiv, by rw [s.regs.cntAt_time]⟩
  | again' cnt div half =>
    rw [hpc] at hs
    have hne : s.pc ≠ .idle := by rw [hpc]; exact Pc.noConfusion
    dsimp only at hs
    split_ifs at hs with hagree
    · obtain rfl := Option.some.inj hs
      exact h.again hne
    · obtain rfl := Option.some.inj hs
      exact h.return hpc (not_not.mp hagree)

/-! ### Runs -/

open Machine

/-- The clock stays below `2 ^ 32` seconds of Unix time, and no round of the loop takes `65536`
seconds. -/
def timely (s : State src) : Action → Prop
  | .cycle => s.regs.cnt + epochOffset < 2 ^ 32 ∧ s.regs.cycle.cnt + epochOffset < 2 ^ 32 ∧
      (s.pc ≠ .idle → s.regs.cycle.cnt < cntAt src s.began + 65536)
  | .call => s.regs.cnt + epochOffset < 2 ^ 32
  | .read => True

instance (s : State src) : (a : Action) → Decidable (timely s a)
  | .cycle => inferInstanceAs (Decidable (_ ∧ _ ∧ _))
  | .call => inferInstanceAs (Decidable (_ < _))
  | .read => inferInstanceAs (Decidable True)

/-- **Step lemma**. -/
theorem Inv.step (h : Inv oc od s) {a : Action} (htimely : timely s a)
    (hs : (machine src oc od).step s a = some s') : Inv oc od s' := by
  cases a with
  | cycle =>
    obtain rfl := Option.some.inj hs
    exact h.cycle htimely.1 htimely.2.1 htimely.2.2
  | call =>
    simp only [machine, Rtc.step] at hs
    split_ifs at hs with hidle
    obtain rfl := Option.some.inj hs
    exact h.call htimely
  | read => exact h.read hs

/-- **Run lemma**. -/
theorem inv_of_reachable (h : (machine src oc od).Reachable timely s) : Inv oc od s :=
  invariant (fun _ ⟨r, hs⟩ => hs ▸ inv_start r) (fun _ _ _ hs hg hst => hs.step hg hst) h

/-- What the calls so far have returned, the latest first. -/
structure Sound (s : State src) : Prop where
  fraction : ∀ c ∈ s.calls, c.microseconds < 1000000
  within : ∀ c ∈ s.calls, c.Within src
  forward : s.calls.Pairwise fun later earlier => earlier.value ≤ later.value

/-- **Every call returns a time between its beginning and its end**, in every run that is
`timely`. -/
theorem soundCalls_of_reachable (h : (machine src oc od).Reachable timely s) : Sound s := by
  have hinv := inv_of_reachable h
  exact ⟨hinv.fraction, hinv.within, hinv.forward⟩

/-- A clock on a carry: the last cycle of second 65535. -/
def onCarry : Registers .lse := ⟨65535, 0, by decide, by decide⟩

/-- The carry falls between the halves of the first reading, and the loop goes round again. -/
def torn : List Action := [.call, .read, .cycle] ++ List.replicate 11 .read

theorem soundCalls_of_reachable_torn :
    ∃ s, (machine .lse .low .high).run timely (start onCarry) torn = some s ∧
      s.calls = [⟨65535 * 32768 + 32767, 65536 * 32768, 946684800 + 65536, 0⟩] ∧ Sound s := by
  have hrun : (((machine .lse .low .high).run timely (start onCarry) torn).map State.calls) =
      some [⟨65535 * 32768 + 32767, 65536 * 32768, 946684800 + 65536, 0⟩] := by decide +kernel
  obtain ⟨s, hs, hcalls⟩ := Option.map_eq_some_iff.mp hrun
  exact ⟨s, hs, hcalls, soundCalls_of_reachable (reachable_of_run (.init ⟨_, rfl⟩) hs)⟩

/-- A clock at `2 ^ 32` seconds of Unix time. -/
def full : Registers .lse := ⟨2 ^ 32 - epochOffset, 0, by decide, by decide⟩

/-- It is read as zero. -/
theorem not_soundCalls_of_reachable : ¬ ∀ (src : Source) (oc od : Order) (s : State src),
    (machine src oc od).Reachable anyStep s → Sound s := by
  intro hall
  have hrun : (((machine .lse .low .low).run anyStep (start full)
      (.call :: List.replicate 6 .read)).map State.calls) =
      some [⟨full.time, full.time, 0, 999969⟩] := by decide +kernel
  obtain ⟨s, hs, hcalls⟩ := Option.map_eq_some_iff.mp hrun
  have hback := ((hall .lse .low .low s (reachable_of_run (.init ⟨_, rfl⟩) hs)).within _
    (by rw [hcalls]; exact List.mem_cons_self)).1
  exact absurd hback (by decide +kernel)

end Ch32h4.Rtc
