import Ch32h4.Rtc.Clock

/-!
# What `ch32h4_rtc_set` sets, `ch32h4_rtc_get` gets

`kept_iff`: a time is refused for being out of range, or comes back advanced by the ticks since,
if and only if it is before 2000, or is before `2 ^ 32` seconds of Unix time when it is read: until
February 2106.  The counter itself runs to 2136, as the comment on the epoch says, but
`ch32h4_rtc_get` adds the epoch in 32 bits before it widens, and `ch32h4_rtc_set` stores what is
beyond 2136 modulo `2 ^ 32`.
-/

namespace Ch32h4.Rtc

variable {src : Source}

theorem Source.hz_pos (src : Source) : 0 < src.hz := by
  cases src <;> decide

theorem Source.hz_le (src : Source) : src.hz ≤ 65536 := by
  cases src <;> decide

/-! ### Cycles -/

namespace Registers

variable (r : Registers src) (m : ℕ)

@[simp] theorem setCounter_cnt {x : ℕ} (hx : x < 2 ^ 32) : (r.setCounter x hx).cnt = x := rfl

/-- How far the second has gone. -/
def phase : ℕ := src.hz - 1 - r.div

theorem phase_lt : r.phase < src.hz := by
  have hpos := src.hz_pos
  unfold phase
  omega

/-- The ticks of the counter in `m` cycles. -/
def ticks : ℕ := (r.phase + m) / src.hz

theorem cycle_cnt : r.cycle.cnt = (r.cnt + (r.phase + 1) / src.hz) % 2 ^ 32 := by
  have hdiv := r.div_lt
  have hcnt := r.cnt_lt
  unfold cycle phase
  split_ifs with h
  · rw [h, Nat.sub_zero, Nat.sub_add_cancel src.hz_pos, Nat.div_self src.hz_pos]
  · rw [Nat.div_eq_of_lt (by omega), Nat.add_zero, Nat.mod_eq_of_lt hcnt]

theorem cycle_phase : r.cycle.phase = (r.phase + 1) % src.hz := by
  have hdiv := r.div_lt
  unfold cycle phase
  split_ifs with h
  · rw [h, Nat.sub_zero, Nat.sub_add_cancel src.hz_pos, Nat.mod_self]
    exact Nat.sub_self _
  · dsimp only
    rw [Nat.mod_eq_of_lt (by omega)]
    omega

/-- What `m` cycles make of the registers. -/
theorem iterate_cycle : (cycle^[m] r).cnt = (r.cnt + r.ticks m) % 2 ^ 32 ∧
    (cycle^[m] r).phase = (r.phase + m) % src.hz := by
  induction m with
  | zero =>
    have hcnt := r.cnt_lt
    have hphase := r.phase_lt
    rw [ticks, Nat.add_zero, Nat.div_eq_of_lt hphase, Nat.mod_eq_of_lt hphase, Nat.add_zero,
      Nat.mod_eq_of_lt hcnt]
    exact ⟨rfl, rfl⟩
  | succ m ih =>
    obtain ⟨hcnt, hphase⟩ := ih
    rw [Function.iterate_succ_apply', cycle_cnt, cycle_phase, hcnt, hphase]
    refine ⟨?_, ?_⟩
    · -- a second is full when the remainder is
      have hnext : r.ticks (m + 1) = r.ticks m + ((r.phase + m) % src.hz + 1) / src.hz := by
        have hsplit := Nat.div_add_mod (r.phase + m) src.hz
        rw [ticks, ticks, show r.phase + (m + 1)
            = src.hz * ((r.phase + m) / src.hz) + ((r.phase + m) % src.hz + 1) by omega,
          Nat.mul_add_div src.hz_pos]
      rw [Nat.mod_add_mod, hnext, Nat.add_assoc]
    · rw [Nat.mod_add_mod, Nat.add_assoc]

end Registers

/-! ### The round trip -/

variable {r : Registers src} {t : ℤ} {m : ℕ}

/-- The times that the counter has room for. -/
def Promised (t : ℤ) : Prop := epochOffset ≤ t ∧ t < epochOffset + 2 ^ 32

instance : Decidable (Promised t) := inferInstanceAs (Decidable (_ ∧ _))

/-- A promised time is taken, and `m` cycles later it is read with the ticks added; every other
time is refused, and the clock keeps the time it has.  The clock runs, and its registers take what
is written. -/
def Kept (r : Registers src) (t : ℤ) (m : ℕ) : Prop :=
  (Promised t → (set true true true r t).2 = true ∧
    ((get true (Registers.cycle^[m] (set true true true r t).1)).map fun now => (now.1 : ℤ)) =
      some (t + r.ticks m)) ∧
  (¬ Promised t → set true true true r t = (r, false))

theorem set_of_lt (h : t < epochOffset) : set true true true r t = (r, false) := by
  rw [set, if_neg (by decide), if_pos h]

/-- From 2000 on every time is taken. -/
theorem set_of_le (h : epochOffset ≤ t) : (set true true true r t).2 = true ∧
    ((set true true true r t).1.cnt : ℤ) = (t - epochOffset) % 2 ^ 32 ∧
    (set true true true r t).1.div = r.div := by
  have hcnt : (((t % 2 ^ 32 - epochOffset) % 2 ^ 32).toNat : ℤ) = (t - epochOffset) % 2 ^ 32 := by
    rw [Int.toNat_of_nonneg (Int.emod_nonneg _ (by decide)), Int.emod_sub_emod]
  rw [set, if_neg (by decide), if_neg (by omega), if_neg (by decide)]
  refine ⟨?_, ?_, ?_⟩
  · rfl
  · simp only [Registers.setCounter_cnt]
    exact hcnt
  · rfl

/-- What is read `m` cycles later, in 32 bits. -/
theorem get_iterate_set (h : epochOffset ≤ t) :
    ((get true (Registers.cycle^[m] (set true true true r t).1)).map fun now => (now.1 : ℤ)) =
      some ((t + r.ticks m) % 2 ^ 32) := by
  obtain ⟨-, hcnt, hdiv⟩ := set_of_le (r := r) h
  have hticks : (set true true true r t).1.ticks m = r.ticks m := by
    rw [Registers.ticks, Registers.ticks, Registers.phase, Registers.phase, hdiv]
  generalize (set true true true r t).1 = r' at hcnt hticks ⊢
  have hread : (seconds (Registers.cycle^[m] r').cnt : ℤ) = (t + r.ticks m) % 2 ^ 32 := by
    rw [seconds, (r'.iterate_cycle m).1, hticks]
    omega
  rw [get, if_pos rfl, Option.map_some, hread]

/-- **A time is kept if and only if it is before 2000, and refused, or is read before `2 ^ 32`
seconds of Unix time**. -/
theorem kept_iff : Kept r t m ↔ t < epochOffset ∨ t + r.ticks m < 2 ^ 32 := by
  have hoff : epochOffset = 946684800 := rfl
  constructor
  · intro h
    by_cases hlt : t < epochOffset
    · exact .inl hlt
    · have hle : epochOffset ≤ t := not_lt.mp hlt
      by_cases hpromised : t < epochOffset + 2 ^ 32
      · have hread := (h.1 ⟨hle, hpromised⟩).2
        rw [get_iterate_set hle, Option.some.injEq] at hread
        right
        omega
      · -- beyond the range the time is taken all the same
        have hrefused := h.2 fun hp => hpromised hp.2
        have htaken := (set_of_le (r := r) hle).1
        rw [hrefused] at htaken
        cases htaken
  · rintro (hlt | hread)
    · refine ⟨fun hp => absurd hp.1 (not_le.mpr hlt), fun _ => set_of_lt hlt⟩
    · refine ⟨fun hp => ⟨(set_of_le hp.1).1, ?_⟩, fun hp => ?_⟩
      · rw [get_iterate_set hp.1, Int.emod_eq_of_lt (by have := hp.1; omega) hread]
      · have hlt : t < epochOffset := by
          by_contra hle
          exact hp ⟨not_lt.mp hle, by omega⟩
        exact set_of_lt hlt

/-- `2 ^ 32` seconds of Unix time are read as zero. -/
theorem not_kept : ¬ ∀ (src : Source) (r : Registers src) (t : ℤ) (m : ℕ), Kept r t m := by
  intro h
  have hread := ((h .lse ⟨0, 0, by decide, by decide⟩ (2 ^ 32) 0).1 (by decide)).2
  exact absurd hread (by decide)

end Ch32h4.Rtc
