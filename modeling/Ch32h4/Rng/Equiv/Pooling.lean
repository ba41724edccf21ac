import Ch32h4.Mixing
import Ch32h4.Rng.Pool

/-!
# The pool forgets nothing

Which raw words come from the peripheral does not depend on the pool (`foldRaw_withPool`), so a run
of calls is a run of `fold` over the raw words (`pool_calls`).  `fold` loses nothing
(`lossless_fold`), and neither does `finalise` (`finalise_bijective`), so that all that ever went
into the pool is still in it (`pool_lossless`).
-/

namespace Ch32h4.Rng

open Function

variable {dev : Device} {s : State}

/-! ### The operations -/

theorem injective_of_mul {c : UInt64} (d : UInt64) (h : c * d = 1) :
    Injective fun x : UInt64 => x * c := by
  intro x y hxy
  apply UInt64.toBitVec_inj.mp
  apply Mixing.mul_injective (c := c.toBitVec) (d := d.toBitVec)
  · simpa using congrArg UInt64.toBitVec h
  · simpa using congrArg UInt64.toBitVec hxy

theorem turn_injective : Injective fun x : UInt64 => (x <<< 31) ||| (x >>> 33) := by
  intro x y h
  apply UInt64.toBitVec_inj.mp
  apply Mixing.rotate_injective (show 31 + 33 = 64 from rfl)
  simpa using congrArg UInt64.toBitVec h

theorem bijective_of_injective {f : UInt64 → UInt64} (h : Injective f) : Bijective f := by
  have : Finite UInt64 := Finite.of_injective UInt64.toFin fun _ _ => UInt64.toFin_inj.mp
  exact Finite.injective_iff_bijective.mp h

theorem toUInt64_injective : Injective UInt32.toUInt64 := by
  intro a b h
  have hnat := congrArg UInt64.toNat h
  rw [UInt32.toNat_toUInt64, UInt32.toNat_toUInt64] at hnat
  exact UInt32.toNat_inj.mp hnat

/-- A fold of a word into the pool loses neither of them. -/
theorem lossless_fold : Lossless fold where
  state raw := by
    apply bijective_of_injective
    intro x y h
    have hmul := turn_injective h
    have hxor := injective_of_mul 0xF1DE83E19937733D (by decide) hmul
    exact UInt64.xor_left_inj _ |>.mp hxor
  input pool a b h := by
    have hmul := turn_injective h
    have hxor := injective_of_mul 0xF1DE83E19937733D (by decide) hmul
    exact toUInt64_injective (UInt64.xor_right_inj _ |>.mp hxor)

theorem xorShift_injective {k : UInt64} (hk : 0 < k.toNat % 64) :
    Injective fun x : UInt64 => x ^^^ x >>> k := by
  intro x y h
  apply UInt64.toBitVec_inj.mp
  apply Mixing.xorShift_injective hk
  simpa using congrArg UInt64.toBitVec h

/-- **The finaliser** takes every word to one of its own. -/
theorem finalise_bijective : Bijective finalise := by
  apply bijective_of_injective
  intro x y h
  have h₁ := xorShift_injective (k := 31) (by decide) h
  have h₂ := injective_of_mul 0x319642B2D24D8EC3 (by decide) h₁
  have h₃ := xorShift_injective (k := 27) (by decide) h₂
  have h₄ := injective_of_mul 0x96DE1B173F119089 (by decide) h₃
  exact xorShift_injective (k := 30) (by decide) h₄

/-! ### The raw words of a run -/

theorem rawLoop_withPool (dev : Device) (guard : ℕ) (s : State) (pool : UInt64) :
    rawLoop dev guard { s with pool } =
      ((rawLoop dev guard s).1, { (rawLoop dev guard s).2 with pool }) := by
  induction guard generalizing s with
  | zero => rfl
  | succ guard ih =>
    unfold rawLoop
    dsimp only
    -- the flags alone decide how a look ends
    by_cases hcecs : (dev s.looks).cecs = true
    · simp only [if_pos hcecs]
    · by_cases hdrdy : (dev s.looks).drdy = true
      · simp only [if_neg hcecs, if_pos hdrdy]
      · simp only [if_neg hcecs, if_neg hdrdy]
        exact ih ⟨s.started, s.clockError, s.pool, s.looks + 1,
          if (dev s.looks).secs then s.restarts + 1 else s.restarts⟩

theorem rawLoop_pool (guard : ℕ) (s : State) : (rawLoop dev guard s).2.pool = s.pool := by
  have := rawLoop_withPool dev guard s s.pool
  exact (congrArg (fun r => r.2.pool) this :)

/-- What the peripheral gives does not depend on the pool. -/
theorem rngRaw_withPool (s : State) (pool : UInt64) :
    rngRaw dev { s with pool } = ((rngRaw dev s).1, { (rngRaw dev s).2 with pool }) :=
  rawLoop_withPool dev timeout (rngStart s) pool

/-- Raw word number `k` of a run. -/
def rawWord (dev : Device) (s : State) (k : ℕ) : UInt32 := (rngRaw dev ((foldRaw dev)^[k] s)).1

theorem foldRaw_pool (s : State) : (foldRaw dev s).pool = fold s.pool (rngRaw dev s).1 := by
  unfold foldRaw
  dsimp only
  rw [rngRaw, rawLoop_pool]
  rfl

/-- The pool is what comes of folding the raw words, in order. -/
theorem pool_iterate (dev : Device) (s : State) (k : ℕ) :
    ((foldRaw dev)^[k] s).pool = ((List.range k).map (rawWord dev s)).foldl fold s.pool := by
  induction k with
  | zero => rfl
  | succ k ih =>
    rw [iterate_succ_apply', foldRaw_pool, ih, List.range_succ, List.map_append, List.foldl_append]
    rfl

/-- States that differ in the pool alone go on doing so. -/
theorem iterate_withPool (dev : Device) (k : ℕ) (s : State) (pool : UInt64) :
    ∃ pool', (foldRaw dev)^[k] { s with pool } = { (foldRaw dev)^[k] s with pool := pool' } := by
  induction k with
  | zero => exact ⟨pool, rfl⟩
  | succ k ih =>
    obtain ⟨pool', ih⟩ := ih
    rw [iterate_succ_apply', iterate_succ_apply', ih]
    refine ⟨fold pool' (rngRaw dev ((foldRaw dev)^[k] s)).1, ?_⟩
    rw [foldRaw, rngRaw_withPool]
    rfl

theorem rawWord_withPool (k : ℕ) (s : State) (pool : UInt64) :
    rawWord dev { s with pool } k = rawWord dev s k := by
  obtain ⟨pool', h⟩ := iterate_withPool dev k s pool
  rw [rawWord, h, rngRaw_withPool]
  rfl

theorem calls_eq (dev : Device) (n : ℕ) (s : State) :
    calls dev n s = (foldRaw dev)^[mix * n] s := by
  rw [iterate_mul]
  rfl

/-- **A run of calls** folds four raw words for each. -/
theorem pool_calls (dev : Device) (n : ℕ) (s : State) :
    (calls dev n s).pool = ((List.range (mix * n)).map (rawWord dev s)).foldl fold s.pool := by
  rw [calls_eq, pool_iterate]

/-! ### Nothing is lost -/

theorem calls_bijective (dev : Device) (n : ℕ) (s : State) :
    Bijective fun pool => (calls dev n { s with pool }).pool := by
  have hrun : (fun pool => (calls dev n { s with pool }).pool) =
      fun pool => ((List.range (mix * n)).map (rawWord dev s)).foldl fold pool := by
    funext pool
    rw [pool_calls]
    congr 1
    exact List.map_congr_left fun k _ => rawWord_withPool k s pool
  rw [hrun]
  exact lossless_fold.foldl_bijective _

/-- Two runs in which one raw word is another one. -/
theorem pool_calls_ne {dev dev' : Device} {n k : ℕ} (hk : k < mix * n)
    (hword : rawWord dev s k ≠ rawWord dev' s k)
    (hrest : ∀ i < mix * n, i ≠ k → rawWord dev s i = rawWord dev' s i) :
    (calls dev n s).pool ≠ (calls dev' n s).pool := by
  have hget : ∀ (g : ℕ → UInt32) (i : ℕ),
      ((List.range (mix * n)).map g)[i]? = if i < mix * n then some (g i) else none := by
    intro g i
    split_ifs with hi
    · rw [List.getElem?_map, List.getElem?_range hi]
      rfl
    · exact List.getElem?_eq_none (by simpa using not_lt.mp hi)
  rw [pool_calls, pool_calls]
  refine lossless_fold.foldl_ne_of_differ (k := k) s.pool (by simp) ?_ fun i hi => ?_
  · rw [hget, hget, if_pos hk, if_pos hk]
    exact fun h => hword (Option.some.inj h)
  · rw [hget, hget]
    split_ifs with hlt
    · rw [hrest i hlt hi]
    · rfl

/-- **The random pool loses no entropy**: whatever the raw words are, any number of calls takes
different pools to different ones, and every pool is reached; another raw word anywhere makes
another pool; and the finaliser keeps apart what comes of different pools. -/
theorem pool_lossless :
    (∀ (dev : Device) (n : ℕ) (s : State),
      Bijective fun pool => (calls dev n { s with pool }).pool) ∧
    (∀ (dev dev' : Device) (n k : ℕ) (s : State), k < mix * n →
      rawWord dev s k ≠ rawWord dev' s k →
      (∀ i < mix * n, i ≠ k → rawWord dev s i = rawWord dev' s i) →
      (calls dev n s).pool ≠ (calls dev' n s).pool) ∧
    Bijective finalise ∧
    ∀ (dev : Device) (n : ℕ) (s : State) (p q : UInt64), p ≠ q →
      finalise (calls dev n { s with pool := p }).pool ≠
        finalise (calls dev n { s with pool := q }).pool := by
  refine ⟨calls_bijective, fun dev dev' n k s hk hword hrest => pool_calls_ne hk hword hrest,
    finalise_bijective, fun dev n s p q hpq heq => ?_⟩
  exact hpq ((calls_bijective dev n s).injective (finalise_bijective.injective heq))

/-- A peripheral that always has a word ready: its third one is `word`, and all others are zero. -/
def ready (word : UInt32) : Device := fun look =>
  ⟨false, false, true, if look = 2 then word else 0⟩

def fresh : State := ⟨false, false, 0, 0, 0⟩

theorem pool_ready_ne : (calls (ready 1) 1 fresh).pool ≠ (calls (ready 2) 1 fresh).pool :=
  pool_lossless.2.1 (ready 1) (ready 2) 1 2 fresh (by decide) (by decide +kernel)
    (by decide +kernel)

end Ch32h4.Rng
