import Mathlib.Algebra.Order.Ring.Nat
import Mathlib.Data.Nat.Notation

/-!
# The random pool

The raw words of the noise source carry about ten bits of entropy each, so `ch32h4_rng_u32` folds
four of them into a pool of 64 bits that it keeps from call to call, and hands out the lower half
of a mix of the pool.

The peripheral is a sequence of answers, one for each time that its flags are looked at.
-/

namespace Ch32h4.Rng

/-! ### Raw words -/

/-- `CH32H4_RNG_MIX`. -/
def mix : ℕ := 4

/-- `CH32H4_RNG_TIMEOUT`. -/
def timeout : ℕ := 200000

/-- The flags of the peripheral, and what is in its data register. -/
structure Flags where
  /-- `RNG_FLAG_SECS`; the generator is restarted. -/
  secs : Bool
  /-- `RNG_FLAG_CECS`. -/
  cecs : Bool
  /-- `RNG_FLAG_DRDY`. -/
  drdy : Bool
  word : UInt32

/-- The peripheral: its flags, each time that they are looked at. -/
abbrev Device := ℕ → Flags

/-- `s_started`, `s_clock_error` and `s_pool`. -/
structure State where
  started : Bool
  clockError : Bool
  pool : UInt64
  /-- How many times the flags have been looked at. -/
  looks : ℕ
  /-- How many times the generator was restarted. -/
  restarts : ℕ

def rngStart (s : State) : State := { s with started := true }

/-- The loop of `ch32h4_rng_raw_unsafe`, with what is left of the guard. -/
def rawLoop (dev : Device) : ℕ → State → UInt32 × State
  | 0, s => (0, { s with clockError := true })
  | guard + 1, s =>
    let flags := dev s.looks
    let s := { s with
      looks := s.looks + 1
      restarts := if flags.secs then s.restarts + 1 else s.restarts }
    if flags.cecs then (0, { s with clockError := true })
    else if flags.drdy then (flags.word, s)
    else rawLoop dev guard s

/-- `ch32h4_rng_raw_unsafe`. -/
def rngRaw (dev : Device) (s : State) : UInt32 × State := rawLoop dev timeout (rngStart s)

/-- `ch32h4_rng_ok`. -/
def rngOk (s : State) : Bool × State := (!s.clockError, rngStart s)

/-! ### The pool -/

/-- A raw word goes into the pool. -/
def fold (pool : UInt64) (raw : UInt32) : UInt64 :=
  let pool := pool ^^^ raw.toUInt64
  let pool := pool * 0x9E3779B97F4A7C15
  (pool <<< 31) ||| (pool >>> 33)

/-- The mix of the pool, before it is cut to what is handed out. -/
def finalise (z : UInt64) : UInt64 :=
  let z := z ^^^ z >>> 30
  let z := z * 0xBF58476D1CE4E5B9
  let z := z ^^^ z >>> 27
  let z := z * 0x94D049BB133111EB
  z ^^^ z >>> 31

/-- One turn of the loop of `ch32h4_rng_u32`. -/
def foldRaw (dev : Device) (s : State) : State :=
  let r := rngRaw dev s
  { r.2 with pool := fold r.2.pool r.1 }

/-- `ch32h4_rng_u32`. -/
def rngU32 (dev : Device) (s : State) : UInt32 × State :=
  let s := (foldRaw dev)^[mix] s
  ((finalise s.pool).toUInt32, s)

/-- `ch32h4_rng_u64`; the first word is the upper half. -/
def rngU64 (dev : Device) (s : State) : UInt64 × State :=
  let high := rngU32 dev s
  let low := rngU32 dev high.2
  (high.1.toUInt64 <<< 32 ||| low.1.toUInt64, low.2)

/-- The state after `n` calls of `ch32h4_rng_u32`. -/
def calls (dev : Device) (n : ℕ) (s : State) : State := (fun s => (rngU32 dev s).2)^[n] s

end Ch32h4.Rng
