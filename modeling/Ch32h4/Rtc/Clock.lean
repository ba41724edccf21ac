import Ch32h4.TransitionSystem
import Mathlib.Algebra.Order.Ring.Int
import Mathlib.Algebra.Order.Ring.Nat
import Mathlib.Logic.Function.Iterate

/-!
# The real-time clock

`ch32h4_rtc_get` and `ch32h4_rtc_set` of `ch32h4_rtc.c`.  The hardware is a counter of seconds and
a divider that counts down from `PRL` through each of them; the counter holds seconds since
2000-01-01, which `RTC_EPOCH_OFFSET` takes to and from Unix time.

* `Registers` are counter and divider, and `Registers.cycle` what one cycle of the oscillator does.
* `set` and `get` run with no cycle in between.
* `machine` runs `ch32h4_rtc_get` at the granularity of its half-word reads, with any number of
  cycles between two of them.  Which half of a register `RTC_GetCounter` and `RTC_GetDivider` read
  first is a parameter; their code is not here.

`time_t` has 64 bits, and no time here comes near to its ends.
-/

namespace Ch32h4.Rtc

/-- `RTC_EPOCH_OFFSET`: the seconds from 1970-01-01 to 2000-01-01. -/
def epochOffset : ℕ := 946684800

/-- What the clock runs from. -/
inductive Source where
  | lse
  | lsi
  | hse
  deriving DecidableEq, Repr

/-- `source_hz`. -/
def Source.hz : Source → ℕ
  | lse => 32768
  | lsi => 40000
  | hse => 25000000 / 512

/-! ### The hardware -/

/-- `CNT` and `DIV`. -/
@[ext]
structure Registers (src : Source) where
  cnt : ℕ
  div : ℕ
  cnt_lt : cnt < 2 ^ 32
  div_lt : div < src.hz

namespace Registers

variable {src : Source}

/-- A cycle of the oscillator: the divider counts down, and the counter up as it starts again. -/
def cycle (r : Registers src) : Registers src :=
  if h : r.div = 0 then
    { cnt := (r.cnt + 1) % 2 ^ 32
      div := src.hz - 1
      cnt_lt := Nat.mod_lt _ (by decide)
      div_lt := by cases src <;> decide }
  else
    { r with
      div := r.div - 1
      div_lt := by have := r.div_lt; omega }

/-- Cycles since 2000-01-01, as far as the counter knows. -/
def time (r : Registers src) : ℕ := r.cnt * src.hz + (src.hz - 1 - r.div)

/-- `RTC_SetCounter`. -/
def setCounter (r : Registers src) (x : ℕ) (hx : x < 2 ^ 32) : Registers src :=
  { r with cnt := x, cnt_lt := hx }

end Registers

/-! ### `ch32h4_rtc_get` and `ch32h4_rtc_set` -/

/-- `(time_t)((uint32_t)cnt + RTC_EPOCH_OFFSET)`. -/
def seconds (cnt : ℕ) : ℕ := (cnt + epochOffset) % 2 ^ 32

/-- The fraction of the second, from the divider. -/
def microseconds (src : Source) (div : ℕ) : ℕ :=
  let prl := src.hz - 1
  let elapsed := if div > prl then 0 else prl - div
  elapsed * 1000000 / src.hz % 2 ^ 32

/-- `ch32h4_rtc_get`, with no cycle in between; `running` is `s_source != CH32H4_RTC_SRC_NONE`. -/
def get {src : Source} (running : Bool) (r : Registers src) : Option (ℕ × ℕ) :=
  if running then some (seconds r.cnt, microseconds src r.div) else none

/-- `ch32h4_rtc_set`, with the answers of its two calls of `rtc_wait_write`. -/
def set {src : Source} (running before after : Bool) (r : Registers src) (t : ℤ) :
    Registers src × Bool :=
  if running = false then (r, false)
  else if t < epochOffset then (r, false)
  else if before = false then (r, false)
  else
    (r.setCounter (((t % 2 ^ 32 - epochOffset) % 2 ^ 32).toNat) (by omega), after)

/-! ### The reads of `ch32h4_rtc_get` -/

/-- Which half of a register is read first. -/
inductive Order where
  | low
  | high
  deriving DecidableEq, Repr

namespace Order

/-- The half that is read first. -/
def first : Order → ℕ → ℕ
  | low, x => x % 65536
  | high, x => x / 65536

/-- The other one. -/
def second : Order → ℕ → ℕ
  | low, x => x / 65536
  | high, x => x % 65536

/-- The word of the two halves, in the order they were read in. -/
def join : Order → ℕ → ℕ → ℕ
  | low, a, b => b * 65536 + a
  | high, a, b => a * 65536 + b

end Order

/-- The read that comes next. -/
inductive Pc where
  /-- Outside of `ch32h4_rtc_get`. -/
  | idle
  /-- The first half of `cnt = RTC_GetCounter()`, and the second. -/
  | cnt
  | cnt' (half : ℕ)
  /-- `div = RTC_GetDivider()`. -/
  | div (cnt : ℕ)
  | div' (cnt half : ℕ)
  /-- `again = RTC_GetCounter()`, and `while (cnt != again)`. -/
  | again (cnt div : ℕ)
  | again' (cnt div half : ℕ)
  deriving DecidableEq, Repr

/-- A call that has returned: when it began and ended, in cycles, and what it returned. -/
structure Call where
  entered : ℕ
  left : ℕ
  seconds : ℕ
  microseconds : ℕ
  deriving DecidableEq, Repr

/-- The clock, and the code that reads it.  `entered` and `began` are when the call and the present
round of its loop began, and `calls` are those that have returned, the latest first; the code does
not know them. -/
structure State (src : Source) where
  regs : Registers src
  pc : Pc
  entered : ℕ
  began : ℕ
  calls : List Call

inductive Action where
  /-- A cycle of the oscillator. -/
  | cycle
  /-- `ch32h4_rtc_get` is called. -/
  | call
  /-- It makes its next read. -/
  | read
  deriving DecidableEq, Repr

variable {src : Source}

/-- The next read, `oc` and `od` being the orders of the counter's halves and the divider's. -/
def State.read (oc od : Order) (s : State src) : Option (State src) :=
  match s.pc with
  | .idle => none
  | .cnt => some { s with pc := .cnt' (oc.first s.regs.cnt) }
  | .cnt' half => some { s with pc := .div (oc.join half (oc.second s.regs.cnt)) }
  | .div cnt => some { s with pc := .div' cnt (od.first s.regs.div) }
  | .div' cnt half => some { s with pc := .again cnt (od.join half (od.second s.regs.div)) }
  | .again cnt div => some { s with pc := .again' cnt div (oc.first s.regs.cnt) }
  | .again' cnt div half =>
    if cnt ≠ oc.join half (oc.second s.regs.cnt) then
      some { s with pc := .cnt, began := s.regs.time }
    else
      some { s with
        pc := .idle
        calls := ⟨s.entered, s.regs.time, seconds cnt, microseconds src div⟩ :: s.calls }

def step (oc od : Order) (s : State src) : Action → Option (State src)
  | .cycle => some { s with regs := s.regs.cycle }
  | .call =>
    if s.pc = .idle then
      some { s with pc := .cnt, entered := s.regs.time, began := s.regs.time }
    else none
  | .read => s.read oc od

/-- A clock that runs, and no call yet. -/
def start (r : Registers src) : State src where
  regs := r
  pc := .idle
  entered := 0
  began := 0
  calls := []

/-- The clock and the code, interleaved. -/
def machine (src : Source) (oc od : Order) : Machine (State src) Action where
  init s := ∃ r, s = start r
  step := step oc od

end Ch32h4.Rtc
