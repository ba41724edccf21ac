import Ch32h4.TransitionSystem
import Ch32h4.Word
import Mathlib.Algebra.Order.Ring.Nat

/-!
# SysTick, `micros` and `delayMicroseconds`

`SysTick0_Handler`, `micros` and `delayMicroseconds` of `wiring_time.c`.  SysTick counts the bus
clock from zero to `CMP` and starts again, so `CNT` is the number of ticks since it was started
modulo the ticks of a millisecond, and at each start it sets its bit of `ISR`.

* `Clock` is the bus clock that `ch32h4_systick_init` divides.
* `machine` runs one core at the granularity of its single loads and stores: the counter, the
  bit, `s_millis`, `mstatus.MIE`, and a stack of frames, since a handler may preempt the code below
  it and another handler that one.  What the frames do outside of `micros` and of the tick handler,
  when interrupts arrive and when the core masks them is left open.
* `delayMicroseconds` runs over the samples that it takes of the counter.

The counter starts over only once the previous start has been counted: the tick is served less
than one millisecond late.
-/

namespace Ch32h4.Time

/-- `ch32h4_hclk`: every clock tree of the core gives the bus a whole number of MHz. -/
structure Clock where
  hclk : ℕ
  pos : 0 < hclk
  fits : hclk < 2 ^ 32
  whole : 1000000 ∣ hclk

/-- `s_ticks_per_ms`. -/
def Clock.ticksPerMs (clk : Clock) : ℕ := clk.hclk / 1000

/-- `s_ticks_per_us`. -/
def Clock.ticksPerUs (clk : Clock) : ℕ := clk.hclk / 1000000

/-! ### The tick handler and `micros` -/

/-- Where a frame stands: the access that it executes next. -/
inductive Pc where
  /-- Outside of `micros` and of the tick handler. -/
  | idle
  /-- `micros`: `state = __get_MSTATUS()`. -/
  | state
  /-- `__disable_irq()`.  From here on `state` is the bit of `mstatus` that was read. -/
  | disable (state : Bool)
  /-- `ms = s_millis`. -/
  | millis (state : Bool)
  /-- `cnt = SysTick0->CNT`. -/
  | cnt (state : Bool) (ms : ℕ)
  /-- `if (SysTick0->ISR & (1u << 0))`. -/
  | isr (state : Bool) (ms cnt : ℕ)
  /-- The second `cnt = SysTick0->CNT`, and `ms += 1u`. -/
  | recnt (state : Bool) (ms : ℕ)
  /-- `if (state & 0x8u) __enable_irq()`. -/
  | enable (state : Bool) (ms cnt : ℕ)
  /-- `return`. -/
  | result (ms cnt : ℕ)
  /-- `SysTick0_Handler`: the store of `SysTick0->ISR &= ~(1u << 0)`.  What it loaded before does
  not matter for the bit of this core, which the store clears. -/
  | clear
  /-- The load of `s_millis++`. -/
  | load
  /-- Its store, `ms` being what was loaded. -/
  | store (ms : ℕ)
  /-- `ch32h4_irq_exit()`, and the return. -/
  | exit
  deriving DecidableEq, Repr

/-- The frame is the tick handler's. -/
def Pc.isTick : Pc → Bool
  | .clear | .load | .store _ | .exit => true
  | _ => false

/-- The tick handler has cleared the bit of `ISR` and not yet stored the count. -/
def Pc.hasCleared : Pc → Bool
  | .load | .store _ => true
  | _ => false

/-- The code that runs, or that an interrupt has put aside. -/
structure Frame where
  pc : Pc
  /-- When its last call of `micros` began, in ticks. -/
  entered : ℕ
  deriving DecidableEq, Repr

/-- A call of `micros` that has returned. -/
structure Call where
  /-- When it began and ended, in ticks. -/
  entered : ℕ
  left : ℕ
  value : ℕ
  deriving DecidableEq, Repr

/-- One core and its SysTick.  `calls` are those of `micros` that have returned, the latest first;
the code does not know them. -/
structure State where
  /-- Ticks since `ch32h4_systick_init`. -/
  ticks : ℕ
  /-- This core's bit of `ISR`. -/
  pending : Bool
  /-- `s_millis`. -/
  millis : ℕ
  /-- `mstatus.MIE`. -/
  mie : Bool
  /-- The frame that runs, and those put aside, the latest first. -/
  run : Frame
  below : List Frame
  calls : List Call
  deriving DecidableEq, Repr

/-- Starts of the counter that `s_millis` does not count yet. -/
def State.owed (s : State) : ℕ :=
  (if s.pending then 1 else 0) + ((s.run :: s.below).filter (·.pc.hasCleared)).length

/-- The running frame goes on at `pc`. -/
def State.goto (s : State) (pc : Pc) : State :=
  { s with run := { s.run with pc := pc } }

/-- `SysTick0->CNT`. -/
def State.cnt (clk : Clock) (s : State) : ℕ := s.ticks % clk.ticksPerMs

/-- What `micros` returns: `ms * 1000ul + (cnt / s_ticks_per_us)`. -/
def microsValue (clk : Clock) (ms cnt : ℕ) : ℕ := (ms * 1000 + cnt / clk.ticksPerUs) % 2 ^ 32

/-- The next access of the frame that runs. -/
def State.access (clk : Clock) (s : State) : Option State :=
  match s.run.pc with
  | .idle => none
  | .state => some (s.goto (.disable s.mie))
  | .disable state => some ({ s with mie := false }.goto (.millis state))
  | .millis state => some (s.goto (.cnt state s.millis))
  | .cnt state ms => some (s.goto (.isr state ms (s.cnt clk)))
  | .isr state ms cnt =>
    some (s.goto (if s.pending then .recnt state ms else .enable state ms cnt))
  | .recnt state ms => some (s.goto (.enable state ((ms + 1) % 2 ^ 32) (s.cnt clk)))
  | .enable state ms cnt => some ({ s with mie := s.mie || state }.goto (.result ms cnt))
  | .result ms cnt =>
    some { s.goto .idle with
      calls := ⟨s.run.entered, s.ticks, microsValue clk ms cnt⟩ :: s.calls }
  | .clear => some ({ s with pending := false }.goto .load)
  | .load => some (s.goto (.store s.millis))
  | .store ms => some ({ s with millis := (ms + 1) % 2 ^ 32 }.goto .exit)
  | .exit => none

/-- One step of the counter or of the core. -/
inductive Action where
  /-- Some ticks pass, and the counter does not start over. -/
  | pass (n : ℕ)
  /-- The tick at which it does. -/
  | rollover
  /-- The tick interrupt is taken; `mie` is what the hardware leaves in `mstatus.MIE`. -/
  | tick (mie : Bool)
  /-- Another interrupt is taken. -/
  | interrupt (mie : Bool)
  /-- The running frame masks or unmasks interrupts. -/
  | mask (mie : Bool)
  /-- It calls `micros`. -/
  | call
  /-- It executes its next access. -/
  | access
  /-- The handler returns, and `mret` unmasks as it was. -/
  | return
  deriving DecidableEq, Repr

/-- A handler preempts the running frame. -/
def State.preempt (s : State) (pc : Pc) (mie : Bool) : State :=
  { s with run := ⟨pc, 0⟩, below := s.run :: s.below, mie := mie }

def step (clk : Clock) (s : State) : Action → Option State
  | .pass n => if s.cnt clk + n < clk.ticksPerMs then some { s with ticks := s.ticks + n } else none
  | .rollover =>
    if s.cnt clk + 1 = clk.ticksPerMs ∧ s.owed = 0 then
      some { s with ticks := s.ticks + 1, pending := true }
    else none
  | .tick mie =>
    -- a handler is not preempted by its own interrupt
    if s.mie ∧ s.pending ∧ ∀ f ∈ s.run :: s.below, ¬ f.pc.isTick then
      some (s.preempt .clear mie)
    else none
  | .interrupt mie => if s.mie then some (s.preempt .idle mie) else none
  | .mask mie => if s.run.pc = .idle then some { s with mie := mie } else none
  | .call =>
    if s.run.pc = .idle then some { s with run := ⟨.state, s.ticks⟩ } else none
  | .access => s.access clk
  | .return =>
    match s.below with
    | [] => none
    | f :: below =>
      if s.run.pc = .idle ∨ s.run.pc = .exit then
        some { s with run := f, below := below, mie := true }
      else none

/-- As `ch32h4_systick_init` leaves it. -/
def start : State where
  ticks := 0
  pending := false
  millis := 0
  mie := true
  run := ⟨.idle, 0⟩
  below := []
  calls := []

/-- One core and its counter, interleaved. -/
def machine (clk : Clock) : Machine State Action where
  init s := s = start
  step := step clk

/-! ### `delayMicroseconds` -/

/-- The moments at which the counter is read, in ticks, less than a reload period apart. -/
structure Samples (reload : ℕ) where
  time : ℕ → ℕ
  le : ∀ i, time i ≤ time (i + 1)
  lt : ∀ i, time (i + 1) < time i + reload

/-- `SysTick0->CNT` at a sample. -/
def Samples.cnt {reload : ℕ} (t : Samples reload) (i : ℕ) : ℤ := (t.time i % reload : ℕ)

/-- `elapsed`, as an arithmetic answers it. -/
def elapsed (arith : Arith) (reload prev now : ℤ) : Option ℤ :=
  if prev ≤ now then arith (now - prev)
  else (arith (reload - prev)).bind fun x => arith (x + now)

/-- The loop of `delayMicroseconds`, `prev` being the sample `i`: the sample that it returns at.
There is none where the fuel does not last or the arithmetic has no answer. -/
def delayLoop (arith : Arith) {reload : ℕ} (t : Samples reload) : ℕ → ℕ → ℤ → Option ℕ
  | 0, _, _ => none
  | fuel + 1, i, remaining =>
    if 0 < remaining then
      (elapsed arith reload (t.cnt i) (t.cnt (i + 1))).bind fun e =>
        if remaining ≤ e then some (i + 1)
        else (arith (remaining - e)).bind fun r => delayLoop arith t fuel (i + 1) r
    else some i

/-- `delayMicroseconds`: the sample that it returns at. -/
def delayMicroseconds (arith : Arith) (clk : Clock) (t : Samples clk.ticksPerMs) (fuel us : ℕ) :
    Option ℕ :=
  if us = 0 then some 0
  else (arith (us * clk.ticksPerUs)).bind fun remaining => delayLoop arith t fuel 0 remaining

end Ch32h4.Time
