import Ch32h4.TransitionSystem
import Ch32h4.Timer.Pwm

/-!
# `tone` and `noTone`

Translation of `Tone.cpp`, and of the part of `ch32h4_timer.c` that dispatches the update interrupt
of a timer.  A call of the sketch is cut where an interrupt makes a difference: `tone_stop` before
it looks whether a tone is active, before it reads what timer that is, and before it detaches the
handler; `tone` between all the steps from where it attaches `tone_tick`.

`TIM_TimeBaseInit` generates an update event to load the prescaler, which latches the update flag.

`System` adds what the properties are about: the last tone that got a timer, how many of its periods
are over, whether `tone_tick` has stopped it, and who claimed a timer last.
-/

namespace Ch32h4.Timer

/-- The update interrupt of one timer. -/
structure Irq where
  /-- Whose handler `s_irq[id].fn` is. -/
  fn : Option Owner
  /-- `TIM_IT_Update` is enabled. -/
  enabled : Bool
  /-- The update flag. -/
  flag : Bool
  /-- `NVIC_EnableIRQ` was called for its line. -/
  line : Bool
deriving DecidableEq, Repr

/-- `ch32h4_timer_irqn` has a line for the timer. -/
def routed (timer : ℕ) : Bool := 2 ≤ timer && timer ≤ 5

/-- What a pad is set up as. -/
inductive Pad
  | reset
  /-- An alternate function drives the pad. -/
  | af (af : ℕ)
  | output (level : Bool)
deriving DecidableEq, Repr

namespace Tone

/-- `s_tone`. -/
structure Playing where
  pin : ℕ
  timer : ℕ
  channel : ℕ
  remaining_ms : ℕ
  active : Bool
deriving DecidableEq, Repr

/-- A call of `tone` that has its timer. -/
structure Call where
  pin : ℕ
  frequency : ℕ
  duration : ℕ
  timer : ℕ
deriving DecidableEq, Repr

/-- What a call does after `tone_stop`. -/
inductive After
  | done
  | tone (pin frequency duration : ℕ)
deriving DecidableEq, Repr

/-- Where the sketch is. -/
inductive Place
  | idle
  /-- `tone_stop` looks whether a tone is active next. -/
  | stop (k : After)
  /-- It reads the timer next. -/
  | device (k : After)
  /-- It has the registers of `dev`, and detaches the handler next. -/
  | halt (k : After) (dev : ℕ)
  /-- `ch32h4_timer_attach_irq` next. -/
  | attach (c : Call)
  /-- `TIM_ITConfig` next. -/
  | unmask (c : Call)
  /-- `NVIC_EnableIRQ` next. -/
  | line (c : Call)
  /-- `remaining_ms` gets the number of periods next. -/
  | count (c : Call)
  /-- It gets one if it is zero next. -/
  | floor (c : Call)
  /-- `TIM_Cmd` next. -/
  | go (c : Call)
deriving DecidableEq, Repr

structure System where
  s_tone : Playing
  timers : Registry
  tim : ℕ → Tim
  irq : ℕ → Irq
  pads : ℕ → Pad
  place : Place
  /-- Who claimed a timer last. -/
  last : ℕ → Owner
  /-- The last call that got a timer. -/
  call : Option Call
  /-- The periods of its tone that are over. -/
  periods : ℕ
  /-- `tone_tick` has stopped it. -/
  rang : Bool

/-! ### The registers -/

/-- `prescaler` and `top`. -/
def timeBase (clock frequency : ℕ) : ℕ × ℕ :=
  let top := 1000
  let prescaler := Pwm.divu clock (frequency * top % 4294967296)
  if prescaler = 0 then
    let top := clock / frequency
    (1, if top > 0xFFFF then 0xFFFF else top)
  else if prescaler > 0x10000 then (0x10000, top)
  else (prescaler, top)

/-- `(uint16_t)(prescaler - 1u)`. -/
def prescaler (clock frequency : ℕ) : ℕ :=
  ((timeBase clock frequency).1 + 4294967295) % 4294967296 % 65536

/-- `(uint16_t)(top - 1u)`. -/
def reload (clock frequency : ℕ) : ℕ :=
  ((timeBase clock frequency).2 + 4294967295) % 4294967296 % 65536

/-- The number of periods, before it is made one at least. -/
def periods (c : Call) : ℕ :=
  c.duration * c.frequency % 4294967296 / 1000

/-- What `tone` does to the timer until it attaches the handler. -/
def program (clock frequency timer channel : ℕ) (dev : Tim) : Tim :=
  let dev := { dev with clock := true }.reset.timeBaseInit (prescaler clock frequency)
    (reload clock frequency)
  let dev := dev.ocInit channel ⟨true, false, (timeBase clock frequency).2 / 2 % 65536⟩
  if timer = 1 ∨ timer = 8 then dev.ctrlPWMOutputs true else dev

/-! ### Stopping -/

namespace System

/-- Access one timer's registers.  There is no timer 0: it stands for the null pointer. -/
def onTim (s : System) (timer : ℕ) (f : Tim → Tim) : System :=
  { s with tim := Function.update s.tim timer (f (s.tim timer)) }

def onIrq (s : System) (timer : ℕ) (f : Irq → Irq) : System :=
  { s with irq := Function.update s.irq timer (f (s.irq timer)) }

/-- `ch32h4_timer_detach_irq`. -/
def detachIrq (s : System) (id : ℕ) : System :=
  if valid id then s.onIrq id fun irq => { irq with fn := none, enabled := false } else s

/-- `tone_stop` from where it detaches the handler. -/
def halt (s : System) (dev : ℕ) : System :=
  let s := s.detachIrq s.s_tone.timer
  let s := s.onTim dev (·.cmd false)
  { s with
    timers := s.timers.release s.s_tone.timer .tone
    pads := Function.update s.pads s.s_tone.pin (.output false)
    s_tone := { s.s_tone with active := false, timer := 0 } }

/-- `tone_stop` in the interrupt. -/
def toneStop (s : System) : System :=
  if !s.s_tone.active then s else s.halt s.s_tone.timer

def toneTick (s : System) (timer : ℕ) : System :=
  if !s.s_tone.active || s.s_tone.timer ≠ timer || s.s_tone.remaining_ms = 0 then s
  else
    let s := { s with s_tone := { s.s_tone with remaining_ms := s.s_tone.remaining_ms - 1 } }
    if s.s_tone.remaining_ms = 0 then { s with rang := true }.toneStop else s

/-- `timer_dispatch`.  What a handler of somebody else does is not modelled. -/
def dispatch (s : System) (id : ℕ) : System :=
  if !((s.irq id).flag && (s.irq id).enabled) then s
  else
    let s := s.onIrq id fun irq => { irq with flag := false }
    if (s.irq id).fn = some .tone then s.toneTick id else s

/-! ### Starting -/

/-- The loop over the map of the pins. -/
def find (v : Variant) (timers : Registry) (pin : ℕ) : Option PwmAf :=
  v.pwmAfMap.find? fun e => e.pin = pin && !e.negated && timers.owner e.timer = .free

/-- `tone` once the timer is claimed, until it attaches the handler. -/
def configure (v : Variant) (s : System) (e : PwmAf) (c : Call) : System :=
  { s with
    s_tone := ⟨c.pin, e.timer, e.channel, c.duration, true⟩
    tim := Function.update s.tim e.timer
      (program v.hclk c.frequency e.timer e.channel (s.tim e.timer))
    irq := Function.update s.irq e.timer { s.irq e.timer with enabled := false, flag := true }
    pads := Function.update s.pads c.pin (.af e.af)
    place := if c.duration = 0 then .go c else if routed e.timer then .attach c else .count c
    last := Function.update s.last e.timer .tone
    call := some c
    periods := 0
    rang := false }

/-- `tone` from where it looks for a timer. -/
def start (v : Variant) (s : System) (pin frequency duration : ℕ) : System :=
  match find v s.timers pin with
  | none => { s with place := .idle }
  | some e =>
    let claimed := s.timers.claim e.timer .tone
    if !claimed.1 then { s with place := .idle }
    else { s with timers := claimed.2 }.configure v e ⟨pin, frequency, duration, e.timer⟩

/-- After `tone_stop`. -/
def resume (v : Variant) (s : System) : After → System
  | .done => { s with place := .idle }
  | .tone pin frequency duration => s.start v pin frequency duration

def noTone (s : System) (pin : ℕ) : System :=
  if s.s_tone.active && s.s_tone.pin = pin then { s with place := .stop .done } else s

def tone (v : Variant) (s : System) (pin frequency duration : ℕ) : System :=
  if pin ≥ v.pinsCount ∨ frequency = 0 then s.noTone pin
  else if s.s_tone.active then { s with place := .stop (.tone pin frequency duration) }
  else s.start v pin frequency duration

/-- The next step of the call in progress. -/
def sketch (v : Variant) (s : System) : Option System :=
  match s.place with
  | .idle => none
  | .stop k => some (if !s.s_tone.active then s.resume v k else { s with place := .device k })
  | .device k => some { s with place := .halt k s.s_tone.timer }
  | .halt k dev => some ((s.halt dev).resume v k)
  | .attach c =>
    some { s.onIrq c.timer (fun irq => { irq with fn := some .tone }) with place := .unmask c }
  | .unmask c =>
    some { s.onIrq c.timer (fun irq => { irq with enabled := true }) with place := .line c }
  | .line c =>
    some { s.onIrq c.timer (fun irq => { irq with line := true }) with place := .count c }
  | .count c =>
    some { s with s_tone := { s.s_tone with remaining_ms := Tone.periods c }, place := .floor c }
  | .floor c => some { s with
      s_tone := { s.s_tone with
        remaining_ms := if s.s_tone.remaining_ms = 0 then 1 else s.s_tone.remaining_ms }
      place := .go c }
  | .go c => some { s.onTim c.timer (·.cmd true) with place := .idle }

/-! ### The machine -/

/-- The owners that are not `tone`. -/
abbrev Other := { o : Owner // o ≠ .free ∧ o ≠ .tone }

inductive Action
  | tone (pin frequency duration : ℕ)
  | noTone (pin : ℕ)
  /-- The call in progress goes on. -/
  | sketch
  /-- A period of a running timer is over. -/
  | update (timer : ℕ)
  /-- The interrupt of a timer is taken. -/
  | serve (timer : ℕ)
  | claim (o : Other) (timer : ℕ)
  /-- An owner sets the registers of its timer, and its interrupt. -/
  | program (o : Other) (timer : ℕ) (dev : Tim) (enabled flag line : Bool)
  | release (o : Other) (timer : ℕ)

/-- Claims of the other owners succeed or change nothing. -/
def claim (s : System) (o : Owner) (timer : ℕ) : System :=
  let claimed := s.timers.claim timer o
  if claimed.1 then
    { s with timers := claimed.2, last := Function.update s.last timer o }
  else s

/-- Calls begin where none is in progress; interrupts are taken anywhere. -/
def act (v : Variant) (s : System) : Action → Option System
  | .tone pin frequency duration =>
    if s.place = .idle then some (s.tone v pin frequency duration) else none
  | .noTone pin => if s.place = .idle then some (s.noTone pin) else none
  | .sketch => s.sketch v
  | .update timer =>
    if (s.tim timer).enabled then
      some { s.onIrq timer (fun irq => { irq with flag := true }) with
        periods := if s.s_tone.active && s.s_tone.timer = timer then s.periods + 1
          else s.periods }
    else none
  | .serve timer =>
    if (s.irq timer).line && (s.irq timer).enabled && (s.irq timer).flag then
      some (s.dispatch timer)
    else none
  | .claim o timer => if s.place = .idle then some (s.claim o timer) else none
  | .program o timer dev enabled flag line =>
    if s.place = .idle ∧ s.timers.owner timer = o then
      some { s with
        tim := Function.update s.tim timer dev
        irq := Function.update s.irq timer ⟨some o, enabled, flag, line⟩ }
    else none
  | .release o timer =>
    if s.place = .idle then some { s with timers := s.timers.release timer o } else none

/-- No timer is owned. -/
structure Fresh (s : System) : Prop where
  free : ∀ t, s.timers t = .free
  never : ∀ t, s.last t = .free
  silent : s.s_tone.active = false
  unattached : ∀ t, (s.irq t).fn = none
  idle : s.place = .idle
  noCall : s.call = none
  quiet : s.rang = false

end System

/-- The core with its sketch, and the other owners of timers. -/
def machine (v : Variant) : Machine System System.Action where
  init s := s.Fresh
  step s a := s.act v a

end Tone

end Ch32h4.Timer
