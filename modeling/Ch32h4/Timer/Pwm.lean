import Ch32h4.Timer.Servo
import Mathlib.Data.Finset.Basic

/-!
# `analogWrite` and `analogWriteStop`

Translation of the output half of `wiring_analog.c` and of the two searches of the pin map it uses:
`pwmFind`, which takes a timer that PWM holds before a free one and never a complementary output,
and `pwmFindActive`, which takes the first entry whose timer PWM holds.  `s_pwm_chan_active` says
what channels of a timer are in use.

`System` adds what the pins were given: the entry that `analogWrite` last configured for a pin that
was not stopped since.  The actions are the calls, and what the other owners of timers do.
-/

namespace Ch32h4.Timer

/-- One converter of the DAC. -/
structure Dac where
  started : Bool
  data : ℕ
deriving DecidableEq, Repr

/-- The state of `wiring_analog.c`, with the hardware. -/
structure Pwm where
  board : Board
  /-- The two converters, by channel. -/
  dac : ℕ → Dac
  s_pwm_hz : ℕ
  s_write_bits : ℕ
  /-- The bits that are set for a timer. -/
  s_pwm_chan_active : ℕ → Finset ℕ

/-! ### Searching the map -/

/-- `ch32h4_dac_channel`. -/
def dacChannel (v : Variant) (pin : ℕ) : ℕ :=
  if pin = v.pinDac1 then 1 else if pin = v.pinDac2 then 2 else 0

/-- `ch32h4_pin_has_dac`. -/
def pinHasDac (v : Variant) (pin : ℕ) : Bool :=
  dacChannel v pin ≠ 0

/-- The loop of `ch32h4_pwm_find`. -/
def pwmFindLoop (timers : Registry) (pin : ℕ) : Option PwmAf → List PwmAf → Option PwmAf
  | first_free, [] => first_free
  | first_free, e :: es =>
    if e.pin ≠ pin then pwmFindLoop timers pin first_free es
    else if e.negated then pwmFindLoop timers pin first_free es
    else if timers.owner e.timer = .pwm then some e
    else if timers.owner e.timer = .free ∧ first_free = none then pwmFindLoop timers pin (some e) es
    else pwmFindLoop timers pin first_free es

/-- `ch32h4_pwm_find`. -/
def pwmFind (v : Variant) (timers : Registry) (pin : ℕ) : Option PwmAf :=
  pwmFindLoop timers pin none v.pwmAfMap

/-- `ch32h4_pwm_find_active`. -/
def pwmFindActive (v : Variant) (timers : Registry) (pin : ℕ) : Option PwmAf :=
  v.pwmAfMap.find? fun e => e.pin = pin && timers.owner e.timer = .pwm

/-! ### The DAC -/

namespace Pwm

/-- `ch32h4_dac_write`. -/
def dacWrite (v : Variant) (s : Pwm) (pin code : ℕ) : Pwm :=
  let ch := dacChannel v pin
  let board := if (s.dac ch).started then s.board else s.board.pinMode pin .analog
  { s with board, dac := Function.update s.dac ch ⟨true, if code > 4095 then 4095 else code⟩ }

/-- `ch32h4_dac_stop`. -/
def dacStop (v : Variant) (s : Pwm) (pin : ℕ) : Pwm :=
  let ch := dacChannel v pin
  if !(s.dac ch).started then s
  else { s with dac := Function.update s.dac ch { s.dac ch with started := false } }

/-! ### The timers -/

/-- The largest value at the current resolution. -/
def top (s : Pwm) : ℕ :=
  1 <<< s.s_write_bits - 1

/-- What becomes of a value out of range. -/
def clip (s : Pwm) (value : ℤ) : ℕ :=
  if value < 0 then 0 else if value.toNat > s.top then s.top else value.toNat

/-- The division of the core: by zero it gives all ones. -/
def divu (a b : ℕ) : ℕ :=
  if b = 0 then 4294967295 else a / b

/-- The prescaler that `pwm_configure_timebase` sets. -/
def prescaler (v : Variant) (s : Pwm) : ℕ :=
  let prescaler := divu v.hclk (s.s_pwm_hz * (s.top + 1) % 4294967296)
  let prescaler := if prescaler = 0 then 1 else prescaler
  let prescaler := if prescaler > 0x10000 then 0x10000 else prescaler
  prescaler - 1

/-- What `analogWrite` does to the timer. -/
def startTim (v : Variant) (s : Pwm) (af : PwmAf) (value : ℕ) (dev : Tim) : Tim :=
  let first := s.s_pwm_chan_active af.timer = ∅
  let dev :=
    if first then
      { dev with clock := true }.reset.timeBaseInit (s.prescaler v) (s.top % 65536)
    else dev
  let dev := dev.ocInit af.channel ⟨!af.negated, af.negated, value % 65536⟩
  let dev := if af.timer = 1 ∨ af.timer = 8 then dev.ctrlPWMOutputs true else dev
  dev.cmd true

/-- `analogWrite` once the timer is claimed. -/
def start (v : Variant) (s : Pwm) (pin : ℕ) (af : PwmAf) (value : ℤ) : Pwm :=
  let board := s.board.onTim af.timer (s.startTim v af (s.clip value))
  let board := board.pinMode pin (.af af.af)
  { s with
    board
    s_pwm_chan_active := Function.update s.s_pwm_chan_active af.timer
      (insert af.channel (s.s_pwm_chan_active af.timer)) }

def analogWrite (v : Variant) (s : Pwm) (pin : ℕ) (value : ℤ) : Pwm :=
  if pin ≥ v.pinsCount then s
  else if pinHasDac v pin then
    s.dacWrite v pin ((s.clip value * 4095 + s.top / 2) / s.top % 65536)
  else
    match pwmFind v s.board.timers pin with
    | none => s
    | some af =>
      let claimed := s.board.timers.claim af.timer .pwm
      if !claimed.1 then s
      else { s with board := { s.board with timers := claimed.2 } }.start v pin af value

/-- `analogWriteStop` once the channel is found. -/
def finish (s : Pwm) (pin : ℕ) (af : PwmAf) : Pwm :=
  let channels := (s.s_pwm_chan_active af.timer).erase af.channel
  let board := s.board.pinMode pin .input
  let s_pwm_chan_active := Function.update s.s_pwm_chan_active af.timer channels
  if channels = ∅ then
    let board := board.onTim af.timer (·.cmd false)
    { s with
      board := { board with timers := board.timers.release af.timer .pwm }
      s_pwm_chan_active }
  else { s with board, s_pwm_chan_active }

def analogWriteStop (v : Variant) (s : Pwm) (pin : ℕ) : Pwm :=
  if pin ≥ v.pinsCount then s
  else if pinHasDac v pin then s.dacStop v pin
  else
    match pwmFindActive v s.board.timers pin with
    | none => s
    | some af => if s.board.timers.owner af.timer ≠ .pwm then s else s.finish pin af

def analogWriteFrequency (s : Pwm) (hz : ℕ) : Pwm :=
  if hz > 0 then { s with s_pwm_hz := hz } else s

def analogWriteResolution (s : Pwm) (bits : ℤ) : Pwm :=
  if bits ≥ 1 ∧ bits ≤ 16 then { s with s_write_bits := bits.toNat } else s

/-- The entry that `analogWrite` configures. -/
def configured (v : Variant) (s : Pwm) (pin : ℕ) : Option PwmAf :=
  if pin ≥ v.pinsCount ∨ pinHasDac v pin then none
  else (pwmFind v s.board.timers pin).filter fun af => (s.board.timers.claim af.timer .pwm).1

/-- The entry that `analogWriteStop` clears. -/
def stopped (v : Variant) (s : Pwm) (pin : ℕ) : Option PwmAf :=
  if pin ≥ v.pinsCount ∨ pinHasDac v pin then none else pwmFindActive v s.board.timers pin

/-! ### The system -/

/-- `Pwm` with what the pins were given. -/
structure System where
  pwm : Pwm
  /-- What `analogWrite` last configured for a pin that was not stopped since. -/
  active : ℕ → Option PwmAf

/-- The owners that are not PWM. -/
abbrev Other := { o : Owner // o ≠ .free ∧ o ≠ .pwm }

inductive Action
  | write (pin : ℕ) (value : ℤ)
  | stop (pin : ℕ)
  | frequency (hz : ℕ)
  | resolution (bits : ℤ)
  | claim (o : Other) (timer : ℕ)
  /-- An owner sets the registers of its timer. -/
  | program (o : Other) (timer : ℕ) (dev : Tim)
  | release (o : Other) (timer : ℕ)

/-- What an owner that is not PWM does to the board. -/
def onBoard (s : Pwm) (f : Board → Board) : Pwm :=
  { s with board := f s.board }

def System.act (v : Variant) (s : System) : Action → System
  | .write pin value => ⟨s.pwm.analogWrite v pin value,
      if (s.pwm.configured v pin).isSome then
        Function.update s.active pin (s.pwm.configured v pin)
      else s.active⟩
  | .stop pin => ⟨s.pwm.analogWriteStop v pin, Function.update s.active pin none⟩
  | .frequency hz => { s with pwm := s.pwm.analogWriteFrequency hz }
  | .resolution bits => { s with pwm := s.pwm.analogWriteResolution bits }
  | .claim o timer =>
    { s with pwm := s.pwm.onBoard fun b => { b with timers := (b.timers.claim timer o).2 } }
  | .program o timer dev =>
    if s.pwm.board.timers.owner timer = o then
      { s with pwm := s.pwm.onBoard (·.onTim timer fun _ => dev) }
    else s
  | .release o timer =>
    { s with pwm := s.pwm.onBoard fun b => { b with timers := b.timers.release timer o } }

/-- Before the first call: no timer is owned, no channel is in use, no pin was given one. -/
def System.Fresh (s : System) : Prop :=
  (∀ t, s.pwm.board.timers t = .free) ∧ (∀ t, s.pwm.s_pwm_chan_active t = ∅) ∧
    ∀ p, s.active p = none

/-- Every order of the calls and of what other owners do. -/
def machine (v : Variant) : Machine System Action where
  init := System.Fresh
  step s a := some (s.act v a)

end Pwm

end Ch32h4.Timer
