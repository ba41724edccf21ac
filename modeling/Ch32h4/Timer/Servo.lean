import Ch32h4.Timer.Registry
import Ch32h4.TransitionSystem
import Mathlib.Data.Int.Notation

/-!
# RC servos

Translation of `Servo`.  A servo takes a channel of a timer that is free or that servos hold
already, and needs a frame of 20 ms, which the channels of a timer share.  `configured_timers` is
the `static` mask of `attach`.

`System` has any number of `Servo` objects besides the `Board`, and its actions are the calls of
their methods, and what the other owners do to timers: they claim, they program what they hold, and
they release.
-/

namespace Ch32h4.Timer

/-- `SERVO_TICK_HZ`. -/
def servoTickHz : ℕ := 1000000

/-- `REFRESH_INTERVAL`, in microseconds. -/
def refreshInterval : ℕ := 20000

/-- `INVALID_SERVO`. -/
def invalidServo : ℕ := 255

/-- The conversion to `uint16_t`. -/
def toUInt16 (n : ℤ) : ℕ :=
  (n % 65536).toNat

/-- `map` of `Common.cpp`. -/
def map (x in_min in_max out_min out_max : ℤ) : ℤ :=
  ((x - in_min) * (out_max - out_min)).tdiv (in_max - in_min) + out_min

/-- A `Servo`.  No pin is `(pin_size_t)-1`. -/
structure Servo where
  pin : Option ℕ := none
  timer : ℕ := 0
  channel : ℕ := 0
  af : ℕ := 0
  min : ℤ := 544
  max : ℤ := 2400
  pulse : ℤ := 1500
deriving DecidableEq, Repr

/-- The board, the servos, and the mask of the timers that were configured. -/
structure System (n : ℕ) where
  board : Board
  configured_timers : ℕ → Bool
  servos : Fin n → Servo

namespace Servo

def attached (servo : Servo) : Bool :=
  servo.timer ≠ 0

/-- What `writeMicroseconds` makes of a pulse. -/
def clamp (servo : Servo) (value : ℤ) : ℤ :=
  if value < servo.min then servo.min else if value > servo.max then servo.max else value

/-- The entry of the map that `attach` goes for. -/
def choose (v : Variant) (timers : Registry) (pin : ℕ) : Option PwmAf :=
  v.pwmAfMap.find? fun e =>
    e.pin = pin % 256 && !e.negated &&
      (timers.owner e.timer = .free || timers.owner e.timer = .servo)

/-- What the first servo on a timer writes to the prescaler. -/
def prescaler (v : Variant) : ℕ :=
  toUInt16 (v.hclk / servoTickHz - 1)

/-- What `attach` does to the timer, from the clock to `TIM_Cmd`. -/
def startTim (v : Variant) (first : Bool) (timer channel : ℕ) (pulse : ℤ) (dev : Tim) : Tim :=
  let dev := { dev with clock := true }
  let dev := if first then dev.reset.timeBaseInit (prescaler v) (refreshInterval - 1) else dev
  let dev := dev.ocInit channel ⟨true, false, toUInt16 pulse⟩
  let dev := if timer = 1 ∨ timer = 8 then dev.ctrlPWMOutputs true else dev
  dev.cmd true

end Servo

namespace System

variable {n : ℕ}

/-- Put a servo in its place. -/
def setServo (s : System n) (i : Fin n) (servo : Servo) : System n :=
  { s with servos := Function.update s.servos i servo }

def writeMicroseconds (s : System n) (i : Fin n) (value : ℤ) : System n :=
  let servo := { s.servos i with pulse := (s.servos i).clamp value }
  let s := s.setServo i servo
  if servo.attached then
    { s with
      board := s.board.onTim servo.timer (·.setCompare servo.channel (toUInt16 servo.pulse)) }
  else s

/-- `write`: an angle up to 180, above it a pulse width. -/
def write (s : System n) (i : Fin n) (value : ℤ) : System n :=
  let value := if value < 0 then 0 else value
  let value :=
    if value ≤ 180 then map value 0 180 (s.servos i).min (s.servos i).max else value
  s.writeMicroseconds i value

/-- `attach` once the timer is claimed. -/
def start (v : Variant) (s : System n) (i : Fin n) (pin : ℕ) (e : PwmAf) : System n :=
  let servo :=
    { s.servos i with pin := some pin, timer := e.timer, channel := e.channel, af := e.af }
  let s := s.setServo i servo
  let first := !s.configured_timers e.timer
  let board := s.board.onTim e.timer (Servo.startTim v first e.timer e.channel servo.pulse)
  let board := board.pinMode pin (.af e.af)
  let configured_timers := Function.update s.configured_timers e.timer true
  { s with board, configured_timers }.writeMicroseconds i servo.pulse

/-- `attach(pin, min, max)`, which returns the channel. -/
def attach (v : Variant) (s : System n) (i : Fin n) (pin min max : ℤ) : ℕ × System n :=
  if pin < 0 ∨ pin ≥ v.pinsCount then (invalidServo, s)
  else
    let s := s.setServo i { s.servos i with min, max }
    match Servo.choose v s.board.timers pin.toNat with
    | none => (invalidServo, s)
    | some e =>
      if e.timer = 0 then (invalidServo, s)
      else
        let claimed := s.board.timers.claim e.timer .servo
        if !claimed.1 then (invalidServo, s)
        else
          let s := { s with board := { s.board with timers := claimed.2 } }
          (e.channel, s.start v i pin.toNat e)

def detach (s : System n) (i : Fin n) : System n :=
  let servo := s.servos i
  if !servo.attached then s
  else
    -- An attached servo has its pin.
    let board := s.board.pinMode (servo.pin.getD 0) .input
    let board := { board with timers := board.timers.release servo.timer .servo }
    { s with board }.setServo i { servo with timer := 0, pin := none }

end System

/-- The owners that are not `Servo`. -/
abbrev Other := { o : Owner // o ≠ .free ∧ o ≠ .servo }

/-- The calls of the servos' methods, and what other owners do. -/
inductive Action (n : ℕ)
  | attach (i : Fin n) (pin min max : ℤ)
  | detach (i : Fin n)
  | write (i : Fin n) (value : ℤ)
  | writeMicroseconds (i : Fin n) (value : ℤ)
  | claim (o : Other) (timer : ℕ)
  /-- An owner sets the registers of its timer. -/
  | program (o : Other) (timer : ℕ) (dev : Tim)
  | release (o : Other) (timer : ℕ)

def System.act {n : ℕ} (v : Variant) (s : System n) : Action n → System n
  | .attach i pin min max => (s.attach v i pin min max).2
  | .detach i => s.detach i
  | .write i value => s.write i value
  | .writeMicroseconds i value => s.writeMicroseconds i value
  | .claim o timer =>
    { s with board := { s.board with timers := (s.board.timers.claim timer o).2 } }
  | .program o timer dev =>
    if s.board.timers.owner timer = o then { s with board := s.board.onTim timer fun _ => dev }
    else s
  | .release o timer =>
    { s with board := { s.board with timers := s.board.timers.release timer o } }

/-- Before the first call: no timer is owned, none was configured, no servo is attached.  The
registers hold what the last run of the program left. -/
def System.Fresh {n : ℕ} (s : System n) : Prop :=
  (∀ t, s.board.timers t = .free) ∧ (∀ t, s.configured_timers t = false) ∧
    ∀ i, s.servos i = {}

/-- Every order of the calls and of what other owners do. -/
def servoMachine (v : Variant) (n : ℕ) : Machine (System n) (Action n) where
  init := System.Fresh
  step s a := some (s.act v a)

end Ch32h4.Timer
