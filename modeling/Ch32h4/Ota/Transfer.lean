import Ch32h4.TransitionSystem
import Ch32h4.Update.Updater

/-!
# The transfer of an update

The receive loop of `ArduinoOTAClass::_runUpdate`, entered with an `Updater` that has begun and a
`client` that has connected, and the template `UpdaterClass::write` that it calls on the client.

A step is one look at the client: at the condition of the loop, at the condition of the inner loop
that waits, or at the condition of the loop of the template.  The stack runs while the loop waits,
prints or asks for what is available, so before every look some bytes may come in and the peer may
hang up; nothing comes in after that.  `read` does not let the stack run, so it returns as much as
the look before it has found.

The callbacks, and the reply behind a part written, do not show in the state.
-/

namespace Ch32h4.Ota

open Update

/-! ### The client -/

/-- An `EthernetClient`. -/
structure Client where
  /-- The context is there, and in the state `CONNECTED`. -/
  up : Bool
  /-- What has been received and not been read. -/
  rx : List UInt8

namespace Client

/-- The client behind `connect`. -/
def connect : Client := ⟨true, []⟩

/-- `EthernetClient::available`. -/
def available (c : Client) : ℕ := c.rx.length

/-- `EthernetClient::connected`. -/
def connected (c : Client) : Prop := c.up = true ∨ c.available > 0

instance (c : Client) : Decidable c.connected := inferInstanceAs (Decidable (_ ∨ _))

/-- `EthernetClient::read`, as what it leaves. -/
def read (c : Client) (size : ℕ) : Client := { c with rx := c.rx.drop size }

/-- `EthernetClient::stop`. -/
def stop : Client := ⟨false, []⟩

end Client

/-! ### The loop -/

/-- Note of a wait that is over. -/
structure Wait where
  /-- There was no data at the end of it. -/
  expired : Bool
  /-- It was taken for a failure to receive. -/
  failed : Bool
  deriving DecidableEq

/-- Where the loop is. -/
inductive Place where
  /-- The condition of the loop is next. -/
  | top
  /-- The condition of the inner loop is next. -/
  | waiting (waited : ℕ)
  /-- A look of `Update.write` is next. -/
  | writing (written : ℕ)
  /-- The loop has been left, and `Update.end` called. -/
  | left
  deriving DecidableEq

/-- What `write` counts so far. -/
def Place.written : Place → ℕ
  | .writing written => written
  | _ => 0

structure Transfer where
  u : Updater
  client : Client
  place : Place
  total : ℕ
  /-- Ghost: the bytes that came in. -/
  arrived : List UInt8
  /-- Ghost: the bytes that `write` counted. -/
  accepted : List UInt8
  /-- Ghost: the waits that are over, the last one first. -/
  waits : List Wait

/-- What comes in before a look, and what the flash driver and `malloc` answer behind it. -/
structure Event where
  bytes : List UInt8
  hangUp : Bool
  drv : Driver
  alloc : Bool
  null : Mem

/-- How much a turn of the loop of the template reads. -/
def toRead (u : Updater) (available : ℕ) : ℕ :=
  if u.buffer.length + available > bufferSize then bufferSize - u.buffer.length else available

namespace Transfer

/-- The first value of `waited`. -/
def patience : ℕ := 1000

/-- The stack runs. -/
def receive (t : Transfer) (e : Event) : Transfer :=
  if t.client.up then
    { t with client := ⟨!e.hangUp, t.client.rx ++ e.bytes⟩, arrived := t.arrived ++ e.bytes }
  else t

/-- Out of the loop. -/
def leave (b : Board) (t : Transfer) (e : Event) (evenIfRemaining : Bool) : Transfer :=
  { t with u := (t.u.end b e.drv evenIfRemaining e.alloc e.null).1, place := .left }

def note (t : Transfer) (failed : Bool) : Transfer :=
  { t with waits := ⟨t.client.available = 0, failed⟩ :: t.waits }

/-- What follows the inner loop, down to the loop of the template. -/
def waitOver (b : Board) (t : Transfer) (e : Event) (waited : ℤ) : Transfer :=
  if waited = 0 then { t.note true with client := .stop }.leave b e true
  else if t.u.error ≠ .ok ∨ ¬ t.u.isRunning then { t.note false with place := .top }
  else { t.note false with place := .writing 0 }

/-- The condition of the inner loop, `!client.available() && waited--`. -/
def look (b : Board) (t : Transfer) (e : Event) (waited : ℕ) : Transfer :=
  if t.client.available ≠ 0 then t.waitOver b e waited
  else if waited = 0 then t.waitOver b e (-1)
  else { t with place := .waiting (waited - 1) }

/-- `write` returns. -/
def wrote (t : Transfer) (written : ℕ) : Transfer :=
  { t with
    total := if written > 0 then (t.total + written) % 2 ^ 32 else t.total
    place := .top }

/-- A read of the template, and what the updater makes of it. -/
def take (t : Transfer) (available : ℕ) (r : Updater × ℕ × Bool) : Transfer :=
  { t with
    u := r.1
    client := t.client.read (toRead t.u available)
    accepted := t.accepted ++ t.client.rx.take r.2.1 }

/-- A turn of the loop of the template. -/
def turn (b : Board) (t : Transfer) (e : Event) (written : ℕ) : Transfer :=
  if t.client.available = 0 then t.wrote written
  else
    let available := t.u.clamp t.client.available
    let r := t.u.fromTurn b e.drv t.client.rx available
    if r.2.2 then { t.take available r with place := .writing (written + r.2.1) }
    else (t.take available r).wrote (written + r.2.1)

/-- The condition of the loop. -/
def head (b : Board) (t : Transfer) (e : Event) : Transfer :=
  if ¬ t.u.isFinished ∧ (t.client.connected ∨ t.client.available ≠ 0) then
    { t with place := .waiting patience }
  else t.leave b e false

def step (b : Board) (t : Transfer) (e : Event) : Option Transfer :=
  match t.place with
  | .top => some ((t.receive e).head b e)
  | .waiting waited => some ((t.receive e).look b e waited)
  | .writing written => some ((t.receive e).turn b e written)
  | .left => none

/-- The loop is entered. -/
def entered (u : Updater) : Transfer := ⟨u, .connect, .top, 0, [], [], []⟩

/-- How many waits in a row have ended without data, up to now. -/
def emptyWaits (t : Transfer) : ℕ := (t.waits.takeWhile Wait.expired).length

end Transfer

/-- Runs start behind a `begin` that returned true, and `setMD5`. -/
def transfer (b : Board) : Machine Transfer Event where
  init t := ∃ (u : Updater) (size : ℕ) (command : Command) (alloc : Option Mem) (md5 : List Char),
    u.past = false ∧ (u.begin b size command alloc).2 = true ∧
      t = .entered ((u.begin b size command alloc).1.setMD5 md5).1
  step := Transfer.step b

/-- The wait is not down to its last look: data was there at one of those before it. -/
def Timely (t : Transfer) (_ : Event) : Prop := t.place ≠ .waiting 0

instance (t : Transfer) (e : Event) : Decidable (Timely t e) := inferInstanceAs (Decidable (_ ≠ _))

end Ch32h4.Ota
