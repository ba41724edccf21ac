import Ch32h4.TransitionSystem

/-!
# The I²C slave

Translation of `TwoWire::handleEvent`, and of the calls of a sketch that share its buffers.

The flags of the peripheral are set by what happens on the bus, and one call of `handleEvent` serves
one of them.  The clock is stretched while `ADDR` is set, while two received bytes are unread, and
while there is nothing to send, so the bus waits for the handler there; a STOP and the address
behind it do not wait.  A record is kept of the calls of the handlers of the sketch, of those that
were due, and of what was read by the master.
-/

namespace Ch32h4.Wire

/-- `TwoWire::BUFFER_LENGTH`. -/
abbrev bufferLength : ℕ := 128

/-- What a master does with the slave. -/
inductive Bus where
  | free
  /-- It has written so many bytes. -/
  | writing (bytes : List UInt8)
  | reading
  deriving DecidableEq

structure I2c where
  /-- `ADDR`, with `TRA`. -/
  addr : Option Bool
  stopf : Bool
  af : Bool
  /-- What was received and not read: in `DATAR`, and in the shift register behind it. -/
  rx : List UInt8
  /-- The byte to send next, in `DATAR`. -/
  tx : Option UInt8
  /-- The byte that is sent. -/
  shift : Option UInt8
  deriving DecidableEq

/-- A call of a handler of the sketch. -/
inductive Callback where
  /-- `_onReceive`, with what there is to read. -/
  | receive (bytes : List UInt8)
  /-- `_onRequest`. -/
  | request
  deriving DecidableEq

/-- What a master has read, and what `_onRequest` wrote for it. -/
structure Read where
  wrote : List UInt8
  served : List UInt8
  deriving DecidableEq

structure Slave where
  i2c : I2c
  /-- The first `_rxLen` bytes of `_rxBuf`. -/
  rxBuf : List UInt8
  rxIndex : ℕ
  /-- The first `_txLen` bytes of `_txBuf`. -/
  txBuf : List UInt8
  txIndex : ℕ
  bus : Bus
  /-- The calls of the handlers. -/
  calls : List Callback
  /-- The calls that the bus asks for. -/
  due : List Callback
  /-- The read that is going on, and those that are over. -/
  read : Option Read
  reads : List Read
  deriving DecidableEq

/-- The call that is due for what was written, if anything was begun. -/
def Bus.report : Bus → List Callback
  | .writing bytes => [.receive (bytes.take bufferLength)]
  | _ => []

namespace Slave

variable (s : Slave)

/-! ### The calls of the sketch -/

/-- `write`, with what it returns. -/
def write (data : UInt8) : Slave × ℕ :=
  if bufferLength ≤ s.txBuf.length then (s, 0) else ({ s with txBuf := s.txBuf ++ [data] }, 1)

/-- `write` of some bytes, which stops where one does not fit. -/
def writeAll (s : Slave) : List UInt8 → Slave
  | [] => s
  | b :: data => if (s.write b).2 = 0 then s else writeAll (s.write b).1 data

/-- `read`, with what it returns; -1 is `none`. -/
def readByte : Slave × Option UInt8 :=
  if s.rxBuf.length ≤ s.rxIndex then (s, none)
  else ({ s with rxIndex := s.rxIndex + 1 }, s.rxBuf[s.rxIndex]?)

/-! ### `handleEvent` -/

/-- A byte goes into `DATAR`, and on into the shift register if that is empty. -/
def setDATAR (b : UInt8) : Slave :=
  if s.i2c.shift = none then { s with i2c := { s.i2c with shift := some b } }
  else { s with i2c := { s.i2c with tx := some b } }

/-- `DATAR = (_txIndex < _txLen) ? _txBuf[_txIndex++] : 0xFF`. -/
def sendNext : Slave :=
  match s.txBuf[s.txIndex]? with
  | some b => { s with txIndex := s.txIndex + 1 }.setDATAR b
  | none => s.setDATAR 0xFF

/-- A master reads: `_onRequest` writes some bytes, of which the first goes into `DATAR`. -/
def onAddrRead (wrote : List UInt8) : Slave :=
  let s := { s with i2c := { s.i2c with addr := none }, txBuf := [], txIndex := 0 }
  let s := s.writeAll wrote
  { s with calls := s.calls ++ [Callback.request], read := some ⟨wrote, []⟩ }.sendNext

/-- A master writes. -/
def onAddrWrite : Slave :=
  { s with i2c := { s.i2c with addr := none }, rxBuf := [], rxIndex := 0 }

/-- A master has written. -/
def onStop : Slave :=
  let s := { s with i2c := { s.i2c with stopf := false } }
  if s.rxBuf = [] then s
  else { s with rxIndex := 0, calls := s.calls ++ [.receive s.rxBuf] }

/-- A byte is read from `DATAR`. -/
def onByte (b : UInt8) (rest : List UInt8) : Slave :=
  { s with
    i2c := { s.i2c with rx := rest }
    rxBuf := if s.rxBuf.length < bufferLength then s.rxBuf ++ [b] else s.rxBuf }

/-- `handleEvent(false)`, with what `_onRequest` writes if it is called. -/
def handleEvent (wrote : List UInt8) : Slave :=
  match s.i2c.addr with
  | some true => s.onAddrRead wrote
  | some false => s.onAddrWrite
  | none =>
    if s.i2c.stopf = true then s.onStop
    else
      match s.i2c.rx with
      | b :: rest => s.onByte b rest
      | [] => if s.bus = .reading ∧ s.i2c.tx = none then s.sendNext else s

/-- `handleEvent(true)`. -/
def handleError : Slave :=
  if s.i2c.af = true then { s with i2c := { s.i2c with af := false }, txBuf := [], txIndex := 0 }
  else s

/-! ### The bus -/

/-- The slave is addressed, after a START or a repeated one, which ends what was written. -/
def onBusAddress (read : Bool) : Slave :=
  { s with
    i2c := { s.i2c with addr := some read, tx := none, shift := none }
    bus := if read then .reading else .writing []
    due := s.due ++ s.bus.report ++ if read then [.request] else [] }

def onBusByte (bytes : List UInt8) (b : UInt8) : Slave :=
  { s with i2c := { s.i2c with rx := s.i2c.rx ++ [b] }, bus := .writing (bytes ++ [b]) }

def onBusStop : Slave :=
  { s with i2c := { s.i2c with stopf := true }, bus := .free, due := s.due ++ s.bus.report }

/-- The master has read a byte. -/
def onBusRead (b : UInt8) : Slave :=
  { s with
    i2c := { s.i2c with shift := s.i2c.tx, tx := none }
    read := s.read.map fun r => { r with served := r.served ++ [b] } }

/-- The master does not acknowledge the byte, and has read enough. -/
def onBusNack : Slave :=
  { s with
    i2c := { s.i2c with af := true }
    bus := .free
    read := none
    reads := s.reads ++ s.read.toList }

end Slave

inductive Action where
  | address (read : Bool)
  | byteIn (b : UInt8)
  | stop
  | byteOut
  | nack
  /-- The interrupt for the events, with what `_onRequest` writes. -/
  | event (wrote : List UInt8)
  /-- The interrupt for the errors. -/
  | error
  /-- The sketch reads a byte. -/
  | read
  deriving DecidableEq

/-- The bus goes on where the clock is not stretched. -/
def Slave.step (s : Slave) : Action → Option Slave
  | .address read =>
    if s.i2c.addr = none ∧ s.bus ≠ .reading ∧ s.i2c.rx.length < 2 then some (s.onBusAddress read)
    else none
  | .byteIn b =>
    match s.bus with
    | .writing bytes =>
      if s.i2c.addr = none ∧ s.i2c.rx.length < 2 then some (s.onBusByte bytes b) else none
    | _ => none
  | .stop =>
    match s.bus with
    | .writing _ =>
      if s.i2c.addr = none ∧ s.i2c.rx.length < 2 then some s.onBusStop else none
    | _ => none
  | .byteOut => if s.i2c.addr = none ∧ s.bus = .reading then s.i2c.shift.map s.onBusRead else none
  | .nack => if s.i2c.addr = none ∧ s.bus = .reading then some s.onBusNack else none
  | .event wrote => some (s.handleEvent wrote)
  | .error => some s.handleError
  | .read => some s.readByte.1

/-- The slave as `begin` leaves it. -/
def Slave.started : Slave where
  i2c := ⟨none, false, false, [], none, none⟩
  rxBuf := []
  rxIndex := 0
  txBuf := []
  txIndex := 0
  bus := .free
  calls := []
  due := []
  read := none
  reads := []

def machine : Machine Slave Action where
  init s := s = .started
  step := Slave.step

end Ch32h4.Wire
