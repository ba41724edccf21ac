import Ch32h4.TransitionSystem

/-!
# The SPI slave

Translation of `SPISlaveClass` as it runs with a hardware chip select: `setData`, `handleIRQ` and
`handleCSRise`, and the part of the peripheral that they share a byte with.

The peripheral holds one byte ahead of the one that is on the wire, and one that was received.  A
byte on the wire begins with what it holds, if it holds anything; what it sends otherwise is not
queued by anyone.  The interrupts may be served at any time after what they are for, so they are
steps of their own.  Each byte carries the number of the `setData` that it came with, and a record
is kept of what was on the wire.
-/

namespace Ch32h4.SpiSlave

/-- `SPISlaveClass::BUFFER_LENGTH`. -/
abbrev bufferLength : ℕ := 256

/-- A byte to send, and the number of the `setData` it came with. -/
structure Queued where
  call : ℕ
  byte : UInt8
  deriving DecidableEq

/-- What was on the wire while the chip was selected. -/
structure Frame where
  /-- The last `setData` since the frame before, by number, with what it accepted. -/
  data : Option (ℕ × List UInt8)
  /-- The bytes that were sent; there is none where the peripheral held none. -/
  sent : List (Option Queued)
  received : List UInt8
  deriving DecidableEq

/-- The peripheral. -/
structure Spi where
  /-- The byte to send next, in `DATAR`; `TXE` is set if there is none. -/
  tx : Option Queued
  /-- The byte that is on the wire, if one is. -/
  shift : Option (Option Queued)
  /-- The byte that was received, in `DATAR`; `RXNE` is set if there is one. -/
  rx : Option UInt8
  /-- The interrupt for `TXE` is enabled. -/
  txie : Bool
  /-- The interrupt for the rising chip select is pending. -/
  rise : Bool
  deriving DecidableEq

structure Slave where
  spi : Spi
  /-- The first `_txLen` bytes of `_txBuf`. -/
  txBuf : List Queued
  txIndex : ℕ
  sentFired : Bool
  /-- The first `_rxLen` bytes of `_rxBuf`. -/
  rxBuf : List UInt8
  /-- How often `setData` has accepted something. -/
  calls : ℕ
  /-- The last `setData` since a frame began. -/
  data : Option (ℕ × List UInt8)
  /-- The frame that is going on. -/
  frame : Option Frame
  /-- The frames that are over. -/
  frames : List Frame
  /-- What `_recvCb` was called with. -/
  reports : List (List UInt8)
  /-- How often `_sentCb` was called. -/
  sents : ℕ
  deriving DecidableEq

namespace Slave

variable (s : Slave)

/-- `DATAR = _txBuf[_txIndex++]`. -/
def load : Slave :=
  { s with spi := { s.spi with tx := s.txBuf[s.txIndex]? }, txIndex := s.txIndex + 1 }

/-- `setData`, with what it returns; there are no bytes for a null pointer. -/
def setData (data : Option (List UInt8)) : Slave × ℕ :=
  match data with
  | none => (s, 0)
  | some data =>
    let data := data.take bufferLength
    let call := s.calls + 1
    let s := { s with
      spi := { s.spi with txie := false }
      txBuf := data.map (Queued.mk call)
      txIndex := 0
      sentFired := data.length = 0
      calls := call
      data := some (call, data) }
    let s := if 0 < data.length ∧ s.spi.tx = none then s.load else s
    let s := if s.txIndex < s.txBuf.length then { s with spi := { s.spi with txie := true } } else s
    (s, data.length)

/-- The first half of `handleIRQ`: `RXNE`. -/
def readByte : Slave :=
  match s.spi.rx with
  | none => s
  | some b =>
    { s with
      spi := { s.spi with rx := none }
      rxBuf := if s.rxBuf.length < bufferLength then s.rxBuf ++ [b] else s.rxBuf }

/-- Nothing is left to send: the interrupt is masked, and `_sentCb` called if it was not. -/
def mask : Slave :=
  { s with
    spi := { s.spi with txie := false }
    sentFired := true
    sents := if s.sentFired then s.sents else s.sents + 1 }

/-- The second half of `handleIRQ`: `TXE`. -/
def writeByte : Slave :=
  if s.spi.tx = none ∧ s.spi.txie = true then
    let s := if s.txIndex < s.txBuf.length then s.load else s
    if s.txBuf.length ≤ s.txIndex then s.mask else s
  else s

def handleIRQ : Slave := s.readByte.writeByte

/-- `handleCSRise`. -/
def handleCSRise : Slave :=
  let s := { s with spi := { s.spi with rise := false } }
  if s.rxBuf = [] then s
  else { s with rxBuf := [], txIndex := 0, sentFired := true, reports := s.reports ++ [s.rxBuf] }

/-! ### The wire -/

/-- A byte begins: what the peripheral holds goes into the shift register. -/
def byteBegins : Slave := { s with spi := { s.spi with shift := some s.spi.tx, tx := none } }

/-- A byte is over: it was sent, and another received, which is lost if there is one already. -/
def byteEnds (out : Option Queued) (b : UInt8) : Slave :=
  { s with
    spi := { s.spi with shift := none, rx := if s.spi.rx = none then some b else s.spi.rx }
    frame := s.frame.map fun f =>
      { f with sent := f.sent ++ [out], received := f.received ++ [b] } }

/-- The chip is selected. -/
def csFall : Slave := { s with frame := some ⟨s.data, [], []⟩, data := none }

/-- The chip is not selected any more. -/
def csRise (f : Frame) : Slave :=
  { s with spi := { s.spi with rise := true }, frame := none, frames := s.frames ++ [f] }

end Slave

inductive Action where
  | setData (data : Option (List UInt8))
  | csFall
  | byteBegins
  | byteEnds (b : UInt8)
  | csRise
  /-- An interrupt of the peripheral is served. -/
  | irq
  /-- The interrupt for the rising chip select is served. -/
  | csIrq

/-- `setData` is called between two frames, and the chip is selected for whole bytes. -/
def Slave.step (s : Slave) : Action → Option Slave
  | .setData data => if s.frame = none then some (s.setData data).1 else none
  | .csFall => if s.frame = none then some s.csFall else none
  | .byteBegins => if s.frame ≠ none ∧ s.spi.shift = none then some s.byteBegins else none
  | .byteEnds b => s.spi.shift.map fun out => s.byteEnds out b
  | .csRise => if s.spi.shift = none then s.frame.map s.csRise else none
  | .irq => some s.handleIRQ
  | .csIrq => if s.spi.rise = true then some s.handleCSRise else none

/-- The slave as `begin` leaves it. -/
def Slave.started : Slave where
  spi := ⟨none, none, none, false, false⟩
  txBuf := []
  txIndex := 0
  sentFired := true
  rxBuf := []
  calls := 0
  data := none
  frame := none
  frames := []
  reports := []
  sents := 0

def machine : Machine Slave Action where
  init s := s = .started
  step := Slave.step

end Ch32h4.SpiSlave
