import Ch32h4.I2s.Port
import Ch32h4.TransitionSystem

/-!
# The DMA and its interrupt

`System` is a running port with the engine that goes round its buffer: `pos` is the address of the
next half-word, `ht` and `tc` are the flags of `INTFR`, and `handler` is how far the interrupt has
got.  It reads the flags, clears them, and calls `_dmaHalfComplete`; the engine goes on meanwhile,
and raises a flag whenever it comes to the end of a half.

Beside them stands what has happened: the halves that the engine has completed, as they went over
the wire, what the interrupt did with each, what the sketch has put in or taken out, and what
`getUnderflows` has returned.
-/

namespace Ch32h4.I2s

/-- How far the interrupt has got. -/
inductive Handler
  | idle
  /-- The flags are read; the half-transfer flag was set or not. -/
  | reading (ht : Bool)
  /-- The flags are cleared. -/
  | cleared (ht : Bool)
deriving DecidableEq, Repr

/-- A running port. -/
structure System where
  port : I2S
  mem : Memory
  pos : ℕ
  ht : Bool
  tc : Bool
  handler : Handler
  /-- What `getUnderflows` has loaded and not cleared yet. -/
  loaded : Option ℕ
  /-- The halves that the engine has completed. -/
  completed : List (List UInt8)
  /-- What it has moved of the next one. -/
  current : List UInt8
  /-- What the interrupt moved between a half and the ring, or that it counted the half. -/
  log : List (Option (List UInt8))
  /-- What the sketch has read, or written. -/
  sketch : List UInt8
  /-- The sum of what `getUnderflows` has returned. -/
  reported : ℕ

/-- What can happen. -/
inductive Action
  /-- The engine moves a half-word, on a receiving port the one given. -/
  | transfer (low high : UInt8)
  /-- The interrupt is taken and reads `INTFR`. -/
  | enter
  /-- It writes `INTFCR`. -/
  | clear
  /-- It calls `_dmaHalfComplete`. -/
  | handle
  /-- A pass of the loop of `write`. -/
  | write (buf : List UInt8)
  /-- A read of so many bytes. -/
  | read (n : ℕ)
  /-- `getUnderflows` loads the counter. -/
  | loadUnderflows
  /-- `getUnderflows` sets it to zero and returns what it has loaded. -/
  | clearUnderflows

namespace System

/-- The engine moves a half-word. -/
def transfer (s : System) (low high : UInt8) : System :=
  let moved := if s.port.rx then [low, high] else load s.mem s.pos 2
  let mem := if s.port.rx then store s.mem s.pos moved else s.mem
  let pos := s.pos + 2
  let current := s.current ++ moved
  if pos = dmaHalfBytes then
    { s with mem, pos, ht := true, completed := s.completed ++ [current], current := [] }
  else if pos = dmaBufBytes then
    { s with mem, pos := 0, tc := true, completed := s.completed ++ [current], current := [] }
  else { s with mem, pos, current }

/-- What `_dmaHalfComplete` moves between the half and the ring, if anything. -/
def moved (s : System) (second_half : Bool) : Option (List UInt8) :=
  if s.port.rx then
    if s.port.ringFree ≥ dmaHalfBytes then
      some (load s.mem (I2S.halfOffset second_half) dmaHalfBytes)
    else none
  else if s.port.ringUsed ≥ dmaHalfBytes then some (s.port.ringPop dmaHalfBytes).1
  else none

/-- `_dmaHalfComplete` on what the interrupt has read. -/
def handle (s : System) (ht : Bool) : System :=
  let done := s.port.dmaHalfComplete s.mem (!ht)
  { s with
    port := done.1
    mem := done.2
    handler := .idle
    log := s.log ++ [s.moved (!ht)] }

def write (s : System) (buf : List UInt8) : System :=
  let pass := s.port.writePass buf
  { s with port := pass.2, sketch := s.sketch ++ buf.take pass.1 }

def read (s : System) (n : ℕ) : System :=
  let taken := s.port.take n
  { s with port := taken.2, sketch := s.sketch ++ taken.1.getD [] }

/-- The interrupt is taken while a flag is set, and each thread does one step after the other. -/
def step (s : System) : Action → Option System
  | .transfer low high => some (s.transfer low high)
  | .enter =>
    if s.handler = .idle ∧ (s.ht || s.tc) then some { s with handler := .reading s.ht } else none
  | .clear =>
    match s.handler with
    | .reading ht => some { s with ht := false, tc := false, handler := .cleared ht }
    | _ => none
  | .handle =>
    match s.handler with
    | .cleared ht => some (s.handle ht)
    | _ => none
  | .write buf => some (s.write buf)
  | .read n => some (s.read n)
  | .loadUnderflows =>
    if s.loaded = none then some { s with loaded := some s.port.underflows } else none
  | .clearUnderflows =>
    s.loaded.map fun n =>
      { s with port := { s.port with underflows := 0 }, loaded := none, reported := s.reported + n }

/-- `begin` has just started the port: the DMA's buffer is cleared, the ring is empty. -/
def Fresh (s : System) : Prop :=
  (∃ rx bits stereo ring bytes, s.port = I2S.start rx bits stereo ring bytes) ∧
    s.mem = (fun _ => 0) ∧ s.pos = 0 ∧ s.ht = false ∧ s.tc = false ∧ s.handler = .idle ∧
    s.loaded = none ∧ s.completed = [] ∧ s.current = [] ∧ s.log = [] ∧ s.sketch = [] ∧
    s.reported = 0

end System

/-- Every order of the engine's transfers, the interrupt's steps and the sketch's calls. -/
def machine : Machine System Action where
  init := System.Fresh
  step := System.step

end Ch32h4.I2s
