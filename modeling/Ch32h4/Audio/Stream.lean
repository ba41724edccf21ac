import Ch32h4.TransitionSystem
import Mathlib.Algebra.Order.Ring.Nat
import Mathlib.Logic.Function.Basic

/-!
# Streaming to the two DACs

`DACAudio` keeps a ring that a circular DMA never stops reading.  Here is the driver while it
runs, with the DMA moving between any two steps of a call: a step is one sample of the DMA counter
or of the clock, or one store to the ring.

* `Dac` is the driver with its ring and the counter of the DMA channel.
* `Phase` says what comes next inside `writeFrames` or `availableFrames`.
* `machine` lets the sketch call, the program advance and the DMA fetch, in any order.

A run begins where `begin` returns.  The words fetched before the first frame was stored are kept
apart from those fetched since.
-/

namespace Ch32h4.Audio

/-- `DAC_SILENCE`: mid-scale on both channels. -/
def silence : UInt32 := 0x08000800

/-- `MIN_FRAMES`. -/
def minFrames : ℕ := 256

/-- One frame of what a caller hands over. -/
structure Frame where
  left : Int16
  right : Int16

/-- Signed 16-bit to unsigned 12-bit. -/
def sample (v : Int16) : UInt32 := UInt32.ofNat ((v.toInt + 32768).toNat >>> 4)

/-- The word the dual holding register wants for a frame. -/
def frameWord (stereo : Bool) (f : Frame) : UInt32 :=
  sample f.left ||| (sample (if stereo then f.right else f.left) <<< 16)

/-! ### The driver -/

structure Dac where
  ring : ℕ → UInt32
  frames : ℕ
  wr : ℕ
  blankedTo : ℕ
  rate : ℕ
  underruns : ℕ
  stereo : Bool
  primed : Bool
  queuedAtWrite : ℕ
  lastWriteUs : ℕ
  /-- The counter of the DMA channel, which counts down. -/
  cntr : ℕ

/-- What the DMA channel counts down from: `DMA_BufferSize` has 16 bits. -/
def Dac.bufferSize (d : Dac) : ℕ := d.frames % 2 ^ 16

/-- `DACAudio::dmaPosition`. -/
def Dac.dmaPosition (d : Dac) : ℕ :=
  if d.cntr = 0 ∨ d.cntr > d.frames then 0 else d.frames - d.cntr

/-- `DACAudio::freeFrames`. -/
def Dac.freeFrames (d : Dac) : ℕ :=
  let used := (d.wr + d.frames - d.dmaPosition) % d.frames
  d.frames - used - 1

/-- The next index of the ring. -/
def Dac.next (d : Dac) (i : ℕ) : ℕ := if i + 1 = d.frames then 0 else i + 1

/-- The frames that the clock says have been consumed since the last write. -/
def Dac.consumed (d : Dac) (now : ℕ) : ℕ :=
  (now + 2 ^ 32 - d.lastWriteUs) % 2 ^ 32 * d.rate / 1000000

/-- Has the DMA drained what was queued?  The clock is asked. -/
def Dac.drained (d : Dac) (now : ℕ) : Prop := d.queuedAtWrite ≤ d.consumed now

instance (d : Dac) (now : ℕ) : Decidable (d.drained now) :=
  inferInstanceAs (Decidable (d.queuedAtWrite ≤ d.consumed now))

/-- One store to the ring. -/
def Dac.store (d : Dac) (i : ℕ) (w : UInt32) : Dac := { d with ring := Function.update d.ring i w }

/-- A frame goes into the ring. -/
def Dac.put (d : Dac) (w : UInt32) : Dac := { d.store d.wr w with wr := d.next d.wr }

/-- A slot is blanked. -/
def Dac.blank (d : Dac) : Dac :=
  { d.store d.blankedTo silence with blankedTo := d.next d.blankedTo }

/-- The writer is put back with the reader. -/
def Dac.resync (d : Dac) (now : ℕ) : Dac :=
  { d with
    wr := d.dmaPosition, blankedTo := d.dmaPosition, queuedAtWrite := 0,
    lastWriteUs := now % 2 ^ 32 }

/-- The DMA has fetched a word. -/
def Dac.advance (d : Dac) : Dac :=
  { d with cntr := if d.cntr = 1 then d.bufferSize else d.cntr - 1 }

/-- The word the DMA fetches next. -/
def Dac.fetch (d : Dac) : UInt32 := d.ring (d.bufferSize - d.cntr)

/-! ### The calls -/

/-- What comes next.  `none` stands for a call of `availableFrames` in place of the frames that
`writeFrames` was given. -/
inductive Phase where
  | idle
  /-- `syncWriter` asks the clock. -/
  | syncing (data : Option (List Frame))
  /-- It silences slot `i`. -/
  | wiping (data : Option (List Frame)) (now i : ℕ)
  /-- It puts the writer back. -/
  | resyncing (data : Option (List Frame)) (now : ℕ)
  /-- `availableFrames` asks for the free frames. -/
  | counting
  /-- `writeFrames` looks for space, with so many frames done. -/
  | sampling (data : List Frame) (done : ℕ)
  /-- It stores frame `i` of the next `n`. -/
  | storing (data : List Frame) (done n i : ℕ)
  /-- `blankFree` looks where the reader is. -/
  | blanking (done : ℕ)
  /-- It blanks up to `rd`. -/
  | blankingTo (done rd : ℕ)
  /-- `_queuedAtWrite` is set. -/
  | queueing (done : ℕ)
  /-- `_lastWriteUs` is set. -/
  | stamping (done : ℕ)

/-- The frames stored by the call that is going on. -/
def Phase.stored : Phase → ℕ
  | idle | syncing _ | wiping .. | resyncing .. | counting => 0
  | sampling _ done | blanking done | blankingTo done _ | queueing done | stamping done => done
  | storing _ done _ i => done + i

/-- The call has looked where the reader is, and relies on it. -/
def Phase.engaged : Phase → Bool
  | idle | syncing _ | wiping .. | resyncing .. | counting => false
  | sampling .. | storing .. | blanking _ | blankingTo .. | queueing _ | stamping _ => true

/-- What follows `syncWriter`. -/
def Phase.synced : Option (List Frame) → Phase
  | none => counting
  | some data => sampling data 0

/-- The driver, and what has passed through it. -/
structure System where
  dac : Dac
  phase : Phase
  /-- The words of the frames stored, in their order. -/
  accepted : List UInt32
  /-- The sum of what the calls of `writeFrames` have returned. -/
  returned : ℕ
  /-- The words fetched before the first frame was stored. -/
  preroll : List UInt32
  /-- The words fetched since. -/
  played : List UInt32

/-- The frames that the DMA has yet to fetch. -/
def System.pending (s : System) : ℕ := s.accepted.length - s.played.length

/-- The next step of the call that is going on; `now` is what `micros` says. -/
def System.advance (s : System) (now : ℕ) : Option System :=
  match s.phase with
  | .idle => none
  | .syncing data =>
    if ¬ s.dac.drained now then some { s with phase := .synced data }
    else if s.dac.primed then
      some { s with
        dac := if s.dac.queuedAtWrite < s.dac.consumed now
          then { s.dac with underruns := s.dac.underruns + 1 } else s.dac
        phase := .wiping data now 0 }
    else some { s with phase := .resyncing data now }
  | .wiping data now' i =>
    if i < s.dac.frames then
      some { s with dac := s.dac.store i silence, phase := .wiping data now' (i + 1) }
    else some { s with dac := { s.dac with primed := false }, phase := .resyncing data now' }
  | .resyncing data now' => some { s with dac := s.dac.resync now', phase := .synced data }
  | .counting => some { s with phase := .idle }
  | .sampling data done =>
    if done < data.length then
      if s.dac.freeFrames = 0 then some { s with phase := .blanking done }
      else some { s with phase := .storing data done (min (data.length - done) s.dac.freeFrames) 0 }
    else some { s with phase := .blanking done }
  | .storing data done n i =>
    if i < n then
      match data[done + i]? with
      | none => none
      | some f =>
        some { s with
          dac := s.dac.put (frameWord s.dac.stereo f), phase := .storing data done n (i + 1),
          accepted := s.accepted ++ [frameWord s.dac.stereo f] }
    else some { s with phase := .sampling data (done + n) }
  | .blanking done => some { s with phase := .blankingTo done s.dac.dmaPosition }
  | .blankingTo done rd =>
    if s.dac.blankedTo ≠ rd then some { s with dac := s.dac.blank }
    else some { s with phase := .queueing done }
  | .queueing done =>
    some { s with
      dac := { s.dac with queuedAtWrite := s.dac.frames - s.dac.freeFrames - 1 },
      phase := .stamping done }
  | .stamping done =>
    some { s with
      dac := { s.dac with lastWriteUs := now % 2 ^ 32, primed := true }, phase := .idle,
      returned := s.returned + done }

/-- The DMA moves a word. -/
def System.fetch (s : System) : System :=
  if s.accepted = [] then
    { s with dac := s.dac.advance, preroll := s.preroll ++ [s.dac.fetch] }
  else { s with dac := s.dac.advance, played := s.played ++ [s.dac.fetch] }

inductive Action where
  /-- The DMA fetches a word. -/
  | fetch
  | setStereo (stereo : Bool)
  | writeFrames (data : List Frame)
  | availableFrames
  /-- The call that is going on takes a step. -/
  | advance (now : ℕ)

def step (s : System) : Action → Option System
  | .fetch => if s.dac.cntr = 0 then none else some s.fetch
  | .setStereo stereo => some { s with dac := { s.dac with stereo } }
  | .writeFrames data =>
    match s.phase with
    | .idle => some { s with phase := .syncing (some data) }
    | _ => none
  | .availableFrames =>
    match s.phase with
    | .idle => some { s with phase := .syncing none }
    | _ => none
  | .advance now => s.advance now

/-- The driver as `begin` leaves it, with the DMA somewhere in its first pass. -/
def begun (frames rate cntr lastWriteUs : ℕ) (stereo : Bool) : Dac :=
  let d : Dac := ⟨fun _ => silence, frames, 0, 0, rate, 0, stereo, false, 0, lastWriteUs, cntr⟩
  { d with wr := d.dmaPosition, blankedTo := d.dmaPosition }

def machine : Machine System Action where
  init s := ∃ frames rate cntr lastWriteUs stereo, minFrames ≤ frames ∧ 0 < cntr ∧
    cntr ≤ frames % 2 ^ 16 ∧ s = ⟨begun frames rate cntr lastWriteUs stereo, .idle, [], 0, [], []⟩
  step := step

end Ch32h4.Audio
