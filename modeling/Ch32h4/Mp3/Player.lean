import Ch32h4.Mp3.Decoder

/-!
# Playing MP3

Translation of `MP3Player`: bytes from a source into a front-aligned ring, frames from the decoder
into one of two buffers, and from there into a sink that takes as much of them as it likes.

What the source and the sink answer comes with each call.  A source has some bytes left, of which it
offers as many as it likes at a time.  What was decoded since `begin` is kept in a trace beside what
the sink took, and so is which bytes of the stream went into the decoder.
-/

namespace Ch32h4.Mp3

/-- `RING_BYTES`. -/
abbrev ringBytes : ℕ := 32 * 1024

/-- `PRIME_BYTES`. -/
abbrev primeBytes : ℕ := 16 * 1024

/-- A frame of stereo as it was written, and the rate of the sink if it was running. -/
structure Written where
  rate : Option ℕ
  left : ℤ
  right : ℤ
  deriving DecidableEq

structure Sink where
  running : Bool
  rate : ℕ
  written : List Written

/-- A frame that `decodeFrame` has answered with, and the volume at the time. -/
structure Trace where
  samples : ℕ
  rate : ℕ
  channels : ℕ
  pcm : Samples
  volQ8 : ℕ

/-- What `_pend` points into. -/
inductive Buffer where
  | pcm
  | stereo
  deriving DecidableEq

structure Player (ρ : Type*) where
  /-- What the source has left. -/
  src : List UInt8
  sink : Sink
  decoder : Decoder ρ
  ring : ℕ → UInt8
  fill : ℕ
  pcm : Samples
  stereo : Samples
  rateChanges : ℕ
  pend : Option Buffer
  pendFrames : ℕ
  pendDone : ℕ
  volQ8 : ℕ
  startedRate : ℕ
  running : Bool
  primed : Bool
  /-- `_src` and `_sink` are not null. -/
  attached : Bool
  /-- What was decoded since `begin`. -/
  decodes : List Trace
  /-- The place in the stream of the first byte of the ring. -/
  position : ℕ
  /-- The parts of the stream that the decoder took in, by first and last byte. -/
  fed : List (ℕ × ℕ)

/-- What the source and the sink answer in one call of `loop`. -/
structure Answers where
  /-- Of each `available` and `readBytes` of `fillRing`. -/
  reads : List (ℕ × ℕ)
  /-- Whether `available` is positive where the ring is primed, and where it is empty. -/
  moreToPrime : Bool
  moreToPlay : Bool
  /-- Of each `writeFrames` for the frame that was outstanding. -/
  accepts : List ℕ
  sinkBegins : Bool
  /-- Of each `writeFrames` for the new frame. -/
  acceptsNew : List ℕ

namespace Player

variable {ρ : Type*} (helix : Helix ρ) (s : Player ρ)

/-! ### The ring -/

/-- Some bytes of the source come into the ring. -/
def receive (n : ℕ) : Player ρ :=
  { s with
    ring := fun i => if s.fill ≤ i ∧ i < s.fill + n then (s.src[i - s.fill]?).getD 0 else s.ring i
    fill := s.fill + n
    src := s.src.drop n }

/-- `fillRing`; there is nothing available after the answers. -/
def fillRing (s : Player ρ) : List (ℕ × ℕ) → Player ρ
  | [] => s
  | (avail, n) :: reads =>
    let room := ringBytes - s.fill
    if room = 0 then s
    else
      let avail := min avail s.src.length
      if avail = 0 then s
      else
        let want := if avail < room then avail else room
        let n := min n want
        if n = 0 then s else fillRing (s.receive n) reads

/-- `available() > 0`. -/
def available (more : Bool) : Bool := more && !s.src.isEmpty

/-! ### The sink -/

/-- The buffer that `_pend` points into. -/
def pending : Samples :=
  match s.pend with
  | some .stereo => s.stereo
  | _ => s.pcm

/-- A frame of a buffer, as the sink takes it. -/
def frameOf (sink : Sink) (buf : Samples) (i : ℕ) : Written :=
  ⟨if sink.running then some sink.rate else none, (buf (2 * i)).toInt, (buf (2 * i + 1)).toInt⟩

/-- The sink takes so many frames. -/
def writeFrames (n : ℕ) : Player ρ :=
  { s with
    sink := { s.sink with
      written := s.sink.written ++
        (List.range n).map fun i => frameOf s.sink s.pending (s.pendDone + i) }
    pendDone := s.pendDone + n }

/-- The loop of `drainPending`; the sink is full after the answers. -/
def drainLoop (s : Player ρ) : List ℕ → Player ρ
  | [] => s
  | n :: accepts =>
    if s.pendDone < s.pendFrames then
      let n := min n (s.pendFrames - s.pendDone)
      if n = 0 then s else drainLoop (s.writeFrames n) accepts
    else s

def drainPending (accepts : List ℕ) : Player ρ :=
  let s := s.drainLoop accepts
  if s.pendFrames ≤ s.pendDone then { s with pend := none, pendFrames := 0, pendDone := 0 } else s

/-! ### Decoding -/

/-- `(int16_t)(((int32_t)x * _volQ8) >> 8)`. -/
def scale (volQ8 : ℕ) (x : Int16) : Int16 := Int16.ofInt ((x.toInt * volQ8) / 256)

/-- The first samples of a buffer are overwritten. -/
def overwrite (buf new : Samples) (n : ℕ) : Samples := fun i => if i < n then new i else buf i

/-- The sink is started, or restarted for another rate; false if it does not begin. -/
def startSink (rate : ℕ) (begins : Bool) : Player ρ × Bool :=
  if s.sink.running then
    if rate ≠ s.startedRate then
      if begins then
        ({ s with
            sink := { s.sink with rate := rate }
            startedRate := rate
            rateChanges := s.rateChanges + 1 }, true)
      else ({ s with sink := { s.sink with running := false } }, false)
    else (s, true)
  else if begins then
    ({ s with sink := { s.sink with running := true, rate := rate }, startedRate := rate }, true)
  else (s, false)

/-- The frame that was decoded becomes the outstanding one. -/
def handOver (samples : ℕ) : Player ρ :=
  let channels := s.decoder.channels
  let frames := if channels = 2 then samples / 2 else samples
  let s :=
    if channels = 1 then
      { s with stereo := overwrite s.stereo (fun i => s.pcm (i / 2)) (frames * 2)
               pend := some .stereo }
    else { s with pend := some .pcm }
  let s :=
    if s.volQ8 ≠ 256 then
      let s := if s.pend ≠ some .stereo then
        { s with stereo := overwrite s.stereo s.pcm (frames * 2), pend := some .stereo } else s
      { s with stereo := overwrite s.stereo (fun i => scale s.volQ8 (s.stereo i)) (frames * 2) }
    else s
  { s with pendFrames := frames, pendDone := 0 }

/-- The call of `decodeFrame` in `decodeOne`. -/
def call : Call ρ := s.decoder.decodeFrame helix true s.ring s.fill s.pcm maxSamples

/-- The bytes that were consumed leave the ring. -/
def consume : Player ρ :=
  let c := s.call helix
  { s with
    decoder := c.decoder
    pcm := c.pcm
    ring := fun i => if i < s.fill - c.consumed then s.ring (i + c.consumed) else s.ring i
    fill := s.fill - c.consumed
    position := s.position + c.consumed
    fed := if c.taken = 0 then s.fed
      else s.fed ++ [(s.position + c.start, s.position + c.start + c.taken)] }

def decodeOne (begins : Bool) (accepts : List ℕ) : Player ρ :=
  let answer := (s.call helix).answer
  let s := s.consume helix
  if answer ≤ 0 then s
  else
    let s := { s with
      decodes := s.decodes ++
        [Trace.mk answer.toNat s.decoder.rate s.decoder.channels s.pcm s.volQ8] }
    let r := s.startSink s.decoder.rate begins
    if r.2 then (r.1.handOver answer.toNat).drainPending accepts else r.1

/-! ### The calls of the sketch -/

/-- The end of `loop`, with nothing outstanding. -/
def play (a : Answers) : Player ρ × Bool :=
  if s.fill = 0 then ({ s with running := s.available a.moreToPlay }, s.available a.moreToPlay)
  else (s.decodeOne helix a.sinkBegins a.acceptsNew, true)

/-- `loop`, once the ring is primed. -/
def handing (a : Answers) : Player ρ × Bool :=
  if s.pendFrames = 0 then s.play helix a
  else
    let s := s.drainPending a.accepts
    if s.pendFrames = 0 then s.play helix a else (s, true)

def loop (a : Answers) : Player ρ × Bool :=
  if s.running then
    let s := s.fillRing a.reads
    if s.primed then s.handing helix a
    else if primeBytes ≤ s.fill ∨ s.available a.moreToPrime = false ∧ 0 < s.fill then
      { s with primed := true }.handing helix a
    else (s, true)
  else (s, false)

/-- `begin`, with a source that has these bytes, a sink, and the decoder that `MP3InitDecoder` comes
up with, if it is called. -/
def begin (src : List UInt8) (sinkRunning : Bool) (sinkRate : ℕ) (init : Option (DecInfo ρ)) :
    Player ρ :=
  if s.running then s
  else
    let decoder := if s.decoder.dec.isSome then s.decoder else ⟨init, 0, 0, 0, 0, 0⟩
    if decoder.dec.isSome then
      { s with
        decoder := decoder
        src := src
        sink := ⟨sinkRunning, sinkRate, []⟩
        fill := 0
        rateChanges := 0
        startedRate := 0
        primed := false
        running := true
        attached := true
        decodes := []
        position := 0
        fed := [] }
    else { s with decoder := decoder }

/-- `end`. -/
def finish : Player ρ :=
  { s with
    sink := { s.sink with running := if s.attached then false else s.sink.running }
    decoder := { s.decoder with dec := none }
    running := false
    attached := false
    pend := none
    pendFrames := 0
    pendDone := 0 }

end Player

/-- A call of the sketch. -/
inductive Action (ρ : Type*) where
  | begin (src : List UInt8) (sinkRunning : Bool) (sinkRate : ℕ) (init : Option (DecInfo ρ))
  | loop (a : Answers)
  | setVolume (q : ℕ) (le : q ≤ 256)
  | finish

/-- A new `MP3Player`, whose buffers hold anything. -/
def Player.new {ρ : Type*} (ring : ℕ → UInt8) (pcm stereo : Samples) : Player ρ where
  src := []
  sink := ⟨false, 0, []⟩
  decoder := ⟨none, 0, 0, 0, 0, 0⟩
  ring := ring
  fill := 0
  pcm := pcm
  stereo := stereo
  rateChanges := 0
  pend := none
  pendFrames := 0
  pendDone := 0
  volQ8 := 256
  startedRate := 0
  running := false
  primed := false
  attached := false
  decodes := []
  position := 0
  fed := []

def Player.after {ρ : Type*} (helix : Helix ρ) (s : Player ρ) : Action ρ → Player ρ
  | .begin src sinkRunning sinkRate init => s.begin src sinkRunning sinkRate init
  | .loop a => (s.loop helix a).1
  | .setVolume q _ => { s with volQ8 := q }
  | .finish => s.finish

def machine {ρ : Type*} (helix : Helix ρ) : Machine (Player ρ) (Action ρ) where
  init s := ∃ ring pcm stereo, s = .new ring pcm stereo
  step s a := some (s.after helix a)

end Ch32h4.Mp3
