import Mathlib.Data.List.GetD
import Mathlib.Logic.Function.Basic
import Mathlib.Data.Nat.Notation

/-!
# The I2S port

Translation of the buffers of `I2S`: the ring between the sketch and the interrupt, what the sketch
puts in and takes out, and `_dmaHalfComplete`, which moves one half of the DMA's buffer from or to
the ring.  The buffer is memory of bytes, the engine moves half-words of it in the order of their
addresses.

Clocks and pins are left out; the port is one that `begin` has started.
-/

namespace Ch32h4.I2s

/-- `DMA_HALF_BYTES`. -/
abbrev dmaHalfBytes : ℕ := 256

/-- `DMA_BUF_BYTES`. -/
abbrev dmaBufBytes : ℕ := 512

/-! ### Memory -/

/-- `s_dma_buf` of one port, byte by byte. -/
abbrev Memory := ℕ → UInt8

/-- The bytes from `off` on. -/
def load (mem : Memory) (off n : ℕ) : List UInt8 :=
  (List.range n).map fun i => mem (off + i)

/-- Put bytes at `off`. -/
def store (mem : Memory) (off : ℕ) (bs : List UInt8) : Memory :=
  fun i => if off ≤ i ∧ i < off + bs.length then bs.getD (i - off) 0 else mem i

/-! ### The object -/

/-- The fields of `I2S` that its buffers depend on. -/
structure I2S where
  rx : Bool
  running : Bool
  bits : ℕ
  stereo : Bool
  ring : ℕ → UInt8
  ring_size : ℕ
  head : ℕ
  tail : ℕ
  underflows : ℕ

namespace I2S

/-- `setBuffer`: at least the DMA's buffer, and a multiple of its half. -/
def setBuffer (bytes : ℕ) : ℕ :=
  let bytes := if bytes < dmaHalfBytes * 2 then dmaHalfBytes * 2 else bytes
  (bytes + dmaHalfBytes - 1) / dmaHalfBytes * dmaHalfBytes

/-- `begin`, with a ring that `setBuffer(bytes)` has got. -/
def start (rx : Bool) (bits : ℕ) (stereo : Bool) (ring : ℕ → UInt8) (bytes : ℕ) : I2S where
  rx := rx
  running := true
  bits := bits
  stereo := stereo
  ring := ring
  ring_size := setBuffer bytes
  head := 0
  tail := 0
  underflows := 0

/-! ### The ring -/

def ringUsed (p : I2S) : ℕ :=
  if p.head ≥ p.tail then p.head - p.tail else p.ring_size - p.tail + p.head

/-- One byte is given up. -/
def ringFree (p : I2S) : ℕ :=
  p.ring_size - p.ringUsed - 1

/-- The slot after a slot. -/
def next (size i : ℕ) : ℕ :=
  if i + 1 = size then 0 else i + 1

/-- The loop of `ringPush`. -/
def ringPushLoop (size : ℕ) : (ℕ → UInt8) → ℕ → List UInt8 → (ℕ → UInt8) × ℕ
  | ring, h, [] => (ring, h)
  | ring, h, b :: bs => ringPushLoop size (Function.update ring h b) (next size h) bs

def ringPush (p : I2S) (src : List UInt8) : I2S :=
  let r := ringPushLoop p.ring_size p.ring p.head src
  { p with ring := r.1, head := r.2 }

/-- The loop of `ringPop`. -/
def ringPopLoop (size : ℕ) (ring : ℕ → UInt8) : ℕ → ℕ → List UInt8 × ℕ
  | t, 0 => ([], t)
  | t, n + 1 =>
    let r := ringPopLoop size ring (next size t) n
    (ring t :: r.1, r.2)

/-- `ringPop`, with the bytes it copies out. -/
def ringPop (p : I2S) (n : ℕ) : List UInt8 × I2S :=
  let r := ringPopLoop p.ring_size p.ring p.tail n
  (r.1, { p with tail := r.2 })

/-- What is in the ring. -/
def contents (p : I2S) : List UInt8 :=
  (p.ringPop p.ringUsed).1

/-! ### The interrupt -/

/-- `_underflows++`. -/
def underflow (p : I2S) : I2S :=
  { p with underflows := (p.underflows + 1) % 4294967296 }

/-- What is sent where the ring has no half. -/
def silence : List UInt8 :=
  List.replicate dmaHalfBytes 0

/-- Where a half begins. -/
def halfOffset (second_half : Bool) : ℕ :=
  if second_half then dmaHalfBytes else 0

/-- `_dmaHalfComplete`. -/
def dmaHalfComplete (p : I2S) (mem : Memory) (second_half : Bool) : I2S × Memory :=
  let half := halfOffset second_half
  if p.rx then
    if p.ringFree ≥ dmaHalfBytes then (p.ringPush (load mem half dmaHalfBytes), mem)
    else (p.underflow, mem)
  else if p.ringUsed ≥ dmaHalfBytes then
    let popped := p.ringPop dmaHalfBytes
    (popped.2, store mem half popped.1)
  else (p.underflow, store mem half silence)

/-! ### The sketch -/

def available (p : I2S) : ℕ :=
  if p.running && p.rx then p.ringUsed else 0

def availableForWrite (p : I2S) : ℕ :=
  if p.running && !p.rx then p.ringFree else 0

/-- One pass of the loop of `write(buf, size)`: it queues what there is room for.  The loop goes on
until all is queued or the stream's timeout is over. -/
def writePass (p : I2S) (buf : List UInt8) : ℕ × I2S :=
  if !p.running || p.rx then (0, p)
  else
    let n := min buf.length p.ringFree
    (n, p.ringPush (buf.take n))

/-- What `read()` takes one byte with, and the two reads of a frame four or eight. -/
def take (p : I2S) (n : ℕ) : Option (List UInt8) × I2S :=
  if !p.running || !p.rx || p.ringUsed < n then (none, p)
  else
    let popped := p.ringPop n
    (some popped.1, popped.2)

end I2S

end Ch32h4.I2s
