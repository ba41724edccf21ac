import Ch32h4.Overlay
import Mathlib.Algebra.Order.Ring.Nat

/-!
# Transfers to and from the PSRAM

`PSRAMClass::write`, `PSRAMClass::read`, `writeDMA` and `readDMA` of `PSRAM.cpp`.

`DLR` tells the QSPI how many bytes the transfer has, and `CNTR` tells the DMA how many words it
moves; `DMA_BufferSize` is a 32-bit number, and `CNTR` has 16 bits.  Where the DMA has moved its
words the QSPI waits for the rest, and `writeDMA` and `readDMA` give up after 200 ms without `TC`.
They may give up at any other point too, which is what `Qspi` says.
-/

namespace Ch32h4.Psram

/-- `CAPACITY`. -/
def capacity : ℕ := 8 * 1024 * 1024

/-- What the pointer handed to the DMA refers to: `s_bounce`, or memory of the sketch. -/
inductive Buffer where
  | bounce
  | sketch (p : ℕ)

/-- What happens to the transfers to come: `some k` is one that does not get past `k` bytes. -/
abbrev Qspi := List (Option ℕ)

/-- The bytes of a transfer that are moved, and whether `TC` comes. -/
def moved (len : ℕ) (fate : Option ℕ) : ℕ × Bool :=
  let dmaBufferSize := (len + 3) / 4
  let cntr := dmaBufferSize % 2 ^ 16
  match fate with
  | none => (min len (4 * cntr), len ≤ 4 * cntr)
  | some k => (min k (min len (4 * cntr)), false)

structure State where
  begun : Bool
  cells : ℕ → UInt8
  mem : ℕ → UInt8
  bounce : ℕ → UInt8
  qspi : Qspi

namespace State

def load (s : State) : Buffer → ℕ → UInt8
  | .bounce => s.bounce
  | .sketch p => fun i => s.mem (p + i)

/-- The first `n` bytes of a buffer are set. -/
def fill (s : State) (n : ℕ) (f : ℕ → UInt8) : Buffer → State
  | .bounce => { s with bounce := overlay 0 n f s.bounce }
  | .sketch p => { s with mem := overlay p n f s.mem }

def writeDMA (s : State) (addr : ℕ) (src : Buffer) (len : ℕ) : Bool × State :=
  let (n, ok) := moved len (s.qspi.headD none)
  (ok, { s with cells := overlay addr n (s.load src) s.cells, qspi := s.qspi.tail })

/-- A read past the end of the device starts again at its beginning. -/
def readDMA (s : State) (addr : ℕ) (dst : Buffer) (len : ℕ) : Bool × State :=
  let (n, ok) := moved len (s.qspi.headD none)
  (ok, { s with qspi := s.qspi.tail }.fill n (fun i => s.cells ((addr + i) % capacity)) dst)

end State

/-- The bytes up to a word boundary, at most `len`. -/
def headSize (p len : ℕ) : ℕ :=
  let head := (4 - p % 4) % 4
  if head > len then len else head

/-- `rest & ~3`. -/
def midSize (p len : ℕ) : ℕ := (len - headSize p len) / 4 * 4

/-- A length that stays within the device. -/
def clampLen (addr len : ℕ) : ℕ :=
  if len > capacity - addr then capacity - addr else len

/-! ### `write` -/

/-- The end of `write`, with `done` bytes written. -/
def writeTail (s : State) (addr src len done : ℕ) : ℕ × State :=
  let tail := len - done
  if tail = 0 then (done, s)
  else
    let s := s.fill tail (fun i => s.mem (src + done + i)) .bounce
    match s.writeDMA (addr + done) .bounce tail with
    | (true, s) => (len, s)
    | (false, s) => (done, s)

/-- `write` after the head. -/
def writeMid (s : State) (addr src len : ℕ) : ℕ × State :=
  let head := headSize src len
  let mid := midSize src len
  if mid = 0 then writeTail s addr src len head
  else
    match s.writeDMA (addr + head) (.sketch (src + head)) mid with
    | (true, s) => writeTail s addr src len (head + mid)
    | (false, s) => (head, s)

/-- `write`; it returns the number of bytes written. -/
def write (s : State) (addr src len : ℕ) : ℕ × State :=
  if !s.begun || addr ≥ capacity || len = 0 then (0, s)
  else
    let len := clampLen addr len
    let head := headSize src len
    if head = 0 then writeMid s addr src len
    else
      let s := s.fill head (fun i => s.mem (src + i)) .bounce
      match s.writeDMA addr .bounce head with
      | (true, s) => writeMid s addr src len
      | (false, s) => (0, s)

/-! ### `read` -/

def readTail (s : State) (addr dst len done : ℕ) : ℕ × State :=
  let tail := len - done
  if tail = 0 then (len, s)
  else
    match s.readDMA (addr + done) .bounce 4 with
    | (true, s) => (len, s.fill tail s.bounce (.sketch (dst + done)))
    | (false, s) => (done, s)

def readMid (s : State) (addr dst len : ℕ) : ℕ × State :=
  let head := headSize dst len
  let mid := midSize dst len
  if mid = 0 then readTail s addr dst len head
  else
    match s.readDMA (addr + head) (.sketch (dst + head)) mid with
    | (true, s) => readTail s addr dst len (head + mid)
    | (false, s) => (head, s)

/-- `read`; it returns the number of bytes read. -/
def read (s : State) (addr dst len : ℕ) : ℕ × State :=
  if !s.begun || addr ≥ capacity || len = 0 then (0, s)
  else
    let len := clampLen addr len
    let head := headSize dst len
    if head = 0 then readMid s addr dst len
    else
      match s.readDMA addr .bounce 4 with
      | (true, s) => readMid (s.fill head s.bounce (.sketch dst)) addr dst len
      | (false, s) => (0, s)

end Ch32h4.Psram
