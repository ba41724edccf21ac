import Mathlib.Logic.Function.Basic
import Mathlib.Algebra.Order.Ring.Nat

/-!
# Block transfers of the SPI

`transferPolled`, `transferDMA` and `transfer` of `SPI.cpp`.

What is on the bus is a `Slave`: the byte it answers with may depend on all the bytes clocked out so
far.  `Bus` has the memory of both buffers, the bytes clocked out, and what is in the receive side
of `DATAR`.

The DMA is an arbitrary list of `Request`s for each chunk: it serves one of the two channels at a
time, in any order, and stalls wherever that list ends.  What it has loaded is clocked out before
the code goes on, as `dma_wait` sees no progress for 100 ms until it gives up.  `RXNE` is set as
soon as a byte is left in `DATAR`, and a byte that comes in on top of it is lost.
-/

namespace Ch32h4.Spi

/-- The answer to the last of the bytes clocked out. -/
abbrev Slave := List UInt8 → UInt8

/-- What a transfer works on. -/
structure Bus where
  mem : ℕ → UInt8
  wire : List UInt8
  datar : Option UInt8

/-- `DMA_THRESHOLD`. -/
def dmaThreshold : ℕ := 32

/-- `SPI_DMA_MAX`. -/
def dmaMax : ℕ := 65535

variable (slave : Slave) (tx rx : Option ℕ)

/-- The next byte to be sent; without a buffer it is `0xFF`. -/
def txByte (mem : ℕ → UInt8) (i : ℕ) : UInt8 :=
  match tx with
  | some t => mem (t + i)
  | none => 0xFF

namespace Bus

/-- A byte goes out. -/
def clock (s : Bus) (byte : UInt8) : Bus :=
  { s with wire := s.wire ++ [byte] }

/-- `rx[i] = got`, if there is a buffer. -/
def put (s : Bus) (i : ℕ) (got : UInt8) : Bus :=
  match rx with
  | some r => { s with mem := Function.update s.mem (r + i) got }
  | none => s

/-! ### `transferPolled` -/

/-- A byte sent and one received.  Where `DATAR` has a byte from before, that is the one read, and
the answer stays there. -/
def exchange (s : Bus) (byte : UInt8) : UInt8 × Bus :=
  let answer := slave (s.wire ++ [byte])
  match s.datar with
  | none => (answer, s.clock byte)
  | some stale => (stale, { s.clock byte with datar := some answer })

/-- The loop of `transferPolled`, from the index `i` on. -/
def polledFrom (s : Bus) (i : ℕ) : ℕ → Bus
  | 0 => s
  | left + 1 =>
    let (got, s) := s.exchange slave (txByte tx s.mem i)
    polledFrom (s.put rx i got) (i + 1) left

def transferPolled (s : Bus) (count : ℕ) : Bus :=
  s.polledFrom slave tx rx 0 count

end Bus

/-! ### `transferDMA` -/

/-- The channel the DMA serves. -/
inductive Request where
  | tx
  | rx
  deriving DecidableEq, Repr

/-- The two channels in the middle of a chunk; their `CNTR`s have gone down by `loaded` and
`stored`. -/
structure Dma where
  bus : Bus
  loaded : ℕ
  received : List UInt8
  stored : ℕ

/-- One byte moved.  Where nothing is to be stored the answer stays in `DATAR`. -/
def Dma.serve (chunk : ℕ) (d : Dma) : Request → Dma
  | .tx =>
    if d.loaded = chunk then d
    else
      let byte := txByte tx d.bus.mem d.loaded
      let answer := slave (d.bus.wire ++ [byte])
      let bus := d.bus.clock byte
      match rx with
      | some _ => { d with bus, loaded := d.loaded + 1, received := d.received ++ [answer] }
      | none =>
        { d with
          bus := { bus with datar := some (d.bus.datar.getD answer) }
          loaded := d.loaded + 1 }
  | .rx =>
    match d.received with
    | got :: received =>
      { d with bus := d.bus.put rx d.stored got, received, stored := d.stored + 1 }
    | [] => d

/-- A chunk from `spi_drain` on, and whether `dma_wait` saw the counter it watches go to zero. -/
def chunkDMA (chunk : ℕ) (requests : List Request) (s : Bus) : Bool × Bus :=
  let d := requests.foldl (Dma.serve slave tx rx chunk)
    { bus := { s with datar := none }, loaded := 0, received := [], stored := 0 }
  let watched := if rx.isSome then d.stored else d.loaded
  (watched = chunk, { d.bus with datar := d.received.head?.or d.bus.datar })

/-- `CNTR` has 16 bits, so a longer block is split. -/
def chunkSize (count : ℕ) : ℕ :=
  if count > dmaMax then dmaMax else count

theorem chunkSize_eq (count : ℕ) : chunkSize count = min count dmaMax := by
  rw [chunkSize]
  split_ifs <;> omega

/-- The loop over the chunks; `dma` has what becomes of each of them. -/
def transferDMA (tx rx : Option ℕ) (dma : List (List Request)) (count : ℕ) (s : Bus) : Bool × Bus :=
  if count = 0 then (true, s)
  else
    let chunk := chunkSize count
    match chunkDMA slave tx rx chunk (dma.headD []) s with
    | (true, s) =>
      transferDMA (tx.map (· + chunk)) (rx.map (· + chunk)) dma.tail (count - chunk) s
    | (false, s) => (false, s)
termination_by count
decreasing_by
  rw [chunkSize_eq, dmaMax]
  omega

/-- `transfer`; without `begin` it does nothing. -/
def transfer (running : Bool) (dma : List (List Request)) (count : ℕ) (s : Bus) : Bus :=
  if !running || count = 0 then s
  else if count ≥ dmaThreshold then
    match transferDMA slave tx rx dma count s with
    | (true, s) => s
    | (false, s) => s.transferPolled slave tx rx count
  else s.transferPolled slave tx rx count

end Ch32h4.Spi
