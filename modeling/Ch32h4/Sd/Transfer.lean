import Ch32h4.Overlay
import Ch32h4.TransitionSystem
import Mathlib.Algebra.Order.Ring.Nat

/-!
# Block transfers of the SD card

`sd_transfer`, `sd_transfer_dma` and `sd_switch_func` of `ch32h4_sdmmc.c`.

All data goes through one of the two halves of `sd_dma_buf`, which are taken in turn.  The engine
loads its address only when `DMA_BEG1` changes: armed with the half it already has, a read puts its
data behind the one before, where the code does not look, and a write sends `Driver.stale`.

An attempt fails before the engine is armed, before any data, or after some of it: that is its
`Fate`.  The bytes of the card and of the sketch are functions of the address; a card is addressed
by blocks or by bytes.  `Driver.log` has what became of each half taken, the last one first.
-/

namespace Ch32h4.Sd

/-- What becomes of an attempt: `DAT0` stays low, the command has no good answer, an error after
`k` blocks, or none. -/
inductive Fate where
  | busy
  | refused
  | broken (k : ℕ)
  | done

/-- What becomes of a half that is taken; `blocks` are those of the card that are transferred. -/
inductive Event where
  | gaveUp
  | armed (half : Bool) (blocks : List ℕ)

def Event.blocks : Event → List ℕ
  | gaveUp => []
  | armed _ blocks => blocks

/-- `CH32H4_SD_ENODEV`, `CH32H4_SD_ERANGE` and the errors of the bus. -/
inductive Ret where
  | ok
  | enodev
  | erange
  | failed
  deriving DecidableEq

/-- The driver, the engine and what they work on. -/
structure Driver where
  initialised : Bool
  sdhc : Bool
  blockCount : UInt32
  dmaHalf : Bool
  dmaBuf : Bool → ℕ → UInt8
  dmaBeg1 : Option Bool
  stale : ℕ → UInt8
  card : ℕ → UInt8
  mem : ℕ → UInt8
  log : List Event

/-- `SD_BOUNCE_BLOCKS`. -/
def bounceBlocks : ℕ := 8

namespace Driver

/-- `sd_arm`. -/
def arm (s : Driver) (half : Bool) (blocks : List ℕ) : Driver :=
  { s with dmaBeg1 := some half, log := .armed half blocks :: s.log }

/-- The half that has been taken is not used. -/
def giveUp (s : Driver) : Driver :=
  { s with log := .gaveUp :: s.log }

/-- The first `k` bytes of a half. -/
def fill (s : Driver) (half : Bool) (k : ℕ) (f : ℕ → UInt8) : Driver :=
  { s with dmaBuf := Function.update s.dmaBuf half (overlay 0 k f (s.dmaBuf half)) }

/-- A half is taken, and filled for a write. -/
def take (s : Driver) (chunk n : ℕ) (write : Bool) : Driver :=
  let taken := { s with dmaHalf := !s.dmaHalf }
  if write then taken.fill s.dmaHalf (512 * n) (fun i => s.mem (chunk + i)) else taken

/-- The argument of a command. -/
def address (s : Driver) (block : ℕ) : ℕ :=
  if s.sdhc then block else block * 512 % 2 ^ 32

/-- The block the card takes an argument for. -/
def cardBlock (s : Driver) (addr : ℕ) : ℕ :=
  if s.sdhc then addr else addr / 512

/-- The engine moves `k` blocks, from or to the block `first` of the card. -/
def move (s : Driver) (half : Bool) (first k : ℕ) (write : Bool) : Driver :=
  let fresh := s.dmaBeg1 ≠ some half
  let armed := s.arm half (List.range' first k)
  if write then
    { armed with
      card := overlay (512 * first) (512 * k) (if fresh then s.dmaBuf half else s.stale) s.card }
  else if fresh then armed.fill half (512 * k) (fun i => s.card (512 * first + i))
  else armed

end Driver

/-- `sd_transfer_dma`, with the half that has been taken. -/
def transferDma (s : Driver) (block : ℕ) (half : Bool) (nblocks : ℕ) (write : Bool) (fate : Fate) :
    Bool × Driver :=
  let first := s.cardBlock (s.address block)
  match fate with
  | .busy => (false, s.giveUp)
  -- a write is armed after its command, and a read before
  | .refused => (false, if write then s.giveUp else s.arm half [])
  | .broken k => (false, s.move half first (min k nblocks) write)
  | .done => (true, s.move half first nblocks write)

/-- `sd_switch_func`.  The buffer is only taken once `DAT0` is free. -/
def switchFunc (s : Driver) (status : ℕ → UInt8) (fate : Fate) : Driver :=
  let half := s.dmaHalf
  let fresh := s.dmaBeg1 ≠ some half
  let armed := { s with dmaHalf := !s.dmaHalf }.arm half []
  match fate with
  | .busy => s
  | .refused | .broken _ => armed
  | .done => if fresh then armed.fill half 64 status else armed

/-- What fits into the bounce buffer. -/
def chunkBlocks (left : ℕ) : ℕ :=
  if left > bounceBlocks then bounceBlocks else left

theorem chunkBlocks_eq (left : ℕ) : chunkBlocks left = min left 8 := by
  rw [chunkBlocks, bounceBlocks]
  split_ifs <;> omega

/-- The loop of `sd_transfer`. -/
def transferLoop (s : Driver) (block buf : ℕ) (write : Bool) (done left : ℕ) (fates : List Fate) :
    Ret × Driver :=
  if left = 0 then (.ok, s)
  else
    let n := chunkBlocks left
    let chunk := buf + done * 512
    let half := s.dmaHalf
    match transferDma (s.take chunk n write) ((block + done) % 2 ^ 32) half n write
      (fates.headD .done) with
    | (false, s) => (.failed, s)
    | (true, s) =>
      let s :=
        if write then s else { s with mem := overlay chunk (512 * n) (s.dmaBuf half) s.mem }
      transferLoop s block buf write (done + n) (left - n) fates.tail
termination_by left
decreasing_by
  rw [chunkBlocks_eq]
  omega

/-- `sd_transfer`. -/
def transfer (s : Driver) (block buf nblocks : ℕ) (write : Bool) (fates : List Fate) : Ret × Driver :=
  if !s.initialised then (.enodev, s)
  else if (block + nblocks) % 2 ^ 32 > s.blockCount.toNat then (.erange, s)
  else if nblocks = 0 then (.ok, s)
  else transferLoop s block buf write 0 nblocks fates

/-! ### Runs -/

/-- `reset` is what `ch32h4_sd_begin` or `ch32h4_sd_end` leaves, with any card in the slot; the
switch commands of `ch32h4_sd_begin` follow as actions of their own. -/
inductive Action where
  | reset (initialised sdhc : Bool) (blockCount : UInt32) (card : ℕ → UInt8)
  | poke (mem : ℕ → UInt8)
  | switchFunc (status : ℕ → UInt8) (fate : Fate)
  | transfer (block nblocks : UInt32) (buf : ℕ) (write : Bool) (fates : List Fate)

def step (s : Driver) : Action → Driver
  | .reset initialised sdhc blockCount card =>
    { s with initialised, sdhc, blockCount, card, dmaBeg1 := none }
  | .poke mem => { s with mem }
  | .switchFunc status fate => switchFunc s status fate
  | .transfer block nblocks buf write fates =>
    (transfer s block.toNat buf nblocks.toNat write fates).2

/-- From power on. -/
def machine : Machine Driver Action where
  init s := s.initialised = false ∧ s.dmaHalf = false ∧ s.dmaBeg1 = none ∧ s.log = []
  step s a := some (step s a)

end Ch32h4.Sd
