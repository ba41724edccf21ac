import Ch32h4.Flash.Cells
import Ch32h4.Park.Protocol
import Mathlib.Data.BitVec

/-!
# The flash controller

`ch32h4_flash_ll.c`: unlocking and locking, the bounded waits, and the erase and the program of one
page, over the registers of the controller, the memory that the bus reads and the interrupt bit of
the core.

The hardware is a `Controller`, about which nothing is assumed: each read of `STATR` may give
anything, a key may be refused, and what an erase, a store or a commit leaves behind is any
contents of the page or word it is about.  It does what it does in the order of a `clock` that
counts its accesses.  Two addresses of one cell are one address here.
-/

namespace Ch32h4.Flash

abbrev Address := BitVec 32

/-- What the bus reads, in flash and elsewhere. -/
abbrev Memory := Address → UInt8

/-- The little-endian word at an address. -/
def Memory.word (mem : Memory) (a : Address) : BitVec 32 :=
  (mem (a + 3)).toBitVec ++ (mem (a + 2)).toBitVec ++ (mem (a + 1)).toBitVec ++ (mem a).toBitVec

/-! ### Registers -/

/-- `CR_PER_Set`. -/
def crPerSet : BitVec 32 := 0x00000002

/-- `CR_LOCK_Set`. -/
def crLockSet : BitVec 32 := 0x00000080

/-- `CR_FLOCK_Set`. -/
def crFlockSet : BitVec 32 := 0x00008000

/-- `CR_PAGE_PG`. -/
def crPagePg : BitVec 32 := 0x00010000

/-- `SPIN_LIMIT`. -/
def spinLimit : ℕ :=
  1000000

/-- `CH32H4_FLASH_LL_PROG_PAGE`. -/
def progPage : ℕ :=
  256

/-- The bits of `STATR` that are read. -/
structure Status where
  /-- `SR_BSY`. -/
  bsy : Bool
  /-- `SR_WR_BSY`. -/
  wrBsy : Bool

/-- The hardware, with all that can go wrong in it. -/
structure Controller where
  /-- The bit of `CFGR0`. -/
  capacity : Capacity
  /-- Whether the keys written to `KEYR` are taken. -/
  key : Bool
  /-- Whether the keys written to `MODEKEYR` are taken. -/
  modeKey : Bool
  statr : ℕ → Status
  /-- What an erased page holds. -/
  erased : ℕ → Memory → Memory
  /-- What a word holds that was stored to. -/
  stored : ℕ → Memory → Address → BitVec 32 → Memory
  /-- What a page holds when the page buffer has been committed to it. -/
  committed : ℕ → Memory → List (Address × BitVec 32) → Memory

/-- The registers, the memory and the core. -/
structure Board where
  mem : Memory
  ctlr : BitVec 32
  /-- `FLASH->ADDR`. -/
  addr : Address
  /-- The page buffer: the words stored since `CR_PAGE_PG` was set. -/
  buffer : List (Address × BitVec 32)
  /-- `mstatus.MIE`. -/
  mie : Bool
  /-- The words that the other core is parked by. -/
  words : Park.Words
  clock : ℕ
  /-- A record of the pages erased or programmed so far, each with the result; no code sees it. -/
  pages : List (Address × Bool)

/-- The page of an address. -/
def pageOf (page : ℕ) (a : Address) : ℕ :=
  a.toNat / page

namespace Board

variable (c : Controller)

/-! ### Accesses -/

/-- A load of `STATR`. -/
def readStatr (s : Board) : Status × Board :=
  (c.statr s.clock, { s with clock := s.clock + 1 })

/-- `FLASH->CTLR |= CR_STRT_Set`: the page of `ADDR` is erased.  The controller clears the bit. -/
def start (s : Board) : Board :=
  { s with
    mem := fun x =>
      if pageOf c.capacity.flashPageSize x = pageOf c.capacity.flashPageSize s.addr then
        c.erased s.clock s.mem x
      else s.mem x
    clock := s.clock + 1 }

/-- A store of a word at an address of the page that is programmed. -/
def store (s : Board) (a : Address) (w : BitVec 32) : Board :=
  { s with
    mem := fun x => if (x - a).toNat < 4 then c.stored s.clock s.mem a w x else s.mem x
    buffer := s.buffer ++ [(a, w)]
    clock := s.clock + 1 }

/-- `FLASH->CTLR |= CR_PG_STRT`: the buffer is committed to the page it was stored to.  The
controller clears the bit. -/
def commit (s : Board) : Board :=
  { s with
    mem := fun x =>
      if s.buffer.any (fun w => pageOf progPage x = pageOf progPage w.1) then
        c.committed s.clock s.mem s.buffer x
      else s.mem x
    clock := s.clock + 1 }

/-- A page is recorded. -/
def record (s : Board) (a : Address) (ok : Bool) : Board :=
  { s with pages := s.pages ++ [(a, ok)] }

/-- `csrsi mstatus, 8` if interrupts were enabled. -/
def restore (s : Board) (prev : Bool) : Board :=
  if prev then { s with mie := true } else s

/-! ### Waiting -/

/-- The loop of `wait_bsy` and `wait_wr`, with the value of `guard`. -/
def wait (busy : Status → Bool) : ℕ → Board → Bool × Board
  | 0, s => (false, (s.readStatr c).2)
  | guard + 1, s =>
    let r := s.readStatr c
    if busy r.1 then wait busy guard r.2 else (true, r.2)

/-- `wait_bsy`. -/
def waitBsy (s : Board) : Bool × Board :=
  s.wait c Status.bsy spinLimit

/-- `wait_wr`. -/
def waitWr (s : Board) : Bool × Board :=
  s.wait c Status.wrBsy spinLimit

/-! ### The functions of the driver -/

/-- `ch32h4_flash_ll_unlock`. -/
def unlock (s : Board) : Board :=
  let ctlr := if c.key then s.ctlr &&& ~~~crLockSet else s.ctlr
  { s with ctlr := if c.modeKey then ctlr &&& ~~~crFlockSet else ctlr }

/-- `ch32h4_flash_ll_lock`. -/
def lock (s : Board) : Board :=
  { s with ctlr := s.ctlr ||| crFlockSet ||| crLockSet }

/-- `ch32h4_flash_ll_erase_page` between the masking of the interrupts and their restoring. -/
def erase (s : Board) (a : Address) : Bool × Board :=
  let r := s.waitBsy c
  if r.1 then
    let s₁ := { r.2 with ctlr := r.2.ctlr ||| crPerSet, addr := a }
    let q := (s₁.start c).waitBsy c
    (q.1, { q.2 with ctlr := q.2.ctlr &&& ~~~crPerSet })
  else r

/-- `ch32h4_flash_ll_erase_page`. -/
def erasePage (s : Board) (a : Address) : Bool × Board :=
  let r := erase c { s with mie := false } a
  (r.1, (r.2.restore s.mie).record a r.1)

/-- The loop that fills the page buffer. -/
def storeWords (a : Address) (src : ℕ → BitVec 32) (i : ℕ) (ok : Bool) (s : Board) :
    Bool × Board :=
  if ok ∧ i < progPage / 4 then
    let r := (s.store c (a + BitVec.ofNat 32 (i * 4)) (src i)).waitWr c
    storeWords a src (i + 1) r.1 r.2
  else (ok, s)
termination_by progPage / 4 - i

/-- `ch32h4_flash_ll_program_page` between the masking of the interrupts and their restoring. -/
def program (s : Board) (a : Address) (src : ℕ → BitVec 32) : Bool × Board :=
  let s₀ := { s with ctlr := s.ctlr ||| crPagePg, buffer := [] }
  let r := s₀.waitBsy c
  let r := if r.1 then r.2.waitWr c else r
  let r := storeWords c a src 0 r.1 r.2
  let r := if r.1 then (r.2.commit c).waitBsy c else r
  (r.1, { r.2 with ctlr := r.2.ctlr &&& ~~~crPagePg })

/-- `ch32h4_flash_ll_program_page`. -/
def programPage (s : Board) (a : Address) (src : ℕ → BitVec 32) : Bool × Board :=
  let r := program c { s with mie := false } a src
  (r.1, (r.2.restore s.mie).record a r.1)

end Board

end Ch32h4.Flash
