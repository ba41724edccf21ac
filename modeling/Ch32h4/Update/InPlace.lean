import Ch32h4.Flash.Driver
import Ch32h4.Update.Updater

/-!
# The image of the filesystem

The same updater, with the flash driver under it: the image of the filesystem goes to flash page by
page while it is received.  The page buffer is in RAM at `_buffer`, where the driver reads it.

`machine` runs one such update, from the `begin` that accepts it: any calls of `write`, of whatever
lengths, and of `end`.  Nothing is assumed about the hardware, which may fail any call of the driver
and leave anything in the pages of that call.  Beside the object and the flash its state has the
calls of the driver, the bytes that `write` said it took, and whether `end` has returned true.
-/

namespace Ch32h4.Update.InPlace

open Flash (Address Controller ParkCall)

/-- The linker's symbols, the hardware, and the page buffer. -/
structure Setting where
  board : Board
  controller : Controller
  capacity : controller.capacity = board.capacity
  park : ∀ w, ParkCall w
  /-- `_buffer`. -/
  buffer : Address
  /-- `__fs_size` is a multiple of 8 KB, and so is where the EEPROM begins. -/
  start_dvd : 8192 ∣ board.fsStart
  end_dvd : 8192 ∣ board.fsEnd
  /-- The page buffer is not in the filesystem. -/
  ram : ∀ i < bufferSize, ¬ (board.fsStart ≤ (buffer + BitVec.ofNat 32 i).toNat ∧
    (buffer + BitVec.ofNat 32 i).toNat < board.fsEnd)

/-- A call of the driver. -/
inductive Call where
  | erase (addr len : ℕ)
  | program (addr len : ℕ)
  deriving DecidableEq

/-- The range of a call lies in the filesystem. -/
def Call.Inside (b : Board) : Call → Prop
  | .erase addr len => b.fsStart ≤ addr ∧ addr + len ≤ b.fsEnd
  | .program addr len => b.fsStart ≤ addr ∧ addr + len ≤ b.fsEnd

/-- The driver does not refuse the range: it is of whole pages. -/
def Call.Whole (b : Board) : Call → Prop
  | .erase addr len =>
    len ≠ 0 ∧ b.capacity.flashPageSize ∣ addr ∧ b.capacity.flashPageSize ∣ len
  | .program addr len => len = 0 ∨ Flash.progPage ∣ addr ∧ Flash.progPage ∣ len

structure State where
  u : Updater
  flash : Flash.Board
  calls : List Call
  /-- The bytes that `write` said it took. -/
  image : List UInt8
  /-- `end` has returned true. -/
  done : Bool

/-- The bytes are in memory from an address on. -/
def holding (s : Flash.Board) (a : Address) (bs : List UInt8) : Flash.Board :=
  { s with mem := fun x =>
      if (x - a).toNat < bs.length then bs.getD (x - a).toNat 0 else s.mem x }

namespace State

variable (p : Setting)

/-- `ch32h4_flash_erase`. -/
def erase (st : State) (addr len : ℕ) : State × Bool :=
  let r := st.flash.flashErase p.controller p.park (BitVec.ofNat 32 addr) (BitVec.ofNat 32 len)
  ({ st with flash := r.2, calls := st.calls ++ [.erase addr len] }, r.1)

/-- `ch32h4_flash_write`, of what is in the page buffer. -/
def program (st : State) (addr : ℕ) (data : List UInt8) : State × Bool :=
  let r := (holding st.flash p.buffer data).flashWrite p.controller p.park
    (BitVec.ofNat 32 addr) p.buffer (BitVec.ofNat 32 data.length)
  ({ st with flash := r.2, calls := st.calls ++ [.program addr data.length] }, r.1)

/-- `UpdaterClass::_writeBuffer`. -/
def writeBuffer (st : State) : State × Bool :=
  if st.u.command = .flash then
    ({ st with u := { st.u with
        staging := st.u.staging.map (Mem.copy · st.u.currentAddress st.u.buffer) }.advance }, true)
  else
    let page := p.board.capacity.flashPageSize
    let r := if st.u.currentAddress % page = 0 then st.erase p st.u.currentAddress page
      else (st, true)
    if ¬ r.2 then ({ r.1 with u := r.1.u.setError .erase }, false)
    else
      let r := r.1.program p st.u.currentAddress st.u.buffer
      if ¬ r.2 then ({ r.1 with u := r.1.u.setError .write }, false)
      else ({ r.1 with u := r.1.u.advance }, true)

/-- Add bytes to the page buffer. -/
def store (st : State) (bs : List UInt8) : State := { st with u := st.u.store bs }

/-- The loop of `write`, with what is left to write and whether a page failed. -/
def writeLoop : ℕ → State → List UInt8 → State × List UInt8 × Bool
  | 0, st, left => (st, left, true)
  | n + 1, st, left =>
    if st.u.buffer.length + left.length > bufferSize then
      let toBuff := bufferSize - st.u.buffer.length
      let r := (st.store (left.take toBuff)).writeBuffer p
      if r.2 then writeLoop n r.1 (left.drop toBuff) else (r.1, left, false)
    else (st, left, true)

/-- `UpdaterClass::write`. -/
def write (st : State) (data : List UInt8) : State × ℕ :=
  if st.u.error ≠ .ok ∨ ¬ st.u.isRunning then (st, 0)
  else if st.u.progress + st.u.buffer.length + data.length > st.u.size then
    ({ st with u := st.u.setError .space }, 0)
  else
    let r := writeLoop p (data.length + 1) st data
    if ¬ r.2.2 then (r.1, data.length - r.2.1.length)
    else
      let st := r.1.store r.2.1
      if st.u.buffer.length = st.u.remaining then
        let q := st.writeBuffer p
        if q.2 then (q.1, data.length) else (q.1, data.length - r.2.1.length)
      else (st, data.length)

/-- The part of `end` that takes what has been received for the whole image. -/
def cutShort (st : State) : State :=
  let st := if st.u.buffer.length > 0 then (st.writeBuffer p).1 else st
  { st with u := { st.u with size := st.u.progress } }

/-- `UpdaterClass::end`. -/
def «end» (st : State) (evenIfRemaining alloc : Bool) (null : Mem) : State × Bool :=
  if st.u.size = 0 then ({ st with u := st.u.reset }, false)
  else
    let st := if st.u.progress = 0 then { st with u := st.u.setError .noData } else st
    if st.u.error ≠ .ok ∨ (¬ st.u.isFinished ∧ ¬ evenIfRemaining) then
      ({ st with u := st.u.reset }, false)
    else
      let st := if evenIfRemaining then st.cutShort p else st
      let r := st.u.conclude p.board alloc null
      ({ st with u := r.1 }, r.2)

end State

/-! ### Runs -/

inductive Action where
  | setMD5 (expected : List Char)
  | installSignature (signer : Option Signer)
  | write (data : List UInt8)
  | «end» (evenIfRemaining alloc : Bool) (null : Mem)

def step (p : Setting) (st : State) : Action → State
  | .setMD5 expected => { st with u := (st.u.setMD5 expected).1 }
  | .installSignature signer => { st with u := st.u.installSignature signer }
  | .write data =>
    let r := st.write p data
    { r.1 with image := st.image ++ data.take r.2 }
  | .«end» evenIfRemaining alloc null =>
    let r := st.«end» p evenIfRemaining alloc null
    { r.1 with done := st.done || r.2 }

/-- Runs start after a `begin` that has accepted an image of the filesystem, with the flash locked
and no request to park. -/
def machine (p : Setting) : Machine State Action where
  init st := ∃ (u : Updater) (size : ℕ) (alloc : Option Mem) (flash : Flash.Board),
    u.begin p.board size .fs alloc = (st.u, true) ∧
    flash.ctlr &&& Flash.crLockSet = Flash.crLockSet ∧
    flash.ctlr &&& Flash.crFlockSet = Flash.crFlockSet ∧ flash.words.req = false ∧
    st = ⟨st.u, flash, [], [], false⟩
  step st a := some (step p st a)

/-- A step at which the image fits the pages.  When the last of it comes in it is a multiple of 256
bytes long, and where it ends with the filesystem, no `write` of nothing follows.  If `end` is asked
to take what there is for the whole image, this is also a multiple of 256 bytes long, and the word
that it takes for the length of a signature, should the last page fail, is not that of a verifier:
it then looks for the image at address 0. -/
def fitting (p : Setting) (st : State) : Action → Prop
  | .write data =>
    st.u.isRunning → st.image.length + data.length = st.u.size →
      256 ∣ st.u.size ∧ (data = [] → p.board.fsStart + st.u.size ≠ p.board.fsEnd)
  | .«end» evenIfRemaining _ null =>
    st.u.isRunning → evenIfRemaining → st.u.progress ≠ 0 → st.u.buffer ≠ [] →
      256 ∣ st.image.length ∧ ∀ v, st.u.signer = some v → v.length ≠ 0 →
        null.word (-4) ≠ v.length
  | _ => True

end Ch32h4.Update.InPlace
