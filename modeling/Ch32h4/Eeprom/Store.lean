import Ch32h4.Flash.Cells
import Ch32h4.TransitionSystem

/-!
# The EEPROM emulation

`EEPROMClass` keeps its contents in one of two 8 KB pages in the tail of the flash.  The sketch
works on a mirror in RAM; `commit` writes the mirror to the page that is not live, with a serial
one higher, and `begin` on the next start reads the valid page with the higher serial.

A page begins with a 16-byte header (magic, serial, size, checksum) and goes down one 256-byte
program at a time, last program first, after an erase of the whole page.  Erases and programs are
all or nothing here, and `Fault` says which of them, if any, a commit does not get past: the
driver refuses it, or the power goes.

The `System` is an object, the flash, and two ghost fields: `stored`, the contents that the flash
may be holding as far as the returned values tell, and `commits`, the number of commits that
went to the flash.
-/

namespace Ch32h4.Eeprom

open Flash

/-! ### Pages -/

/-- `CH32H4_EEPROM_PAGE_SIZE`. -/
def pageSize : ℕ := 0x2000

/-- `CH32H4_EEPROM_PAGES`. -/
def numPages : ℕ := 2

/-- `sizeof(EEPROMHeader)`. -/
def headerSize : ℕ := 16

/-- `CH32H4_EEPROM_MAX_SIZE`. -/
def maxSize : ℕ := pageSize - headerSize

/-- `EEPROM_MAGIC`. -/
def eepromMagic : ℕ := 0x43483445

/-- `CH32H4_FLASH_ERASED_WORD`. -/
def erasedWord : ℕ := 0xE339E339

/-- `ch32h4_flash_prog_size()`. -/
def progSize : ℕ := 256

def checksum (data : List UInt8) (serial : ℕ) : UInt32 :=
  data.foldl (fun sum b => ((sum <<< 1) ||| (sum >>> 31)) + b.toUInt32)
    (0x9E3779B9 ^^^ UInt32.ofNat serial)

/-! The fields of the header of page `p`, and the payload behind it. -/

def pageMagic (f : Cells) (p : ℕ) : ℕ := readWord f p 0

def pageSerial (f : Cells) (p : ℕ) : ℕ := readWord f p 4

def payloadSize (f : Cells) (p : ℕ) : ℕ := readWord f p 8

def pageCheck (f : Cells) (p : ℕ) : ℕ := readWord f p 12

def payload (f : Cells) (p : ℕ) : List UInt8 := readBytes f p headerSize (payloadSize f p)

/-- The tests `findActivePage` makes of a page. -/
def PageValid (f : Cells) (p : ℕ) : Prop :=
  ¬ (pageMagic f p = erasedWord ∨ pageMagic f p ≠ eepromMagic) ∧
    ¬ (payloadSize f p = 0 ∨ payloadSize f p > maxSize) ∧
    (checksum (payload f p) (pageSerial f p)).toNat = pageCheck f p

instance (f : Cells) (p : ℕ) : Decidable (PageValid f p) :=
  inferInstanceAs (Decidable (_ ∧ _ ∧ _))

/-- One turn of the loop of `findActivePage`: the best page so far, with its serial. -/
def betterPage (f : Cells) (best : Option ℕ × ℕ) (p : ℕ) : Option ℕ × ℕ :=
  if PageValid f p ∧ (best.1 = none ∨ pageSerial f p > best.2) then (some p, pageSerial f p)
  else best

/-- `EEPROMClass::findActivePage`; `none` is `-1`. -/
def findActivePage (f : Cells) : Option ℕ :=
  ((List.range numPages).foldl (betterPage f) (none, 0)).1

/-! ### The object -/

/-- The fields of `EEPROMClass`.  The mirror is `none` while nothing is allocated. -/
structure Obj where
  mirror : Option (List UInt8)
  size : ℕ
  active : Option ℕ
  dirty : Bool
  serial : ℕ
  deriving DecidableEq

/-- An object no `begin` has run on. -/
def Obj.fresh : Obj := ⟨none, 0, none, false, 0⟩

/-- The first `n` bytes of `bs`, with `0xFF` where there are none. -/
def fit (n : ℕ) (bs : List UInt8) : List UInt8 := bs.take n ++ List.replicate (n - bs.length) 0xFF

/-- What `begin` finds on the flash, and the serial that goes with it. -/
def stored (f : Cells) : List UInt8 × ℕ :=
  match findActivePage f with
  | none => ([], 0)
  | some p => (payload f p, pageSerial f p)

/-- `EEPROMClass::begin`; `alloc` is whether the allocation succeeds. -/
def Obj.begin (e : Obj) (f : Cells) (size : ℕ) (alloc : Bool) : Obj × Bool :=
  if size = 0 ∨ size > maxSize then (e, false)
  else if e.mirror.isSome ∧ e.size = size then (e, true)
  else if alloc then
    ({ mirror := some (fit size (stored f).1), size, active := findActivePage f, dirty := false,
       serial := (stored f).2 }, true)
  else ({ e with mirror := none }, false)

/-- `EEPROMClass::read`. -/
def Obj.read (e : Obj) (address : ℤ) : UInt8 :=
  match e.mirror with
  | none => 0xFF
  | some m => if address < 0 ∨ address.toNat ≥ e.size then 0xFF else m.getD address.toNat 0xFF

/-- `EEPROMClass::write`, which is also `update`. -/
def Obj.write (e : Obj) (address : ℤ) (value : UInt8) : Obj :=
  match e.mirror with
  | none => e
  | some m =>
    if address < 0 ∨ address.toNat ≥ e.size then e
    else if m.getD address.toNat 0 ≠ value then
      { e with mirror := some (m.set address.toNat value), dirty := true }
    else e

/-! ### Committing -/

/-- One operation on a page of the flash. -/
inductive PageOp where
  | erase (off len : ℕ)
  | program (off : ℕ) (data : List UInt8)

/-- The flash after an operation on page `p`. -/
def PageOp.run (p : ℕ) (f : Cells) : PageOp → Cells
  | .erase off len => fun e o => if InRange p off len e o then none else f e o
  | .program off data => Flash.program f p off data .done

/-- Whether the driver reports success; a program is read back and compared. -/
def PageOp.ok (p : ℕ) (f : Cells) : PageOp → Bool
  | .erase _ _ => true
  | .program off data => programOk f p off data .done

/-- What a commit runs into: nothing, a refusal of its `k`-th operation, or the power going before
its `k`-th operation (after the last one, when there is none). -/
inductive Fault where
  | nothing
  | refusal (k : ℕ)
  | cut (k : ℕ)
  deriving DecidableEq

/-- The fault as the operations after the first one see it. -/
def Fault.later : Fault → Fault
  | .nothing => .nothing
  | .refusal k => .refusal (k - 1)
  | .cut k => .cut (k - 1)

/-- How far a list of operations got. -/
inductive Progress where
  | finished
  | refused
  | lost
  deriving DecidableEq

/-- Carry out the operations on page `p` in order, up to the fault. -/
def carryOut (p : ℕ) (fault : Fault) (f : Cells) : List PageOp → Cells × Progress
  | [] => (f, match fault with | .cut _ => .lost | _ => .finished)
  | op :: ops =>
    if fault = .refusal 0 then (f, .refused)
    else if fault = .cut 0 then (f, .lost)
    else if op.ok p f then carryOut p fault.later (op.run p f) ops
    else (op.run p f, .refused)

/-- The header of a commit, as it lies in memory. -/
def header (m : List UInt8) (size serial : ℕ) : List UInt8 :=
  bytesLE eepromMagic ++ bytesLE serial ++ bytesLE size ++ bytesLE (checksum m serial).toNat

/-- The buffer for program number `page`. -/
def progBuffer (h m : List UInt8) (size page : ℕ) : List UInt8 :=
  (List.range progSize).map fun i =>
    let pos := page * progSize + i
    if pos < headerSize then h.getD pos 0
    else if pos - headerSize < size then m.getD (pos - headerSize) 0
    else 0xFF

/-- How many programs `size` bytes take, with their header. -/
def progPages (size : ℕ) : ℕ := (headerSize + size + progSize - 1) / progSize

/-- The loop of `ch32h4_flash_erase` over an EEPROM page, from its start. -/
def eraseOps (cap : Capacity) : List PageOp :=
  (List.range (pageSize / cap.flashPageSize)).map fun i =>
    .erase (i * cap.flashPageSize) cap.flashPageSize

/-- The loop of `commit`, from the last program to the one with the header. -/
def programOps (h m : List UInt8) (size : ℕ) : List PageOp :=
  (List.range (progPages size)).reverse.map fun page =>
    .program (page * progSize) (progBuffer h m size page)

/-- The page a commit writes to, the one that is not live. -/
def Obj.target (e : Obj) : ℕ := if e.active = some 0 then 1 else 0

/-- The serial of the next commit, a 32-bit word. -/
def Obj.nextSerial (e : Obj) : ℕ := (e.serial + 1) % 2 ^ 32

/-- What a commit does to the flash. -/
def Obj.commitOps (e : Obj) (cap : Capacity) (m : List UInt8) : List PageOp :=
  eraseOps cap ++ programOps (header m e.size e.nextSerial) m e.size

/-- What a call of `commit` comes to. -/
structure Committed where
  obj : Obj
  flash : Cells
  /-- The returned value, `none` when the power went before there was one. -/
  result : Option Bool

/-- The end of a commit, given what its operations came to. -/
def Obj.settle (e : Obj) (r : Cells × Progress) : Committed :=
  match r.2 with
  | .finished =>
    ⟨{ e with active := some e.target, serial := e.nextSerial, dirty := false }, r.1, some true⟩
  | .refused => ⟨e, r.1, some false⟩
  | .lost => ⟨.fresh, r.1, none⟩

/-- `EEPROMClass::commit`. -/
def Obj.commit (e : Obj) (cap : Capacity) (f : Cells) (fault : Fault) : Committed :=
  match e.mirror with
  | none => ⟨e, f, some false⟩
  | some m =>
    if e.dirty = false then ⟨e, f, some true⟩
    else e.settle (carryOut e.target fault f (e.commitOps cap m))

/-- `EEPROMClass::end`, after the commit it makes. -/
def Obj.release (e : Obj) : Obj := { e with mirror := none, size := 0 }

/-! ### Runs -/

structure System where
  obj : Obj
  flash : Cells
  /-- The contents that may be on the flash, as far as the returned values tell: those of the
  last commit that wrote and returned true, and of every commit the power went in since.  A
  `begin` that reads the flash rules out those that it does not present.  Contents end where the
  stored size does; the empty list is a chip nothing was stored on. -/
  stored : List (List UInt8)
  /-- How many commits went to the flash. -/
  commits : ℕ

/-- What the sketch does, and what happens to it. -/
inductive Action where
  | begin (size : ℕ) (alloc : Bool)
  | write (address : ℤ) (value : UInt8)
  | commit (fault : Fault)
  | «end» (fault : Fault)
  | powerLoss

/-- The contents that a commit of `m` leaves possible, by what it returned. -/
def storedBy (stored : List (List UInt8)) (m : List UInt8) : Option Bool → List (List UInt8)
  | some true => [m]
  | some false => stored
  | none => stored ++ [m]

/-- The contents that a call of `commit` leaves possible. -/
def storedAfter (e : Obj) (stored : List (List UInt8)) (result : Option Bool) :
    List (List UInt8) :=
  match e.mirror with
  | none => stored
  | some m => if e.dirty = false then stored else storedBy stored m result

/-- A commit, with the ghost fields. -/
def System.commit (s : System) (cap : Capacity) (fault : Fault) : System :=
  let r := s.obj.commit cap s.flash fault
  { obj := r.obj, flash := r.flash, stored := storedAfter s.obj s.stored r.result,
    commits := if s.obj.mirror.isSome ∧ s.obj.dirty then s.commits + 1 else s.commits }

/-- Whether a call of `begin` goes to the flash. -/
def Obj.BeginReads (e : Obj) (size : ℕ) (alloc : Bool) : Prop :=
  ¬ (size = 0 ∨ size > maxSize) ∧ ¬ (e.mirror.isSome ∧ e.size = size) ∧ alloc

instance (e : Obj) (size : ℕ) (alloc : Bool) : Decidable (e.BeginReads size alloc) :=
  inferInstanceAs (Decidable (_ ∧ _ ∧ _))

/-- A `begin`, with the ghost fields. -/
def System.begin (s : System) (size : ℕ) (alloc : Bool) : System :=
  let e := (s.obj.begin s.flash size alloc).1
  { s with
    obj := e
    stored :=
      if s.obj.BeginReads size alloc then s.stored.filter fun c => e.mirror = some (fit size c)
      else s.stored }

def step (cap : Capacity) (s : System) : Action → System
  | .begin size alloc => s.begin size alloc
  | .write address value => { s with obj := s.obj.write address value }
  | .commit fault => s.commit cap fault
  | .«end» fault =>
    let s' := if s.obj.dirty then s.commit cap fault else s
    { s' with obj := s'.obj.release }
  | .powerLoss => { s with obj := .fresh }

/-- Runs start on a chip that neither page of holds contents, with nothing begun. -/
def machine (cap : Capacity) : Machine System Action where
  init s := s.obj = .fresh ∧ findActivePage s.flash = none ∧ s.stored = [[]] ∧ s.commits = 0
  step s a := some (step cap s a)

end Ch32h4.Eeprom
