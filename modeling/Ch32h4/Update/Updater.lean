import Ch32h4.Flash.Cells
import Ch32h4.Md5.Builder
import Ch32h4.TransitionSystem

/-!
# The updater

`UpdaterClass` receives an image of a declared size through a 4 KB page buffer.  The image of a
sketch is staged in RAM; `end` checks it, and `commit` programs it over the running sketch.  The
image of the filesystem goes to flash page by page; what it leaves there is not modelled, only
what the flash driver answers.

There are three ways in: `write` takes a buffer, `writeFrom` (the template) an object that says
how much it has, `writeStream` a stream that is read until the update is complete.  An object is
the bytes it will deliver and what its calls of `available` offer; a stream is the bytes it will
deliver and how many of them arrive in time for each `readBytes`.

An `UpdaterHashClass` is what it has been fed since its `begin`; an `UpdaterVerifyClass` is a
`Signer`.  `size_t` arithmetic is on 32 bits.
-/

namespace Ch32h4.Update

open Flash Md5

/-! ### The board -/

/-- What the linker script and the flash controller say. -/
structure Board where
  /-- `&_sketch_end - &_sketch_start`. -/
  sketchSize : ℕ
  sketchSize_lt : sketchSize < 2 ^ 31
  /-- The four bytes at offset 8 of the running sketch. -/
  entry : List UInt8
  fsStart : ℕ
  fsEnd : ℕ
  fsEnd_lt : fsEnd < 2 ^ 32
  capacity : Capacity

/-- `n` rounded up to whole erase pages. -/
def Board.roundUp (b : Board) (n : ℕ) : ℕ :=
  (n + b.capacity.flashPageSize - 1) % 2 ^ 32 / b.capacity.flashPageSize * b.capacity.flashPageSize

/-- What the flash driver answers. -/
structure Driver where
  erase : ℕ → Bool
  program : ℕ → List UInt8 → Bool

/-- A signature verifier: how long its signatures are, and what it says of a hash that was fed
some pieces and of a signature. -/
structure Signer where
  length : ℕ
  length_lt : length < 2 ^ 32
  verify : List (List UInt8) → List UInt8 → Bool

/-! ### Memory -/

/-- The memory around the staged image; `0` is `_image[0]`. -/
abbrev Mem := ℤ → UInt8

/-- `len` bytes from `off` on. -/
def Mem.read (mem : Mem) (off : ℤ) (len : ℕ) : List UInt8 :=
  (List.range len).map fun i : ℕ => mem (off + i)

/-- `memcpy(_image + off, bs, bs.length)`. -/
def Mem.copy (mem : Mem) (off : ℕ) (bs : List UInt8) : Mem := fun i =>
  if (off : ℤ) ≤ i ∧ i < off + bs.length then bs.getD (i.toNat - off) 0 else mem i

/-- `memset(_image + off, 0xFF, len)`. -/
def Mem.blank (mem : Mem) (off len : ℕ) : Mem := fun i =>
  if (off : ℤ) ≤ i ∧ i < off + len then 0xFF else mem i

/-- A word in memory. -/
def Mem.word (mem : Mem) (off : ℤ) : ℕ :=
  (mem off).toNat + 256 * ((mem (off + 1)).toNat + 256 * ((mem (off + 2)).toNat +
    256 * (mem (off + 3)).toNat))

/-! ### The object -/

/-- The values of `_error`, the `UPDATE_ERROR_` constants in use. -/
inductive Error where
  | ok
  | write
  | erase
  | space
  | size
  | stream
  | md5
  | magicByte
  | sign
  | noData
  deriving DecidableEq

inductive Command where
  | flash
  | fs
  | other
  deriving DecidableEq

/-- `_bufferSize`. -/
def bufferSize : ℕ := 4096

/-- A difference of two values of type `size_t`. -/
def sizeSub (a b : ℕ) : ℕ := (a + 2 ^ 32 - b) % 2 ^ 32

/-- The fields of `UpdaterClass`. -/
structure Updater where
  error : Error
  /-- The first `_bufferLen` bytes of `_buffer`. -/
  buffer : List UInt8
  size : ℕ
  startAddress : ℕ
  currentAddress : ℕ
  command : Command
  /-- `_staging`, `none` while nothing is allocated. -/
  staging : Option Mem
  imageLen : ℕ
  staged : Bool
  targetMd5 : List Char
  md5 : Builder
  /-- `_hash` and `_verify`. -/
  signer : Option Signer
  /-- Ghost: the current address has at some time been past the end of the update. -/
  past : Bool

namespace Updater

/-- The object as constructed. -/
def new (signer : Option Signer) : Updater :=
  ⟨.ok, [], 0, 0, 0, .flash, none, 0, false, [], .new, signer, false⟩

def isRunning (u : Updater) : Prop := u.size > 0

instance (u : Updater) : Decidable u.isRunning := inferInstanceAs (Decidable (_ > _))

def isFinished (u : Updater) : Prop := u.currentAddress = u.startAddress + u.size

instance (u : Updater) : Decidable u.isFinished := inferInstanceAs (Decidable (_ = _))

def progress (u : Updater) : ℕ := u.currentAddress - u.startAddress

def remaining (u : Updater) : ℕ := sizeSub u.size u.progress

/-- `UpdaterClass::stagedImage`, with `stagedSize`. -/
def stagedImage (u : Updater) : Option (List UInt8) :=
  if u.staged then u.staging.map fun mem => mem.read 0 u.imageLen else none

/-- `UpdaterClass::_reset`. -/
def reset (u : Updater) : Updater :=
  { u with
    buffer := []
    startAddress := 0
    currentAddress := 0
    size := 0
    command := .flash
    staging := if u.staged then u.staging else none
    imageLen := if u.staging.isSome ∧ ¬ u.staged then 0 else u.imageLen }

/-- `UpdaterClass::_setError`. -/
def setError (u : Updater) (e : Error) : Updater := { u with error := e }.reset

/-- The last lines of `begin`. -/
def setUp (u : Updater) (start size : ℕ) (command : Command) : Updater :=
  { u with
    startAddress := start
    currentAddress := start
    size
    command
    md5 := if u.signer.isNone then .begin else u.md5 }

/-- `UpdaterClass::begin`; `alloc` is what `malloc` returns, with what is there. -/
def begin (b : Board) (u : Updater) (size : ℕ) (command : Command) (alloc : Option Mem) :
    Updater × Bool :=
  if u.size > 0 then (u, false)
  else if size = 0 then (u.setError .size, false)
  else
    let u := { { u with staged := false }.reset with error := .ok, targetMd5 := [], md5 := .new }
    match command with
    | .flash =>
      if size > b.sketchSize then (u.setError .space, false)
      else
        match alloc with
        | none => (u.setError .space, false)
        | some mem =>
          let u := { u with
            staging := some (mem.blank size (b.roundUp size - size)), imageLen := size }
          (u.setUp 0 size .flash, true)
    | .fs =>
      if b.fsStart + size > b.fsEnd then (u.setError .space, false)
      else (u.setUp b.fsStart size .fs, true)
    | .other => (u, false)

/-- `UpdaterClass::setMD5`. -/
def setMD5 (u : Updater) (expected : List Char) : Updater × Bool :=
  if expected.length ≠ 32 then (u, false) else ({ u with targetMd5 := expected }, true)

def installSignature (u : Updater) (signer : Option Signer) : Updater := { u with signer }

/-! ### Writing -/

/-- The last lines of `_writeBuffer`. -/
def advance (u : Updater) : Updater :=
  { u with
    md5 := if u.signer.isNone then u.md5.add u.buffer else u.md5
    currentAddress := u.currentAddress + u.buffer.length
    buffer := []
    past := u.past || u.currentAddress + u.buffer.length > u.startAddress + u.size }

/-- `UpdaterClass::_writeBuffer`. -/
def writeBuffer (b : Board) (drv : Driver) (u : Updater) : Updater × Bool :=
  if u.command = .flash then
    ({ u with staging := u.staging.map (Mem.copy · u.currentAddress u.buffer) }.advance, true)
  else if u.currentAddress % b.capacity.flashPageSize = 0 ∧ ¬ drv.erase u.currentAddress then
    (u.setError .erase, false)
  else if ¬ drv.program u.currentAddress u.buffer then (u.setError .write, false)
  else (u.advance, true)

/-- Add bytes to the page buffer. -/
def store (u : Updater) (bs : List UInt8) : Updater := { u with buffer := u.buffer ++ bs }

/-- The loop of `write`, with what is left to write and whether a page failed.  Every turn but the
first writes a whole page, so `left.length + 1` turns are enough. -/
def writeLoop (b : Board) (drv : Driver) : ℕ → Updater → List UInt8 → Updater × List UInt8 × Bool
  | 0, u, left => (u, left, true)
  | n + 1, u, left =>
    if u.buffer.length + left.length > bufferSize then
      let toBuff := bufferSize - u.buffer.length
      let r := (u.store (left.take toBuff)).writeBuffer b drv
      if r.2 then writeLoop b drv n r.1 (left.drop toBuff) else (r.1, left, false)
    else (u, left, true)

/-- `UpdaterClass::write`, of a buffer. -/
def write (b : Board) (drv : Driver) (u : Updater) (data : List UInt8) : Updater × ℕ :=
  if u.error ≠ .ok ∨ ¬ u.isRunning then (u, 0)
  else if u.progress + u.buffer.length + data.length > u.size then (u.setError .space, 0)
  else
    let (u, left, ok) := writeLoop b drv (data.length + 1) u data
    if ¬ ok then (u, data.length - left.length)
    else
      let u := u.store left
      if u.buffer.length = u.remaining then
        let r := u.writeBuffer b drv
        if r.2 then (r.1, data.length) else (r.1, data.length - left.length)
      else (u, data.length)

/-- How much a turn of the loop of the template takes, out of what the object offers. -/
def clamp (u : Updater) (available : ℕ) : ℕ :=
  if u.buffer.length + available > u.remaining then sizeSub u.remaining u.buffer.length
  else available

/-- One turn of the loop of the template: how much of the bytes of the object it counts, and whether
it goes on. -/
def fromTurn (b : Board) (drv : Driver) (u : Updater) (src : List UInt8) (available : ℕ) :
    Updater × ℕ × Bool :=
  if u.buffer.length + available > bufferSize then
    let toBuff := bufferSize - u.buffer.length
    let r := (u.store (src.take toBuff)).writeBuffer b drv
    if r.2 then (r.1, toBuff, r.1.remaining ≠ 0) else (r.1, 0, false)
  else
    let u := u.store (src.take available)
    if u.buffer.length = u.remaining then
      let r := u.writeBuffer b drv
      if r.2 then (r.1, available, r.1.remaining ≠ 0) else (r.1, available, false)
    else (u, available, u.remaining ≠ 0)

/-- The loop of the template `write`: one call of `available` after the other, none of them past
what the object still has. -/
def fromLoop (b : Board) (drv : Driver) : List ℕ → Updater → List UInt8 → ℕ → Updater × ℕ
  | [], u, _, written => (u, written)
  | offer :: offers, u, src, written =>
    let available := min offer src.length
    if available = 0 then (u, written)
    else
      let r := u.fromTurn b drv src (u.clamp available)
      if r.2.2 then fromLoop b drv offers r.1 (src.drop r.2.1) (written + r.2.1)
      else (r.1, written + r.2.1)

/-- The template `write`. -/
def writeFrom (b : Board) (drv : Driver) (u : Updater) (src : List UInt8) (offers : List ℕ) :
    Updater × ℕ :=
  if u.error ≠ .ok ∨ ¬ u.isRunning then (u, 0) else fromLoop b drv offers u src 0

/-- How much one `readBytes` of `writeStream` returns. -/
def toRead (u : Updater) (arrived : ℕ) (bytes : List UInt8) : ℕ :=
  let bytesToRead := bufferSize - u.buffer.length
  let bytesToRead := if bytesToRead > u.remaining then u.remaining else bytesToRead
  min arrived (min bytesToRead bytes.length)

/-- One turn of the loop of `writeStream`, after a read that returned `bs`. -/
def streamTurn (b : Board) (drv : Driver) (u : Updater) (bs : List UInt8) : Updater × Bool :=
  let u := u.store bs
  if u.buffer.length = u.remaining ∨ u.buffer.length = bufferSize then u.writeBuffer b drv
  else (u, true)

/-- The loop of `writeStream`.  When the list ends, the stream has timed out. -/
def streamLoop (b : Board) (drv : Driver) : List ℕ → Updater → List UInt8 → ℕ → Updater × ℕ
  | [], u, _, written =>
    if u.remaining = 0 then (u, written)
    else
      ({ u with currentAddress := u.startAddress + u.size }.setError .stream |>.reset, written)
  | arrived :: arrivals, u, bytes, written =>
    if u.remaining = 0 then (u, written)
    else
      let n := u.toRead arrived bytes
      let r := u.streamTurn b drv (bytes.take n)
      if r.2 then streamLoop b drv arrivals r.1 (bytes.drop n) (written + n) else (r.1, written)

/-- `UpdaterClass::writeStream`. -/
def writeStream (b : Board) (drv : Driver) (u : Updater) (bytes : List UInt8)
    (arrivals : List ℕ) : Updater × ℕ :=
  if u.error ≠ .ok ∨ ¬ u.isRunning then (u, 0) else streamLoop b drv arrivals u bytes 0

/-! ### Ending -/

/-- What `strcasecmp` compares. -/
def sameHex (xs ys : List Char) : Bool := xs.map Char.toLower = ys.map Char.toLower

/-- The pieces in which `end` feeds the first `len` bytes of the image to the hash. -/
def hashPieces (mem : Mem) (len : ℤ) : List (List UInt8) :=
  let n := len.toNat
  (List.range ((n + 127) / 128)).map fun i : ℕ => mem.read (128 * i) (min 128 (n - 128 * i))

/-- `sigLen`: the last word of the image, when a signature is expected. -/
def sigLen (u : Updater) (mem : Mem) (v : Signer) : ℕ :=
  if v.length > 0 then mem.word (u.size - 4) else 0

/-- `binSize`, an `int`: the length of the image without its signature. -/
def binSize (u : Updater) (mem : Mem) (v : Signer) : ℤ :=
  if v.length > 0 then Int.bmod (u.size - (u.sigLen mem v + 4)) (2 ^ 32) else u.size

/-- The signature, as `verify` gets it. -/
def signature (u : Updater) (mem : Mem) (v : Signer) : List UInt8 :=
  if v.length > 0 then mem.read (u.binSize mem v) (u.sigLen mem v) else []

/-- The signature check of `end`; `alloc` is whether the copy of the signature can be allocated. -/
def checkSignature (u : Updater) (mem : Mem) (v : Signer) (alloc : Bool) : Updater × Bool :=
  if u.sigLen mem v ≠ v.length then (u.setError .sign |>.reset, false)
  else if v.length > 0 ∧ ¬ alloc then (u.setError .sign |>.reset, false)
  else if ¬ v.verify (hashPieces mem (u.binSize mem v)) (u.signature mem v) then
    (u.setError .sign |>.reset, false)
  else
    let size := (u.binSize mem v % 2 ^ 32).toNat
    ({ u with size, imageLen := size }, true)

/-- The MD5 check of `end`. -/
def checkMD5 (u : Updater) : Updater × Bool :=
  if u.targetMd5 ≠ [] ∧ ¬ sameHex u.targetMd5 u.md5.toHex then (u.setError .md5, false)
  else (u, true)

/-- The checks of `end`, of the image at `mem`. -/
def check (u : Updater) (mem : Mem) (alloc : Bool) : Updater × Bool :=
  match u.signer with
  | some v => if u.command = .flash then u.checkSignature mem v alloc else u.checkMD5
  | none => u.checkMD5

/-- `UpdaterClass::_verifyEnd`. -/
def verifyEnd (b : Board) (u : Updater) (mem : Mem) : Updater × Bool :=
  if u.command ≠ .flash then (u, true)
  else if u.size < 12 then (u.setError .magicByte, false)
  else if mem.read 8 4 ≠ b.entry then (u.setError .magicByte, false)
  else (u, true)

/-- The part of `end` that takes what has been received for the whole image. -/
def cutShort (b : Board) (drv : Driver) (u : Updater) : Updater :=
  let u := if u.buffer.length > 0 then (u.writeBuffer b drv).1 else u
  { u with size := u.progress }

/-- The checks of `end`, and its last lines; `null` is what is at address 0. -/
def conclude (b : Board) (u : Updater) (alloc : Bool) (null : Mem) : Updater × Bool :=
  let r := u.check (u.staging.getD null) alloc
  if ¬ r.2 then (r.1, false)
  else
    let r := r.1.verifyEnd b (r.1.staging.getD null)
    if ¬ r.2 then (r.1.reset, false)
    else if r.1.command = .flash then
      ({ r.1 with imageLen := r.1.size, staged := true }.reset, true)
    else (r.1.reset, true)

/-- `UpdaterClass::end`. -/
def «end» (b : Board) (drv : Driver) (u : Updater) (evenIfRemaining alloc : Bool) (null : Mem) :
    Updater × Bool :=
  if u.size = 0 then (u.reset, false)
  else
    let u := if u.progress = 0 then u.setError .noData else u
    if u.error ≠ .ok ∨ (¬ u.isFinished ∧ ¬ evenIfRemaining) then (u.reset, false)
    else (if evenIfRemaining then u.cutShort b drv else u).conclude b alloc null

/-! ### Committing -/

/-- What the committer does to the sketch region, by offset. -/
inductive CommitOp where
  | erase (off : ℕ)
  | program (off : ℕ) (data : List UInt8)

/-- The bytes an operation programs. -/
def CommitOp.programs : CommitOp → List UInt8
  | .erase _ => []
  | .program _ data => data

/-- `ch32h4_ota_commit`, when no operation fails: it erases `len` bytes, and programs them. -/
def otaCommit (mem : Mem) (len page : ℕ) : List CommitOp :=
  ((List.range (len / page)).map fun i : ℕ => .erase (i * page)) ++
    (List.range (len / 256)).map fun i : ℕ => .program (i * 256) (mem.read (i * 256) 256)

/-- `UpdaterClass::commit`, as what it does before the reset; `none` is a return of false.
`parked` is whether the other core parks. -/
def commit (b : Board) (u : Updater) (parked : Bool) : Option (List CommitOp) :=
  match u.staging with
  | none => none
  | some mem =>
    if ¬ u.staged ∨ u.imageLen = 0 then none
    else
      let len := b.roundUp u.imageLen
      if len > b.sketchSize then none
      else if ¬ parked then none
      else some (otaCommit mem len b.capacity.flashPageSize)

end Updater

/-! ### Runs -/

/-- What was in force when `end` returned true. -/
structure Handed where
  signer : Option Signer
  targetMd5 : List Char
  /-- A verifier had been installed at some time of the update. -/
  everSigned : Bool

/-- The object, with what the run has seen of the current update. -/
structure System where
  u : Updater
  /-- The size given to `begin`. -/
  declared : ℕ
  /-- The bytes that the calls said they took. -/
  accepted : List UInt8
  /-- A verifier has been installed at some time of the update. -/
  everSigned : Bool
  /-- Set when `end` returns true. -/
  handed : Option Handed

inductive Action where
  | begin (size : ℕ) (command : Command) (alloc : Option Mem)
  | setMD5 (expected : List Char)
  | installSignature (signer : Option Signer)
  | write (drv : Driver) (data : List UInt8)
  | writeFrom (drv : Driver) (src : List UInt8) (offers : List ℕ)
  | writeStream (drv : Driver) (bytes : List UInt8) (arrivals : List ℕ)
  | «end» (drv : Driver) (evenIfRemaining alloc : Bool) (null : Mem)

/-- A call of one of the ways in, with the bytes it could take. -/
def System.took (s : System) (bytes : List UInt8) (r : Updater × ℕ) : System :=
  { s with u := r.1, accepted := s.accepted ++ bytes.take r.2 }

def step (b : Board) (s : System) : Action → System
  | .begin size command alloc =>
    let r := s.u.begin b size command alloc
    -- a call that does not get past its first two tests leaves the current update
    if s.u.size > 0 ∨ size = 0 then { s with u := r.1 }
    else ⟨r.1, size, [], r.1.signer.isSome, none⟩
  | .setMD5 expected => { s with u := (s.u.setMD5 expected).1 }
  | .installSignature signer =>
    { s with u := s.u.installSignature signer, everSigned := s.everSigned || signer.isSome }
  | .write drv data => s.took data (s.u.write b drv data)
  | .writeFrom drv src offers => s.took src (s.u.writeFrom b drv src offers)
  | .writeStream drv bytes arrivals => s.took bytes (s.u.writeStream b drv bytes arrivals)
  | .«end» drv evenIfRemaining alloc null =>
    let r := s.u.«end» b drv evenIfRemaining alloc null
    { s with
      u := r.1
      handed := if r.2 then some ⟨s.u.signer, s.u.targetMd5, s.everSigned⟩ else s.handed }

/-- Runs start with the object constructed, with or without a verifier. -/
def machine (b : Board) : Machine System Action where
  init s := ∃ signer, s = ⟨.new signer, 0, [], signer.isSome, none⟩
  step s a := some (step b s a)

/-! ### Streams that do not overfill -/

/-- No read returns more than the update lacks: a condition on the stream and on the state a call of
`writeStream` finds. -/
def StreamFits (b : Board) (drv : Driver) : List ℕ → Updater → List UInt8 → Prop
  | [], _, _ => True
  | arrived :: arrivals, u, bytes =>
    u.remaining = 0 ∨
      (u.buffer.length + u.toRead arrived bytes ≤ u.remaining ∧
        StreamFits b drv arrivals
          (u.streamTurn b drv (bytes.take (u.toRead arrived bytes))).1
          (bytes.drop (u.toRead arrived bytes)))

/-- Every stream fits. -/
def fitting (b : Board) (s : System) : Action → Prop
  | .writeStream drv bytes arrivals => s.u.isRunning → StreamFits b drv arrivals s.u bytes
  | _ => True

end Ch32h4.Update
