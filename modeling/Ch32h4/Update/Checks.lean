import Ch32h4.Traced
import Ch32h4.Update.Updater

/-!
# The checks of `end`, with what they read

`end` takes the length of the signature from the last word of the image.  Here its checks note every
read of the image, by its offset from `_image[0]`, and every subtraction that gives a length.
-/

namespace Ch32h4.Update

open Traced

inductive Access where
  /-- `len` bytes are read at `_image + off`. -/
  | read (off : ℤ) (len : ℕ)
  /-- `b` is subtracted from `a`, for a length. -/
  | sub (a b : ℤ)
  deriving DecidableEq

namespace Checks

def readBytes (mem : Mem) (off : ℤ) (len : ℕ) : Traced Access (List UInt8) := do
  note (.read off len)
  return mem.read off len

def readWord (mem : Mem) (off : ℤ) : Traced Access ℕ := do
  note (.read off 4)
  return mem.word off

def subLength (a b : ℤ) : Traced Access ℤ := do
  note (.sub a b)
  return a - b

/-- The loop that feeds the hash, 128 bytes at a time. -/
def feedHash (mem : Mem) (binSize : ℤ) : Traced Access (List (List UInt8)) :=
  (List.range ((binSize.toNat + 127) / 128)).mapM fun i : ℕ => do
    let left ← subLength binSize (128 * i)
    readBytes mem (128 * i) (min 128 left.toNat)

/-- `sigLen`. -/
def readSigLen (u : Updater) (mem : Mem) (v : Signer) : Traced Access ℕ :=
  if v.length > 0 then readWord mem (u.size - 4) else return 0

/-- `binSize`: the sum is one of 32 bits, and the difference becomes an `int`. -/
def subSigLen (u : Updater) (v : Signer) (sigLen : ℕ) : Traced Access ℤ :=
  if v.length > 0 then do
    let size ← subLength u.size ((sigLen + 4) % 2 ^ 32 : ℕ)
    return Int.bmod size (2 ^ 32)
  else return u.size

/-- `sig`. -/
def readSig (mem : Mem) (v : Signer) (binSize : ℤ) (sigLen : ℕ) : Traced Access (List UInt8) :=
  if v.length > 0 then readBytes mem binSize sigLen else return []

/-- The signature check of `end`, of an image at `mem`. -/
def checkSignature (u : Updater) (mem : Mem) (v : Signer) (alloc : Bool) :
    Traced Access (Updater × Bool) := do
  let sigLen ← readSigLen u mem v
  if sigLen ≠ v.length then return (u.setError .sign |>.reset, false)
  else
    let binSize ← subSigLen u v sigLen
    let pieces ← feedHash mem binSize
    if v.length > 0 ∧ ¬ alloc then return (u.setError .sign |>.reset, false)
    else
      let sig ← readSig mem v binSize sigLen
      if ¬ v.verify pieces sig then return (u.setError .sign |>.reset, false)
      else
        let size := (binSize % 2 ^ 32).toNat
        return ({ u with size, imageLen := size }, true)

/-- The checks of `end`; that of the MD5 does not look at the image. -/
def check (u : Updater) (mem : Mem) (alloc : Bool) : Traced Access (Updater × Bool) :=
  match u.signer with
  | some v => if u.command = .flash then checkSignature u mem v alloc else pure u.checkMD5
  | none => pure u.checkMD5

/-- `UpdaterClass::_verifyEnd`. -/
def verifyEnd (b : Board) (u : Updater) (mem : Mem) : Traced Access (Updater × Bool) :=
  if u.command ≠ .flash then return (u, true)
  else if u.size < 12 then return (u.setError .magicByte, false)
  else do
    let got ← readBytes mem 8 4
    if got ≠ b.entry then return (u.setError .magicByte, false) else return (u, true)

/-- The checks of `end`, and its last lines. -/
def conclude (b : Board) (u : Updater) (alloc : Bool) (null : Mem) : Traced Access (Updater × Bool) := do
  let r ← check u (u.staging.getD null) alloc
  if ¬ r.2 then return (r.1, false)
  else
    let r ← verifyEnd b r.1 (r.1.staging.getD null)
    if ¬ r.2 then return (r.1.reset, false)
    else if r.1.command = .flash then
      return ({ r.1 with imageLen := r.1.size, staged := true }.reset, true)
    else return (r.1.reset, true)

/-- `UpdaterClass::end`. -/
def «end» (b : Board) (drv : Driver) (u : Updater) (evenIfRemaining alloc : Bool) (null : Mem) :
    Traced Access (Updater × Bool) :=
  if u.size = 0 then return (u.reset, false)
  else
    let u := if u.progress = 0 then u.setError .noData else u
    if u.error ≠ .ok ∨ (¬ u.isFinished ∧ ¬ evenIfRemaining) then return (u.reset, false)
    else conclude b (if evenIfRemaining then u.cutShort b drv else u) alloc null

end Checks

namespace Updater

/-- `end` returns before its checks. -/
def GivesUp (u : Updater) (evenIfRemaining : Bool) : Prop :=
  u.size = 0 ∨ u.progress = 0 ∨ u.error ≠ .ok ∨ (¬ u.isFinished ∧ ¬ evenIfRemaining)

/-- The object as the checks of `end` find it: its size is that of the image received. -/
def received (b : Board) (drv : Driver) (u : Updater) (evenIfRemaining : Bool) : Updater :=
  if evenIfRemaining then u.cutShort b drv else u

/-- The memory they find the image in. -/
def image (u : Updater) (null : Mem) : Mem := u.staging.getD null

end Updater

end Ch32h4.Update
