import Mathlib.Algebra.Order.Ring.Int

/-!
# `seek` of the three file systems

Translation of `seek` of `LittleFSFileImpl`, `FatFSFileImpl` and `SDFSFileImpl`, down to
`lfs_file_seek_` and `f_lseek` of the libraries under them.  Positions and sizes are numbers, with
the 32-bit arithmetic written out; the medium is read and written without errors.

A file on a FAT volume has a chain of clusters, which are named by their places in it, from 1 on.
Caches and the contents of the files are left out: no branch that decides on a position or on a
result sees them.
-/

namespace Ch32h4.Fs

/-- `SeekMode`. -/
inductive SeekMode
  | seekSet
  | seekCur
  | seekEnd
deriving DecidableEq, Repr

/-- The value of a `uint32_t` for a number. -/
def wrap (n : ℕ) : ℕ :=
  n % 2 ^ 32

/-- The value of an `int32_t` that has the last 32 bits of a number. -/
def signed (n : ℕ) : ℤ :=
  if n % 2 ^ 32 < 2 ^ 31 then (n % 2 ^ 32 : ℕ) else (n % 2 ^ 32 : ℕ) - 2 ^ 32

/-! ### LittleFS -/

/-- `LFS_ERR_INVAL`. -/
def lfsErrInval : ℤ :=
  -22

/-- `LFS_FILE_MAX`. -/
def lfsFileMax : ℕ :=
  2147483647

/-- What `lfs_file_seek_` sees of an `lfs_t`; the bound is asserted when the volume is mounted. -/
structure Lfs where
  fileMax : ℕ
  fileMax_le : fileMax ≤ lfsFileMax

/-- What it sees of an `lfs_file_t`. -/
structure LfsFile where
  pos : ℕ
  ctzSize : ℕ
  /-- `LFS_F_WRITING`. -/
  writing : Bool
deriving DecidableEq

namespace LfsFile

/-- `lfs_file_size_`. -/
def size (f : LfsFile) : ℕ :=
  if f.writing then max f.pos f.ctzSize else f.ctzSize

/-- `lfs_file_flush`: what follows the position is copied, and the size is that of the whole. -/
def flush (f : LfsFile) : LfsFile :=
  if f.writing then { f with ctzSize := max f.pos f.ctzSize, writing := false } else f

/-- The new position, which is `none` where it is negative.  A sum of two signed numbers is taken
to wrap around. -/
def npos (f : LfsFile) (off : ℕ) : SeekMode → Option ℕ
  | .seekSet => some (wrap off)
  | .seekCur => if signed (f.pos + off) < 0 then none else some (wrap (f.pos + off))
  | .seekEnd => if signed (f.size + off) < 0 then none else some (wrap (f.size + off))

/-- `lfs_file_seek_`. -/
def seek (lfs : Lfs) (f : LfsFile) (off : ℕ) (mode : SeekMode) : ℤ × LfsFile :=
  match f.npos off mode with
  | none => (lfsErrInval, f)
  | some npos =>
    if npos > lfs.fileMax then (lfsErrInval, f)
    else if f.pos = npos then (signed npos, f)
    else (signed npos, { f.flush with pos := npos })

end LfsFile

structure LittleFSFileImpl where
  lfs : Lfs
  file : LfsFile
  opened : Bool

namespace LittleFSFileImpl

def position (l : LittleFSFileImpl) : ℕ :=
  if !l.opened then 0 else l.file.pos

def size (l : LittleFSFileImpl) : ℕ :=
  if !l.opened then 0 else l.file.size

def seek (l : LittleFSFileImpl) (pos : UInt32) (mode : SeekMode) : Bool × LittleFSFileImpl :=
  if !l.opened then (false, l)
  else
    let r := l.file.seek l.lfs pos.toNat mode
    (decide (r.1 ≥ 0), { l with file := r.2 })

end LittleFSFileImpl

/-! ### FAT -/

/-- The `FRESULT`s of `f_lseek` on a medium without errors. -/
inductive FResult
  | ok
  | intErr
deriving DecidableEq

/-- What `f_lseek` sees of a mounted volume. -/
structure FatFs where
  /-- Sectors of a cluster. -/
  csize : ℕ
  csize_pos : 0 < csize
  /-- Free clusters. -/
  free : ℕ

/-- `SS(fs)`. -/
def sectorSize : ℕ :=
  512

/-- `bcs`, the size of a cluster. -/
def FatFs.bcs (fs : FatFs) : ℕ :=
  fs.csize * sectorSize

theorem FatFs.bcs_pos (fs : FatFs) : 0 < fs.bcs :=
  Nat.mul_pos fs.csize_pos (by decide)

/-- `FIL`. -/
structure Fil where
  fs : FatFs
  fptr : ℕ
  objsize : ℕ
  /-- The length of the cluster chain. -/
  clusters : ℕ
  /-- The cluster of the position, 0 if there is none yet. -/
  clust : ℕ
  /-- `FA_WRITE`. -/
  write : Bool
  err : FResult

namespace Fil

/-- `obj.sclust`. -/
def sclust (f : Fil) : ℕ :=
  if f.clusters = 0 then 0 else 1

/-- `create_chain`: the cluster after `clst`, or a new one at the end, or 0 if none is free. -/
def createChain (f : Fil) (clst : ℕ) : ℕ × Fil :=
  if clst ≠ 0 ∧ clst < f.clusters then (clst + 1, f)
  else if f.fs.free = 0 then (0, f)
  else
    (clst + 1,
      { f with clusters := clst + 1, fs := { f.fs with free := f.fs.free - 1 } })

/-- `get_fat`, which is `none` at the end of the chain. -/
def getFat (f : Fil) (clst : ℕ) : Option ℕ :=
  if clst < f.clusters then some (clst + 1) else none

/-- `ABORT`. -/
def abort (f : Fil) : FResult × Fil :=
  (.intErr, { f with err := .intErr })

/-- The cluster following loop, and the advance within the last cluster. -/
def followChain (f : Fil) (clst ofs : ℕ) : FResult × Fil :=
  if ofs > f.fs.bcs then
    let f₁ := { f with fptr := f.fptr + f.fs.bcs }
    if f.write then
      let c := f₁.createChain clst
      -- The disk is full: the position stays where the chain ends.
      if c.1 = 0 then (.ok, c.2)
      else followChain { c.2 with clust := c.1 } c.1 (ofs - f.fs.bcs)
    else
      match f₁.getFat clst with
      | none => f₁.abort
      | some next => followChain { f₁ with clust := next } next (ofs - f.fs.bcs)
  else (.ok, { f with fptr := f.fptr + ofs })
termination_by ofs
decreasing_by
  all_goals
    have := f.fs.bcs_pos
    omega

/-- The part of `f_lseek` for an offset that is not 0, which starts from the current cluster or
from the first one. -/
def seekCluster (f : Fil) (ifptr ofs : ℕ) : FResult × Fil :=
  let bcs := f.fs.bcs
  if ifptr > 0 ∧ (ofs - 1) / bcs ≥ (ifptr - 1) / bcs then
    -- `(ifptr - 1) & ~(bcs - 1)`, where `bcs` is a power of two.
    let fptr := (ifptr - 1) / bcs * bcs
    if f.clust ≠ 0 then followChain { f with fptr := fptr } f.clust (ofs - fptr)
    else (.ok, { f with fptr := fptr })
  else
    let c := if f.sclust = 0 then f.createChain 0 else (f.sclust, f)
    if c.1 ≠ 0 then followChain { c.2 with clust := c.1 } c.1 ofs
    else (.ok, { c.2 with clust := c.1 })

/-- The size grows with the position. -/
def extend (f : Fil) : Fil :=
  if f.fptr > f.objsize then { f with objsize := f.fptr } else f

/-- `f_lseek`. -/
def lseek (f : Fil) (ofs : ℕ) : FResult × Fil :=
  if f.err ≠ .ok then (f.err, f)
  else
    let ofs := if ofs > f.objsize ∧ !f.write then f.objsize else ofs
    let f₀ := { f with fptr := 0 }
    let r := if ofs > 0 then f₀.seekCluster f.fptr ofs else (.ok, f₀)
    if r.1 = .ok then (.ok, r.2.extend) else r

end Fil

/-- `FatFSFileImpl` and `SDFSFileImpl`, which are the same code over another disk. -/
structure FilFileImpl where
  fil : Fil
  opened : Bool

namespace FilFileImpl

def position (g : FilFileImpl) : ℕ :=
  if g.opened then g.fil.fptr else 0

def size (g : FilFileImpl) : ℕ :=
  if g.opened then g.fil.objsize else 0

/-- `target`, of the type `FSIZE_t`. -/
def target (g : FilFileImpl) (pos : UInt32) : SeekMode → ℕ
  | .seekSet => pos.toNat
  | .seekCur => wrap (g.fil.fptr + pos.toNat)
  | .seekEnd => wrap (g.fil.objsize + (2 ^ 32 - pos.toNat))

def seek (g : FilFileImpl) (pos : UInt32) (mode : SeekMode) : Bool × FilFileImpl :=
  if !g.opened then (false, g)
  else
    let target := g.target pos mode
    let r := g.fil.lseek target
    (decide (r.1 = .ok ∧ r.2.fptr = target), { g with fil := r.2 })

end FilFileImpl

/-- `FatFSFileImpl::seek`. -/
def FatFSFileImpl.seek (f : FilFileImpl) (pos : UInt32) (mode : SeekMode) : Bool × FilFileImpl :=
  f.seek pos mode

/-- `SDFSFileImpl::seek`. -/
def SDFSFileImpl.seek (s : FilFileImpl) (pos : UInt32) (mode : SeekMode) : Bool × FilFileImpl :=
  s.seek pos mode

end Ch32h4.Fs
