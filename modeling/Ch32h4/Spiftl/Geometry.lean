import Mathlib.Tactic.NormNum
import Mathlib.Tactic.Positivity

/-!
# The geometry of a volume

The numbers the constructor `SPIFTL::SPIFTL` computes from the size of the partition and the size
of an erase block.  `Dims` are its two inputs; the members it sets are the functions below, under
their names.

A `Geometry` is a pair of inputs the constructor gets through with: its two assertions hold, and
the table of `flashLBAs` entries it allocates has a length.  The size of an erase block is what
`ch32h4_flash_page_size` returns, 8192 or, on the 480 KB part, 4096; what is used of this is that a
block is a whole number of sectors, at least eight, and few enough of them that a count of live
sectors never reaches the sentinel `ebMeta`.
-/

namespace Ch32h4.Spiftl

/-- The inputs of the constructor. -/
structure Dims where
  ebBytes : ℕ
  flashBytes : ℕ

/-- The size of a sector. -/
def lbaBytes : ℕ := 512

/-- `flashWriteBufferSize`: what `CH32H4FTLFlash::writeBufferSize` returns. -/
def flashWriteBufferSize : ℕ := 256

/-- The largest spread of erase counts that wear levelling allows. -/
def maxPEDiff : ℕ := 64

/-- `ebState` of a block that holds metadata. -/
def ebMeta : ℕ := 0xff

namespace Dims

variable (g : Dims)

def eraseBlocks : ℕ := g.flashBytes / g.ebBytes

/-- `ebBytes / lbaBytes`, the sectors of a block. -/
def slotsPerEB : ℕ := g.ebBytes / lbaBytes

def theoreticalLBAs : ℕ := g.eraseBlocks * g.ebBytes / lbaBytes

def metaEBBytes : ℕ := g.eraseBlocks + g.eraseBlocks + g.theoreticalLBAs * 2 + 4

def metaEBs : ℕ := 2 * (1 + g.metaEBBytes / (g.ebBytes - 64))

def flashLBAs : ℕ := (g.eraseBlocks - 3 - g.metaEBs) * g.slotsPerEB

/-- `while ((1 << idxBits) < (ebBytes / lbaBytes)) idxBits++`, from `bits` on. -/
def idxBitsLoop : ℕ → ℕ → ℕ
  | 0, bits => bits
  | fuel + 1, bits => if 2 ^ bits < g.slotsPerEB then idxBitsLoop fuel (bits + 1) else bits

/-- The loop stops after at most as many rounds as a block has sectors. -/
def idxBits : ℕ := g.idxBitsLoop g.slotsPerEB 0

def ebFieldBits : ℕ := 15 - g.idxBits

theorem slots_le_idxBitsLoop : ∀ fuel bits, g.slotsPerEB ≤ fuel + bits →
    g.slotsPerEB ≤ 2 ^ g.idxBitsLoop fuel bits := by
  intro fuel
  induction fuel with
  | zero =>
    intro bits h
    rw [idxBitsLoop]
    have := Nat.lt_two_pow_self (n := bits)
    omega
  | succ fuel ih =>
    intro bits h
    rw [idxBitsLoop]
    split_ifs with hlt
    · exact ih (bits + 1) (by omega)
    · omega

theorem idxBitsLoop_le {k : ℕ} (hk : g.slotsPerEB ≤ 2 ^ k) : ∀ fuel bits, bits ≤ k →
    g.idxBitsLoop fuel bits ≤ k := by
  intro fuel
  induction fuel with
  | zero => intro bits h; exact h
  | succ fuel ih =>
    intro bits h
    rw [idxBitsLoop]
    split_ifs with hlt
    · refine ih (bits + 1) (Nat.lt_of_le_of_ne h fun hbits => ?_)
      rw [hbits] at hlt
      omega
    · exact h

end Dims

/-- Inputs that the constructor accepts. -/
structure Geometry extends Dims where
  /-- `assert(flashBytes <= 16 * 1024 * 1024)`. -/
  flash_le : flashBytes ≤ 16 * 1024 * 1024
  /-- `assert(eraseBlocks <= (1 << ebFieldBits))`. -/
  blocks_le : toDims.eraseBlocks ≤ 2 ^ toDims.ebFieldBits
  /-- `flashLBAs`, the length of the table `l2p`, is not negative. -/
  reserve_le : 3 + toDims.metaEBs ≤ toDims.eraseBlocks
  sectors : lbaBytes ∣ ebBytes
  eight_le : 8 ≤ toDims.slotsPerEB
  slots_lt : toDims.slotsPerEB < ebMeta

namespace Geometry

variable (g : Geometry)

theorem ebBytes_eq : g.ebBytes = lbaBytes * g.slotsPerEB :=
  (Nat.mul_div_cancel' g.sectors).symm

theorem slots_le : g.slotsPerEB ≤ 2 ^ g.idxBits :=
  g.slots_le_idxBitsLoop _ _ (by omega)

theorem metaEBs_pos : 0 < g.metaEBs := by
  rw [Dims.metaEBs]
  positivity

theorem eraseBlocks_pos : 0 < g.eraseBlocks := by
  have := g.reserve_le
  omega

theorem idxBits_add_ebFieldBits : g.idxBits + g.ebFieldBits = 15 := by
  have h : g.idxBits ≤ 8 := by
    have hlt : g.slotsPerEB ≤ 2 ^ 8 := by
      have := g.slots_lt
      norm_num [ebMeta] at this ⊢
      omega
    exact g.idxBitsLoop_le hlt _ _ (by omega)
  rw [Dims.ebFieldBits]
  omega

/-- Six blocks of eight sectors, which hold eight sectors in all: with blocks of 4096 bytes no
smaller volume holds any. -/
def sixBlocks : Geometry where
  ebBytes := 4096
  flashBytes := 24576
  flash_le := by decide
  blocks_le := by decide
  reserve_le := by decide
  sectors := by decide
  eight_le := by decide
  slots_lt := by decide

end Geometry

end Ch32h4.Spiftl
