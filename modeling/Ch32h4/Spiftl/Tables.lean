import Ch32h4.Flash.Cells
import Ch32h4.Spiftl.Geometry
import Mathlib.Algebra.Order.Ring.Int
import Mathlib.Tactic.Ring
import Mathlib.Logic.Function.Basic

/-!
# The tables of a volume and the flash under it

`Ram` are the members of `SPIFTL` that change, under their names; the tables `peCount`, `ebState`
and `l2p` are functions of the index, and `none` stands for the `-1` of `openEB` and of an entry
of `metaEBList`.  The entries of `l2p` are the packed 16-bit words of the source.

`Ftl` is a volume on its flash.  Every call that reaches the driver is appended to `log`, together
with the tables and the array as they stood when it was issued; nothing in the code reads the log,
it is there to state what happens during an operation.  Which of the calls are carried out is
`outcome`, indexed by the number of calls before.
-/

namespace Ch32h4.Spiftl

open Flash

/-! ### The packed entries of `l2p` -/

namespace Dims

variable (g : Dims)

/-- `l2p_eb`: the low `ebFieldBits` bits. -/
def l2pEb (entry : ℕ) : ℕ := entry &&& (2 ^ g.ebFieldBits - 1)

/-- `l2p_idx`: the `idxBits` bits above them. -/
def l2pIdx (entry : ℕ) : ℕ := (entry >>> g.ebFieldBits) &&& (2 ^ g.idxBits - 1)

/-- `make_l2p`. -/
def makeL2P (idx eb : ℕ) : ℕ := 2 ^ 15 ||| (idx <<< g.ebFieldBits) % 2 ^ 16 ||| eb

end Dims

/-- `l2p_val`: the top bit. -/
def l2pVal (entry : ℕ) : Bool := (entry &&& 2 ^ 15) != 0

namespace Geometry

variable (g : Geometry)

theorem makeL2P_eq {idx eb : ℕ} (hidx : idx < 2 ^ g.idxBits) (heb : eb < 2 ^ g.ebFieldBits) :
    g.makeL2P idx eb = (2 ^ g.idxBits + idx) * 2 ^ g.ebFieldBits + eb := by
  have hbits : 2 ^ 15 = 2 ^ g.idxBits * 2 ^ g.ebFieldBits := by
    rw [← pow_add, g.idxBits_add_ebFieldBits]
  have hsh : idx <<< g.ebFieldBits < 2 ^ 15 := by
    rw [Nat.shiftLeft_eq, hbits]
    exact Nat.mul_lt_mul_of_pos_right hidx (by positivity)
  have hmod : (idx <<< g.ebFieldBits) % 2 ^ 16 = idx <<< g.ebFieldBits :=
    Nat.mod_eq_of_lt (by omega)
  have htop : 2 ^ 15 ||| idx <<< g.ebFieldBits = 2 ^ 15 + idx <<< g.ebFieldBits := by
    simpa using (Nat.two_pow_add_eq_or_of_lt hsh 1).symm
  have hlow : 2 ^ 15 + idx <<< g.ebFieldBits = (2 ^ g.idxBits + idx) <<< g.ebFieldBits := by
    rw [Nat.shiftLeft_eq, Nat.shiftLeft_eq, hbits]
    ring
  rw [Dims.makeL2P, hmod, htop, hlow, ← Nat.shiftLeft_add_eq_or_of_lt heb, Nat.shiftLeft_eq]

theorem l2pEb_makeL2P {idx eb : ℕ} (hidx : idx < 2 ^ g.idxBits) (heb : eb < 2 ^ g.ebFieldBits) :
    g.l2pEb (g.makeL2P idx eb) = eb := by
  rw [Dims.l2pEb, Nat.and_two_pow_sub_one_eq_mod, g.makeL2P_eq hidx heb,
    Nat.mul_add_mod_of_lt heb]

theorem l2pIdx_makeL2P {idx eb : ℕ} (hidx : idx < 2 ^ g.idxBits)
    (heb : eb < 2 ^ g.ebFieldBits) : g.l2pIdx (g.makeL2P idx eb) = idx := by
  rw [Dims.l2pIdx, Nat.and_two_pow_sub_one_eq_mod, Nat.shiftRight_eq_div_pow,
    g.makeL2P_eq hidx heb, Nat.mul_comm, Nat.mul_add_div (by positivity), Nat.div_eq_of_lt heb,
    Nat.add_zero, Nat.add_mod_left, Nat.mod_eq_of_lt hidx]

@[simp] theorem l2pVal_makeL2P (idx eb : ℕ) : l2pVal (g.makeL2P idx eb) = true := by
  have hbit : (g.makeL2P idx eb).testBit 15 = true := by
    rw [Dims.makeL2P, Nat.testBit_or, Nat.testBit_or, Nat.testBit_two_pow_self, Bool.true_or,
      Bool.true_or]
  have hone : (g.makeL2P idx eb &&& 2 ^ 15).testBit 15 = true := by
    rw [Nat.testBit_and, hbit, Nat.testBit_two_pow_self, Bool.and_self]
  rw [l2pVal, bne_iff_ne]
  intro hzero
  rw [hzero, Nat.zero_testBit] at hone
  exact Bool.false_ne_true hone

theorem makeL2P_lt {idx eb : ℕ} (hidx : idx < 2 ^ g.idxBits) (heb : eb < 2 ^ g.ebFieldBits) :
    g.makeL2P idx eb < 2 ^ 16 := by
  have hbits : 2 ^ g.idxBits * 2 ^ g.ebFieldBits = 2 ^ 15 := by
    rw [← pow_add, g.idxBits_add_ebFieldBits]
  rw [g.makeL2P_eq hidx heb]
  calc (2 ^ g.idxBits + idx) * 2 ^ g.ebFieldBits + eb
      < (2 ^ g.idxBits + idx) * 2 ^ g.ebFieldBits + 2 ^ g.ebFieldBits := by omega
    _ = (2 ^ g.idxBits + (idx + 1)) * 2 ^ g.ebFieldBits := by ring
    _ ≤ (2 ^ g.idxBits + 2 ^ g.idxBits) * 2 ^ g.ebFieldBits :=
        Nat.mul_le_mul_right _ (by omega)
    _ = 2 ^ 16 := by rw [← Nat.two_mul, Nat.mul_assoc, hbits]; norm_num

end Geometry

@[simp] theorem l2pVal_zero : l2pVal 0 = false := by decide

/-! ### The members -/

structure Ram where
  peCount : ℕ → ℕ
  ebState : ℕ → ℕ
  metaEBList : List (Option ℕ)
  l2p : ℕ → ℕ
  peCountOffset : ℕ
  highestPECount : ℤ
  emptyEBs : ℤ
  validLBAs : ℤ
  metadataAge : ℕ
  openEB : Option ℕ
  openEBNextIndex : ℕ
  metadataEpoch : ℕ
  /-- `static int eb` of `garbageCollect`: where the search for a source block goes on. -/
  gcEB : ℕ

namespace Ram

/-- `setEBState`, which stores one byte. -/
def setEBState (r : Ram) (eb state : ℕ) : Ram :=
  { r with ebState := Function.update r.ebState eb (state % 256) }

def ebIsMeta (r : Ram) (eb : ℕ) : Bool := r.ebState eb == ebMeta

def setEBMeta (r : Ram) (eb : ℕ) : Ram := r.setEBState eb ebMeta

def setLBAValid (r : Ram) (eb : ℕ) : Ram := r.setEBState eb (r.ebState eb + 1)

/-- `setEBState(eb, getEBState(eb) - 1)`, on unsigned values. -/
def clearLBAValid (r : Ram) (eb : ℕ) : Ram := r.setEBState eb (r.ebState eb + 255)

def setLBA (r : Ram) (g : Dims) (lba eb idx : ℕ) : Ram :=
  { r with l2p := Function.update r.l2p lba (g.makeL2P idx eb) }

/-- `findLBA`: the block and slot of a valid entry. -/
def findLBA (r : Ram) (g : Dims) (lba : ℕ) : Option (ℕ × ℕ) :=
  if l2pVal (r.l2p lba) then some (g.l2pEb (r.l2p lba), g.l2pIdx (r.l2p lba)) else none

/-- `lowestEmptyEB`: among the blocks whose count is zero the one with the lowest erase count, the
last of them on a tie; `none` is the `-1` of the source. -/
def lowestEmptyEB (r : Ram) (g : Dims) : Option ℕ :=
  ((List.range g.eraseBlocks).foldl (fun lowest i =>
    if r.peCount i ≤ lowest.1 ∧ r.ebState i = 0 then (r.peCount i, some i) else lowest)
    ((1 <<< 16 : ℕ), (none : Option ℕ))).2

/-- `gcScore`: aged blocks first, then the emptier a block the higher its score. -/
def gcScore (r : Ram) (g : Dims) (eb : ℕ) : ℤ :=
  if r.ebState eb = ebMeta ∨ r.ebState eb = 0 then 0
  else
    let delta := r.highestPECount - r.peCount eb
    if maxPEDiff ≤ delta then 10 + delta - maxPEDiff
    else if (maxPEDiff * 7) / 8 < delta then 9
    else g.slotsPerEB - r.ebState eb

end Ram

/-! ### The volume on its flash -/

/-- A call of the driver. -/
inductive FlashOp where
  | erase (eb : ℕ)
  | program (eb off : ℕ) (data : List UInt8)

/-- A call of the driver as it was issued: whether it reported success, and the tables and the
array before it. -/
structure Entry where
  op : FlashOp
  ok : Bool
  ram : Ram
  flash : Cells

structure Ftl where
  ram : Ram
  flash : Cells
  /-- What the driver call comes to that follows `n` others. -/
  outcome : ℕ → Outcome
  /-- The calls issued so far, the latest first. -/
  log : List Entry

namespace Dims

/-- `CH32H4FTLFlash::inRange`. -/
def inRange (g : Dims) (eb off size : ℕ) : Bool := eb * g.ebBytes + off + size ≤ g.flashBytes

end Dims

namespace Ftl

variable (g : Dims) (s : Ftl)

/-- What the next driver call comes to; a call out of range never reaches the driver. -/
def next (inRange : Bool) : Outcome := if inRange then s.outcome s.log.length else .refused

/-- `CH32H4FTLFlash::eraseBlock`, whose result every caller drops. -/
def eraseBlock (eb : ℕ) : Ftl :=
  let out := s.next (g.inRange eb 0 g.ebBytes)
  { s with
    flash := Flash.erase s.flash eb out
    log := ⟨.erase eb, eraseOk out, s.ram, s.flash⟩ :: s.log }

/-- `CH32H4FTLFlash::program`, whose result every caller drops.  It takes whole program pages. -/
def program (eb off : ℕ) (data : List UInt8) : Ftl :=
  let out := s.next (g.inRange eb off data.length && off % flashWriteBufferSize == 0 &&
    data.length % flashWriteBufferSize == 0)
  { s with
    flash := Flash.program s.flash eb off data out
    log := ⟨.program eb off data, programOk s.flash eb off data out, s.ram, s.flash⟩ :: s.log }

/-- `CH32H4FTLFlash::read` into a buffer that holds `dest`, which stays as it is when the read is
refused. -/
def readFlash (eb off len : ℕ) (dest : List UInt8) : List UInt8 :=
  if g.inRange eb off len then readBytes s.flash eb off len else dest

end Ftl

end Ch32h4.Spiftl
