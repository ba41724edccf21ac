import Mathlib.Algebra.Order.Ring.Int
import Mathlib.Data.List.GetD
import Mathlib.Tactic.SplitIfs

/-!
# A flash array

Erase blocks of byte cells.  A cell is `none` while it is erased, and reads as the erased pattern
of the part; programming an erased cell stores the byte, and programming it again can only clear
bits.  `erase` and `program` are the two operations of the array, `Outcome` what a driver call can
come to, and `program_ok`, `program_frame` and `erase_frame` the rules the rest of the development
uses: a program that reports success has left its data in its range, and nothing outside the range
of an operation moves, whatever its outcome.
-/

namespace Ch32h4.Flash

/-- The two capacities of the part; a bit of the flash controller tells which. -/
inductive Capacity where
  | is480K
  | is960K
  deriving DecidableEq

/-- `ch32h4_flash_page_size()`, what one erase command erases. -/
def Capacity.flashPageSize : Capacity → ℕ
  | .is480K => 4096
  | .is960K => 8192

theorem Capacity.flashPageSize_pos (p : Capacity) : 0 < p.flashPageSize := by
  cases p <;> decide

/-- One byte of the array; `none` while it is erased. -/
abbrev Cell := Option UInt8

/-- The array: erase block, then offset within the block. -/
abbrev Cells := ℕ → ℕ → Cell

/-- The byte an erased cell reads as: the words of an erased block are `0xE339E339`, stored low
byte first. -/
def erasedByte (off : ℕ) : UInt8 := if off % 2 = 0 then 0x39 else 0xE3

/-- Programming a cell. -/
def Cell.program : Cell → UInt8 → Cell
  | none, b => some b
  | some a, b => some (a &&& b)

def readByte (f : Cells) (eb off : ℕ) : UInt8 := (f eb off).getD (erasedByte off)

/-- `len` bytes of a block, from `off` on. -/
def readBytes (f : Cells) (eb off len : ℕ) : List UInt8 :=
  (List.range len).map fun i => readByte f eb (off + i)

/-- The little-endian word at `off`. -/
def readWord (f : Cells) (eb off : ℕ) : ℕ :=
  (readByte f eb off).toNat + 256 * ((readByte f eb (off + 1)).toNat +
    256 * ((readByte f eb (off + 2)).toNat + 256 * (readByte f eb (off + 3)).toNat))

/-- The bytes of a word in memory. -/
def bytesLE (w : ℕ) : List UInt8 :=
  [UInt8.ofNat w, UInt8.ofNat (w / 2 ^ 8), UInt8.ofNat (w / 2 ^ 16), UInt8.ofNat (w / 2 ^ 24)]

/-- What a driver call comes to: it is carried out, or it is refused before it touches the array,
or it gives up part way and leaves its range in some state. -/
inductive Outcome where
  | done
  | refused
  | broken (junk : ℕ → Cell)

/-- The cells in `[off, off + len)` of block `eb`. -/
def InRange (eb off len : ℕ) (e o : ℕ) : Prop := e = eb ∧ off ≤ o ∧ o < off + len

instance (eb off len e o : ℕ) : Decidable (InRange eb off len e o) :=
  inferInstanceAs (Decidable (_ ∧ _))

/-- Program `data` at `off` of block `eb`. -/
def program (f : Cells) (eb off : ℕ) (data : List UInt8) : Outcome → Cells
  | .done => fun e o =>
    if InRange eb off data.length e o then Cell.program (f e o) (data.getD (o - off) 0) else f e o
  | .refused => f
  | .broken junk => fun e o => if InRange eb off data.length e o then junk o else f e o

/-- Whether the driver reports success: the operation ran to its end and what it programmed reads
back. -/
def programOk (f : Cells) (eb off : ℕ) (data : List UInt8) : Outcome → Bool
  | .done => readBytes (program f eb off data .done) eb off data.length = data
  | .refused => false
  | .broken _ => false

/-- Erase block `eb`, all of it. -/
def erase (f : Cells) (eb : ℕ) : Outcome → Cells
  | .done => fun e o => if e = eb then none else f e o
  | .refused => f
  | .broken junk => fun e o => if e = eb then junk o else f e o

def eraseOk : Outcome → Bool
  | .done => true
  | .refused => false
  | .broken _ => false

/-! ### Reading -/

@[simp] theorem readBytes_length (f : Cells) (eb off len : ℕ) :
    (readBytes f eb off len).length = len := by
  simp [readBytes]

theorem readBytes_getD (f : Cells) (eb off len i : ℕ) (d : UInt8) (hi : i < len) :
    (readBytes f eb off len).getD i d = readByte f eb (off + i) := by
  simp [readBytes, List.getD_eq_getElem?_getD, List.getElem?_map, List.getElem?_range hi]

/-- Reading depends only on the cells read. -/
theorem readBytes_congr {f f' : Cells} {eb off len : ℕ}
    (h : ∀ o, off ≤ o → o < off + len → f' eb o = f eb o) :
    readBytes f' eb off len = readBytes f eb off len := by
  refine List.map_congr_left fun i hi => ?_
  rw [List.mem_range] at hi
  rw [readByte, readByte, h (off + i) (by omega) (by omega)]

theorem readBytes_add (f : Cells) (eb off m n : ℕ) :
    readBytes f eb off (m + n) = readBytes f eb off m ++ readBytes f eb (off + m) n := by
  simp only [readBytes, List.range_add, List.map_append, List.map_map]
  congr 1
  exact List.map_congr_left fun i _ => by simp [Nat.add_assoc]

theorem readBytes_succ (f : Cells) (eb off n : ℕ) :
    readBytes f eb off (n + 1) = readByte f eb off :: readBytes f eb (off + 1) n := by
  rw [Nat.add_comm, readBytes_add]
  rfl

/-- The bytes of a block, cut in two. -/
theorem readBytes_eq_append {f : Cells} {eb off : ℕ} {bs bs' : List UInt8} :
    readBytes f eb off (bs.length + bs'.length) = bs ++ bs' ↔
      readBytes f eb off bs.length = bs ∧ readBytes f eb (off + bs.length) bs'.length = bs' := by
  rw [readBytes_add]
  constructor
  · exact fun h => List.append_inj h (readBytes_length _ _ _ _)
  · exact fun ⟨h, h'⟩ => by rw [h, h']

/-- Likewise, with the lengths of the parts given. -/
theorem readBytes_split {f : Cells} {eb off m n : ℕ} {bs bs' : List UInt8} (hm : bs.length = m)
    (hn : bs'.length = n) (h : readBytes f eb off (m + n) = bs ++ bs') :
    readBytes f eb off m = bs ∧ readBytes f eb (off + m) n = bs' := by
  subst hm hn
  exact readBytes_eq_append.mp h

/-! ### Words -/

theorem bytesLE_length (w : ℕ) : (bytesLE w).length = 4 := rfl

/-- The bytes of a word, put together again. -/
theorem toNat_bytesLE (w : ℕ) :
    ((bytesLE w).getD 0 0).toNat + 256 * (((bytesLE w).getD 1 0).toNat +
      256 * (((bytesLE w).getD 2 0).toNat + 256 * ((bytesLE w).getD 3 0).toNat)) = w % 2 ^ 32 := by
  have hbyte : ∀ n : ℕ, (UInt8.ofNat n).toNat = n % 256 := fun n => by
    rw [UInt8.toNat_ofNat']
  simp only [bytesLE, List.getD_cons_zero, List.getD_cons_succ, hbyte]
  omega

/-- The bytes of a word put together are these bytes. -/
theorem bytesLE_toNat (a b c d : UInt8) :
    bytesLE (a.toNat + 256 * (b.toNat + 256 * (c.toNat + 256 * d.toNat))) = [a, b, c, d] := by
  have ha := a.toNat_lt
  have hb := b.toNat_lt
  have hc := c.toNat_lt
  have hd := d.toNat_lt
  have hbyte : ∀ (n : ℕ) (x : UInt8), n % 256 = x.toNat → UInt8.ofNat n = x := by
    intro n x hx
    apply UInt8.toNat_inj.mp
    rwa [UInt8.toNat_ofNat']
  unfold bytesLE
  rw [hbyte _ a (by omega), hbyte _ b (by omega), hbyte _ c (by omega), hbyte _ d (by omega)]

/-- A word whose bytes are in the array is read back. -/
theorem readWord_of_bytes {f : Cells} {eb off w : ℕ} (h : readBytes f eb off 4 = bytesLE w) :
    readWord f eb off = w % 2 ^ 32 := by
  have hbyte : ∀ i < 4, readByte f eb (off + i) = (bytesLE w).getD i 0 := fun i hi => by
    rw [← h, readBytes_getD _ _ _ _ _ _ hi]
  rw [readWord, show readByte f eb off = _ from hbyte 0 (by omega), hbyte 1 (by omega),
    hbyte 2 (by omega), hbyte 3 (by omega), toNat_bytesLE]

/-- An array whose blocks begin with the given bytes and are erased from there on. -/
def storing (bs : ℕ → List UInt8) : Cells := fun eb o => (bs eb)[o]?

theorem readBytes_storing (bs : ℕ → List UInt8) (eb : ℕ) :
    readBytes (storing bs) eb 0 (bs eb).length = bs eb := by
  refine List.ext_getElem (by simp) fun i _ hi => ?_
  simp [readBytes, readByte, storing, List.getElem?_eq_getElem hi]

/-! ### Programming and erasing -/

/-- A program moves nothing outside its range. -/
theorem program_frame (f : Cells) (eb off : ℕ) (data : List UInt8) (out : Outcome) {e o : ℕ}
    (h : ¬ InRange eb off data.length e o) : program f eb off data out e o = f e o := by
  cases out <;> simp [program, h]

/-- An erase moves nothing outside its block. -/
theorem erase_frame (f : Cells) (eb : ℕ) (out : Outcome) {e : ℕ} (h : e ≠ eb) (o : ℕ) :
    erase f eb out e o = f e o := by
  cases out <;> simp [erase, h]

/-- A program that reports success has left its data in its range. -/
theorem program_ok {f : Cells} {eb off : ℕ} {data : List UInt8} {out : Outcome}
    (h : programOk f eb off data out = true) :
    readBytes (program f eb off data out) eb off data.length = data := by
  cases out with
  | done => simpa [programOk] using h
  | refused => simp [programOk] at h
  | broken junk => simp [programOk] at h

/-- Programming erased cells stores the data. -/
theorem program_done_erased {f : Cells} {eb off : ℕ} {data : List UInt8}
    (h : ∀ o, off ≤ o → o < off + data.length → f eb o = none) {o : ℕ} (h₁ : off ≤ o)
    (h₂ : o < off + data.length) :
    program f eb off data .done eb o = some (data.getD (o - off) 0) := by
  have hin : InRange eb off data.length eb o := ⟨rfl, h₁, h₂⟩
  simp only [program, if_pos hin, h o h₁ h₂, Cell.program]

/-- A program into erased cells that is carried out reports success. -/
theorem programOk_done_erased {f : Cells} {eb off : ℕ} {data : List UInt8}
    (h : ∀ o, off ≤ o → o < off + data.length → f eb o = none) :
    programOk f eb off data .done = true := by
  rw [programOk, decide_eq_true_eq]
  refine List.ext_getElem (by simp) fun i h₁ h₂ => ?_
  simp only [readBytes, List.getElem_map, List.getElem_range, readByte]
  rw [program_done_erased h (by omega) (by omega), Option.getD_some, Nat.add_sub_cancel_left,
    List.getD_eq_getElem _ _ h₂]

end Ch32h4.Flash
