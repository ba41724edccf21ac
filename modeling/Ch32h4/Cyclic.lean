import Mathlib.Data.List.Basic
import Mathlib.Logic.Function.Iterate

/-!
# Shift registers of cyclic codes

The check word of a cyclic code is what a register of `w` bits holds after the bits of a message have
been fed to it.  `feed` is the register as the codes are defined, which shifts towards its high bit.
Programs hold the mirror image of the register, which shifts down (`feedLow`), and enter several bits
at once: `reverse_foldl_feedLow` and `iterate_feedLow_xor` say that they compute the same.
-/

namespace Ch32h4.Cyclic

variable {w : ℕ} (poly c x : BitVec w) (b : Bool) (n : ℕ)

/-- A bit of the message enters the register. -/
def feed (c : BitVec w) (b : Bool) : BitVec w :=
  if c.msb ^^ b then (c <<< 1) ^^^ poly else c <<< 1

/-- The same for a register whose low bit comes first. -/
def feedLow (c : BitVec w) (b : Bool) : BitVec w :=
  if c.getLsbD 0 ^^ b then (c >>> 1) ^^^ poly else c >>> 1

/-! ### The mirror image -/

theorem reverse_xor : (c ^^^ x).reverse = c.reverse ^^^ x.reverse := by
  apply BitVec.eq_of_getLsbD_eq
  intro i hi
  simp [BitVec.getLsbD_reverse, BitVec.getMsbD_xor]

theorem reverse_not : (~~~c).reverse = ~~~c.reverse := by
  apply BitVec.eq_of_getLsbD_eq
  intro i hi
  rw [BitVec.getLsbD_reverse, BitVec.getMsbD_not, BitVec.getLsbD_not, BitVec.getLsbD_reverse]

theorem reverse_ushiftRight_one : (c >>> 1).reverse = c.reverse <<< 1 := by
  apply BitVec.eq_of_getLsbD_eq
  intro i hi
  rw [BitVec.getLsbD_reverse, BitVec.getMsbD_ushiftRight, BitVec.getLsbD_shiftLeft,
    BitVec.getLsbD_reverse]
  simp [hi]

theorem reverse_feedLow : (feedLow poly c b).reverse = feed poly.reverse c.reverse b := by
  rw [feedLow, feed, BitVec.msb_reverse]
  split
  · rw [reverse_xor, reverse_ushiftRight_one]
  · exact reverse_ushiftRight_one c

theorem reverse_foldl_feedLow (bits : List Bool) :
    (bits.foldl (feedLow poly) c).reverse = bits.foldl (feed poly.reverse) c.reverse := by
  induction bits generalizing c with
  | nil => rfl
  | cons b bits ih => rw [List.foldl_cons, List.foldl_cons, ih, reverse_feedLow]

/-! ### Several bits at once -/

/-- The register is linear: what has been entered above its low bit moves down with it. -/
theorem feedLow_xor :
    feedLow poly (c ^^^ x) false = feedLow poly c (x.getLsbD 0) ^^^ (x >>> 1) := by
  rw [feedLow, feedLow, BitVec.getLsbD_xor, Bool.xor_false, BitVec.ushiftRight_xor_distrib]
  split
  · rw [BitVec.xor_assoc, BitVec.xor_assoc, BitVec.xor_comm (x >>> 1)]
  · rfl

/-- To enter the low `n` bits at once and shift `n` times is to feed them, the lowest first. -/
theorem iterate_feedLow_xor (hx : ∀ i, n ≤ i → x.getLsbD i = false) :
    (feedLow poly · false)^[n] (c ^^^ x) =
      ((List.range n).map x.getLsbD).foldl (feedLow poly) c := by
  induction n generalizing c x with
  | zero =>
    have hzero : x = 0#w := by
      apply BitVec.eq_of_getLsbD_eq
      intro i _
      rw [hx i (Nat.zero_le i), BitVec.getLsbD_zero]
    rw [hzero, BitVec.xor_zero]
    rfl
  | succ n ih =>
    have hbits : ∀ i, (x >>> 1).getLsbD i = x.getLsbD (i + 1) := by
      intro i
      rw [BitVec.getLsbD_ushiftRight, Nat.add_comm]
    have hrange : (List.range (n + 1)).map x.getLsbD =
        x.getLsbD 0 :: (List.range n).map (x >>> 1).getLsbD := by
      rw [List.range_succ_eq_map, List.map_cons, List.map_map]
      exact congrArg _ (List.map_congr_left fun i _ => (hbits i).symm)
    rw [Function.iterate_succ_apply, feedLow_xor, hrange, List.foldl_cons]
    exact ih _ _ fun i hi => (hbits i).trans (hx _ (Nat.succ_le_succ hi))

end Ch32h4.Cyclic
