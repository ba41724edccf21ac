import Mathlib.Data.Fintype.EquivFin
import Mathlib.Data.List.Basic

/-!
# Mixing without loss

A running state takes in one value after the other.  If every step is a bijection of the state for
each value, and injective in the value for each state, then nothing is forgotten: a whole run is a
bijection of the state (`Lossless.foldl_bijective`), and a run in which one value is another one
ends differently (`Lossless.foldl_ne`).

The steps of mixers are made of a few operations on words that lose nothing: exclusive or and
addition of a word, multiplication by a unit (`mul_injective`), rotation (`rotate_injective`), and
the exclusive or of a word with itself shifted (`xorShift_injective`).
-/

namespace Ch32h4

/-! ### Runs -/

section Runs

variable {σ α : Type*} {f : σ → α → σ}

/-- A step that loses nothing, neither of the state nor of what it takes in. -/
structure Lossless (f : σ → α → σ) : Prop where
  state : ∀ a, Function.Bijective fun s => f s a
  input : ∀ s, Function.Injective (f s)

theorem Lossless.foldl_bijective (h : Lossless f) (as : List α) :
    Function.Bijective fun s => as.foldl f s := by
  induction as with
  | nil => exact Function.bijective_id
  | cons a as ih => exact ih.comp (h.state a)

theorem Lossless.foldl_ne (h : Lossless f) (s : σ) (as bs : List α) {a b : α} (hab : a ≠ b) :
    (as ++ a :: bs).foldl f s ≠ (as ++ b :: bs).foldl f s := by
  rw [List.foldl_append, List.foldl_append]
  intro heq
  -- up to the one value the states are the same, and behind it they stay apart
  have hstate := (h.foldl_bijective bs).injective heq
  exact hab (h.input _ hstate)

/-- Two lists of one length that differ in one place. -/
theorem Lossless.foldl_ne_of_differ (h : Lossless f) (s : σ) {as bs : List α} {k : ℕ}
    (hlen : as.length = bs.length) (hk : as[k]? ≠ bs[k]?)
    (hrest : ∀ i, i ≠ k → as[i]? = bs[i]?) : as.foldl f s ≠ bs.foldl f s := by
  have hka : k < as.length := by
    by_contra hlong
    rw [List.getElem?_eq_none (by omega), List.getElem?_eq_none (by omega)] at hk
    exact hk rfl
  have hkb : k < bs.length := hlen ▸ hka
  have htake : as.take k = bs.take k := by
    refine List.ext_getElem? fun i => ?_
    rw [List.getElem?_take, List.getElem?_take]
    split_ifs with hi
    · exact hrest i hi.ne
    · rfl
  have hdrop : as.drop (k + 1) = bs.drop (k + 1) := by
    refine List.ext_getElem? fun i => ?_
    rw [List.getElem?_drop, List.getElem?_drop]
    exact hrest _ (by omega)
  have hne : as[k] ≠ bs[k] := by
    intro heq
    rw [List.getElem?_eq_getElem hka, List.getElem?_eq_getElem hkb, heq] at hk
    exact hk rfl
  have hsplit : ∀ {l : List α} (hl : k < l.length), l = l.take k ++ l[k] :: l.drop (k + 1) := by
    intro l hl
    rw [List.cons_getElem_drop_succ, List.take_append_drop]
  rw [hsplit hka, hsplit hkb, htake, hdrop]
  exact h.foldl_ne s _ _ hne

end Runs

/-! ### Words -/

namespace Mixing

variable {w m n k : ℕ}

/-- Multiplication by a word that has an inverse. -/
theorem mul_injective {c d : BitVec w} (h : c * d = 1#w) :
    Function.Injective fun x : BitVec w => x * c := by
  intro x y hxy
  have hmul := congrArg (· * d) hxy
  simpa only [BitVec.mul_assoc, h, BitVec.mul_one] using hmul

/-- A rotation brings every bit to a place of its own. -/
theorem rotate_injective (h : m + n = w) :
    Function.Injective fun x : BitVec w => x <<< m ||| x >>> n := by
  intro x y hxy
  have hbit : ∀ i, (decide (i < w) && !decide (i < m) && x.getLsbD (i - m) || x.getLsbD (n + i)) =
      (decide (i < w) && !decide (i < m) && y.getLsbD (i - m) || y.getLsbD (n + i)) := by
    intro i
    have := congrArg (BitVec.getLsbD · i) hxy
    simpa using this
  apply BitVec.eq_of_getLsbD_eq
  intro i hi
  by_cases hn : i < n
  · -- a low bit is found `m` places further up
    have := hbit (i + m)
    rw [BitVec.getLsbD_of_ge x (n + (i + m)) (by omega),
      BitVec.getLsbD_of_ge y (n + (i + m)) (by omega)] at this
    simpa [show i + m < w by omega, show ¬ i + m < m by omega] using this
  · -- a high one `n` places further down
    have := hbit (i - n)
    rw [show n + (i - n) = i by omega] at this
    simpa [show i - n < m by omega] using this

/-- The highest bits are left as they are, and each of the others tells the one `k` places lower. -/
theorem xorShift_injective (hk : 0 < k) :
    Function.Injective fun x : BitVec w => x ^^^ x >>> k := by
  intro x y hxy
  have hbit : ∀ i, (x.getLsbD i ^^ x.getLsbD (k + i)) = (y.getLsbD i ^^ y.getLsbD (k + i)) := by
    intro i
    have := congrArg (BitVec.getLsbD · i) hxy
    simpa using this
  -- from the highest bit down
  have hdown : ∀ d i, w ≤ i + d → x.getLsbD i = y.getLsbD i := by
    intro d
    induction d with
    | zero =>
      intro i hi
      rw [BitVec.getLsbD_of_ge x i hi, BitVec.getLsbD_of_ge y i hi]
    | succ d ih =>
      intro i hi
      have hhigh := ih (k + i) (by omega)
      have := hbit i
      rw [hhigh] at this
      exact Bool.xor_left_inj.mp this
  exact BitVec.eq_of_getLsbD_eq fun i _ => hdown w i (Nat.le_add_left w i)

end Mixing

end Ch32h4
