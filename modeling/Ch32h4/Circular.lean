import Mathlib.Algebra.Order.Ring.Nat
import Mathlib.Data.Nat.ModEq
import Mathlib.Logic.Function.Basic

/-!
# Circular buffers

`Holds buf n start xs` says that a buffer of `n` slots holds the list `xs` from the slot of the
count `start` on.  Counts never wrap; the slot of a count is its residue.  A reader takes the head
and moves `start` on, a writer appends at the other end, and a store between the two ends from
outside changes nothing.
-/

namespace Ch32h4.Circular

variable {α : Type*} {buf : ℕ → α} {n start i : ℕ} {xs : List α} {x y : α}

/-- The slots from `start` on hold `xs`, in its order. -/
def Holds (buf : ℕ → α) (n start : ℕ) (xs : List α) : Prop :=
  ∀ k x, xs[k]? = some x → buf ((start + k) % n) = x

/-- Counts less than a lap apart have different slots. -/
theorem mod_ne_mod {i j : ℕ} (hij : i < j) (hj : j < i + n) : i % n ≠ j % n := by
  intro h
  have hdvd : n ∣ j - i := Nat.dvd_of_mod_eq_zero (Nat.sub_mod_eq_zero_of_mod_eq h.symm)
  have := Nat.le_of_dvd (by omega) hdvd
  omega

/-- The way from one slot on to another, for counts less than a lap apart. -/
theorem mod_add_sub_mod {k : ℕ} (hk : k < n) (i : ℕ) : ((i + k) % n + n - i % n) % n = k := by
  have hi : i % n < n := Nat.mod_lt i (by omega)
  rw [← Nat.mod_add_mod]
  by_cases hwrap : i % n + k < n
  · rw [Nat.mod_eq_of_lt hwrap, show i % n + k + n - i % n = k + n by omega, Nat.add_mod_right,
      Nat.mod_eq_of_lt hk]
  · have hmod : (i % n + k) % n = i % n + k - n := by
      rw [Nat.mod_eq_sub_mod (by omega), Nat.mod_eq_of_lt (by omega)]
    rw [hmod, show i % n + k - n + n - i % n = k by omega, Nat.mod_eq_of_lt hk]

/-! ### Slots ahead -/

/-- The slots from `i` on to `j`, less than a lap. -/
def way (n i j : ℕ) : ℕ := (j + n - i) % n

theorem way_lt (hn : 0 < n) (i j : ℕ) : way n i j < n :=
  Nat.mod_lt _ hn

/-- The one distance below a lap that leads from `i` to `j`. -/
theorem way_eq {j k : ℕ} (hi : i < n) (hk : k < n) (hj : (i + k) % n = j) : way n i j = k := by
  have h := mod_add_sub_mod hk i
  rw [Nat.mod_eq_of_lt hi, hj] at h
  exact h

theorem add_way {j : ℕ} (hi : i < n) (hj : j < n) : (i + way n i j) % n = j := by
  unfold way
  rw [Nat.add_mod_mod, show i + (j + n - i) = j + n by omega, Nat.add_mod_right,
    Nat.mod_eq_of_lt hj]

theorem way_self (hi : i < n) : way n i i = 0 :=
  way_eq hi (by omega) (Nat.mod_eq_of_lt hi)

/-- The way to a slot tells where it begins. -/
theorem way_inj {i' j : ℕ} (hi : i < n) (hi' : i' < n) (hj : j < n) (h : way n i j = way n i' j) :
    i = i' := by
  have hfrom := (add_way hi hj).trans (add_way hi' hj).symm
  rw [h] at hfrom
  exact (Nat.ModEq.add_right_cancel' _ hfrom).eq_of_lt_of_lt hi hi'

/-- A step on makes the way shorter. -/
theorem way_succ {j : ℕ} (hi : i < n) (hj : j < n) (hne : i ≠ j) :
    way n ((i + 1) % n) j + 1 = way n i j := by
  have hlt := way_lt (by omega : 0 < n) i j
  have hadd := add_way hi hj
  have hpos : 0 < way n i j := by
    rw [Nat.pos_iff_ne_zero]
    intro hzero
    rw [hzero, Nat.add_zero, Nat.mod_eq_of_lt hi] at hadd
    exact hne hadd
  have hnext : way n ((i + 1) % n) j = way n i j - 1 := by
    refine way_eq (Nat.mod_lt _ (by omega)) (by omega) ?_
    rw [Nat.mod_add_mod, show i + 1 + (way n i j - 1) = i + way n i j by omega, hadd]
  omega

theorem Holds.nil : Holds buf n start [] := by
  intro k x h
  cases h

/-- The slot of the start is all that matters of it. -/
theorem holds_mod : Holds buf n (start % n) xs ↔ Holds buf n start xs := by
  unfold Holds
  simp only [Nat.mod_add_mod]

theorem Holds.head (h : Holds buf n start (x :: xs)) : buf (start % n) = x :=
  h 0 x rfl

theorem Holds.tail (h : Holds buf n start (x :: xs)) : Holds buf n (start + 1) xs := by
  intro k y hk
  rw [show start + 1 + k = start + (k + 1) by omega]
  exact h (k + 1) y hk

/-- A store behind the start leaves the list alone, unless it is so far behind that the list has
come round to it. -/
theorem Holds.update_behind (h : Holds buf n start xs) (hi : i < start)
    (hlap : start + xs.length ≤ i + n) : Holds (Function.update buf (i % n) y) n start xs := by
  intro k x hk
  have hlt : k < xs.length := (List.getElem?_eq_some_iff.mp hk).1
  have hne : i % n ≠ (start + k) % n := mod_ne_mod (by omega) (by omega)
  rw [Function.update_of_ne hne.symm]
  exact h k x hk

/-- A store at the end makes the list longer, as long as a slot is free. -/
theorem Holds.push (h : Holds buf n start xs) (hfree : xs.length < n) :
    Holds (Function.update buf ((start + xs.length) % n) y) n start (xs ++ [y]) := by
  intro k x hk
  have hlt : k < xs.length + 1 := by simpa using (List.getElem?_eq_some_iff.mp hk).1
  by_cases heq : k = xs.length
  · rw [heq, List.getElem?_concat_length, Option.some.injEq] at hk
    rw [heq, Function.update_self, hk]
  · have hk' : k < xs.length := by omega
    rw [List.getElem?_append_left hk'] at hk
    rw [Function.update_of_ne (mod_ne_mod (by omega) (by omega))]
    exact h k x hk

end Ch32h4.Circular
