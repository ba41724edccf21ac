import Mathlib.Algebra.Order.Ring.Int
import Mathlib.Algebra.Order.Ring.Nat
import Mathlib.Data.List.Basic
import Mathlib.Data.List.DropRight
import Mathlib.Data.List.TakeWhile

/-!
# The class `String`

A `String` is the list of its `len` characters.  It may hold zeros, and the functions of the C
library, on which most of the class rests, stop at the first one: they see `cstr`.
-/

namespace Ch32h4.Text

/-- What a function of the C library sees of a buffer. -/
def cstr (s : List UInt8) : List UInt8 := s.takeWhile (· ≠ 0)

/-- `equals`, and `==`. -/
def equals (s s2 : List UInt8) : Bool := s.length = s2.length ∧ cstr s = cstr s2

/-- `tolower`. -/
def tolower (c : UInt8) : UInt8 := if 65 ≤ c ∧ c ≤ 90 then c + 32 else c

/-- `equalsIgnoreCase`: the loop ends with the first zero of `s`. -/
def equalsIgnoreCase (s s2 : List UInt8) : Bool :=
  s.length = s2.length ∧
    (cstr s).map tolower = (s2.take (cstr s).length).map tolower

/-- `startsWith`, which is `strncmp`. -/
def startsWith (s s2 : List UInt8) : Bool :=
  s2.length ≤ s.length ∧ cstr (s.take s2.length) = cstr s2

/-- `indexOf` for a character other than zero, with `none` for `-1`. -/
def indexOf (s : List UInt8) (ch : UInt8) (fromIndex : ℕ) : Option ℕ :=
  if s.length ≤ fromIndex then none
  else ((cstr (s.drop fromIndex)).findIdx? (· = ch)).map (fromIndex + ·)

/-- An index as an `unsigned int`: `-1` becomes the largest one. -/
def toUnsigned : Option ℕ → ℕ
  | some i => i
  | none => 2 ^ 32 - 1

/-- `substring`: the bounds may be in either order, and the upper one may be too large. -/
def substring (s : List UInt8) (left right : ℕ) : List UInt8 :=
  let (left, right) := if right < left then (right, left) else (left, right)
  (s.take right).drop left

/-- `substring` with one argument. -/
def substringFrom (s : List UInt8) (left : ℕ) : List UInt8 := substring s left s.length

/-- `len - 1`, as an `unsigned int`. -/
def last (s : List UInt8) : ℕ := if s.length = 0 then 2 ^ 32 - 1 else s.length - 1

/-- `indexOf` for a string other than the empty one, which is `strstr`. -/
def indexOfString (s s2 : List UInt8) (fromIndex : ℕ) : Option ℕ :=
  if s.length ≤ fromIndex then none
  else ((cstr (s.drop fromIndex)).tails.findIdx? (cstr s2).isPrefixOf).map (fromIndex + ·)

/-- `equals`, and `==`, with what the C library sees of a string. -/
def equalsCstr (s s2 : List UInt8) : Bool := cstr s = cstr s2

/-- `isspace`. -/
def isspace (c : UInt8) : Bool := c = 32 ∨ 9 ≤ c ∧ c ≤ 13

/-- `trim`. -/
def trim (s : List UInt8) : List UInt8 := (s.dropWhile isspace).rdropWhile isspace

/-- The bytes of a literal. -/
def ascii (s : String) : List UInt8 := s.toList.map fun c => UInt8.ofNat c.toNat

/-! ### Strings without a zero -/

variable {s s2 a b : List UInt8} {c ch : UInt8}

theorem cstr_eq_self (h : 0 ∉ s) : cstr s = s := by
  rw [cstr, List.takeWhile_eq_self_iff]
  intro c hc
  simpa using ne_of_mem_of_not_mem hc h

theorem indexOf_append (ha : ch ∉ a) (h0 : 0 ∉ a) (hch : ch ≠ 0) :
    indexOf (a ++ ch :: b) ch 0 = some a.length := by
  have hc : cstr (a ++ ch :: b) = a ++ ch :: cstr b := by
    rw [cstr, List.takeWhile_append_of_pos, List.takeWhile_cons_of_pos (by simpa using hch)]
    · rfl
    · intro x hx
      simpa using ne_of_mem_of_not_mem hx h0
  rw [indexOf, if_neg (by simp), List.drop_zero, hc, List.findIdx?_append]
  have : a.findIdx? (· = ch) = none := by
    rw [List.findIdx?_eq_none_iff]
    intro x hx
    simpa using ne_of_mem_of_not_mem hx ha
  rw [this, List.findIdx?_cons, if_pos (by simp)]
  simp

theorem indexOf_eq_none (h : ch ∉ s) (i : ℕ) : indexOf s ch i = none := by
  unfold indexOf
  split
  · rfl
  · rw [Option.map_eq_none_iff, List.findIdx?_eq_none_iff]
    intro x hx
    have : x ∈ s := List.mem_of_mem_drop ((List.takeWhile_prefix _).subset hx)
    simpa using ne_of_mem_of_not_mem this h

theorem getElem?_of_indexOf {i : ℕ} (h : indexOf s ch 0 = some i) : s[i]? = some ch := by
  unfold indexOf at h
  split at h
  · cases h
  · rw [List.drop_zero, Option.map_eq_some_iff] at h
    obtain ⟨j, hj, rfl⟩ := h
    rw [Nat.zero_add]
    obtain ⟨hlt, hc, -⟩ := List.findIdx?_eq_some_iff_getElem.mp hj
    obtain ⟨t, ht⟩ : cstr s <+: s := List.takeWhile_prefix _
    rw [← ht, List.getElem?_append_left hlt, List.getElem?_eq_getElem hlt]
    simpa using hc

/-- A search that begins in the middle is one of the rest. -/
theorem indexOf_drop (s : List UInt8) (i : ℕ) :
    indexOf s ch i = (indexOf (s.drop i) ch 0).map (i + ·) := by
  unfold indexOf
  rw [List.length_drop, List.drop_zero]
  by_cases h : s.length ≤ i
  · rw [if_pos h, if_pos (by omega)]
    rfl
  · rw [if_neg h, if_neg (by omega), Option.map_map]
    congr 1
    funext n
    simp

theorem substring_of_le {i j : ℕ} (h : i ≤ j) : substring s i j = (s.take j).drop i := by
  rw [substring, if_neg (by omega)]

theorem intercalate_cons (sep l : List UInt8) (ls : List (List UInt8)) :
    List.intercalate sep (l :: ls) = l ++ ls.flatMap (sep ++ ·) := by
  induction ls generalizing l with
  | nil => simp [List.intercalate]
  | cons m ms ih =>
    rw [List.intercalate_cons_cons, ih, List.flatMap_cons, List.append_assoc, List.append_assoc]

theorem not_mem_intercalate {sep : List UInt8} {ls : List (List UInt8)} (hsep : c ∉ sep)
    (h : ∀ l ∈ ls, c ∉ l) : c ∉ List.intercalate sep ls := by
  cases ls with
  | nil => simp
  | cons l ls =>
    rw [intercalate_cons, List.mem_append, List.mem_flatMap]
    rintro (hm | ⟨m, hm, hc⟩)
    · exact h l List.mem_cons_self hm
    · rcases List.mem_append.mp hc with hc | hc
      · exact hsep hc
      · exact h m (List.mem_cons_of_mem _ hm) hc

end Ch32h4.Text
