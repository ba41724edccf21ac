import Mathlib.Data.List.Basic
import Mathlib.Tactic.ByContra

/-!
# Finding a pattern in a text that comes in element by element

A program that looks for `p` in a stream keeps no text.  It keeps a number `k`, and what it knows of
the text is that it ends with the first `k` elements of `p` and with no more of them (`Matched`).
This is enough to go on: which `j ≤ k` the text ends with can be read from `p` alone
(`Matched.take_suffix_iff`), and so can the number for the text with one more element
(`Matched.concat_of_ne`).
-/

namespace Ch32h4.Matching

variable {α : Type*} {p text : List α} {j k : ℕ} {c : α}

/-- The text ends with `k` elements of the pattern, and not with more of them, short of all. -/
structure Matched (p text : List α) (k : ℕ) : Prop where
  lt : k < p.length
  suffix : p.take k <:+ text
  le_of_suffix : ∀ j < p.length, p.take j <:+ text → j ≤ k

theorem Matched.nil (hp : p ≠ []) : Matched p [] 0 where
  lt := List.length_pos_iff.mpr hp
  suffix := List.nil_suffix
  le_of_suffix j hj h := by
    have : (p.take j).length = 0 := by rw [List.suffix_nil.mp h, List.length_nil]
    rw [List.length_take] at this
    omega

/-! ### The end of a longer text -/

theorem concat_suffix_concat {a b : α} {s : List α} :
    s ++ [a] <:+ text ++ [b] ↔ s <:+ text ∧ a = b := by
  constructor
  · rintro ⟨t, ht⟩
    rw [← List.append_assoc] at ht
    have h := List.append_inj' ht rfl
    exact ⟨⟨t, h.1⟩, by simpa using h.2⟩
  · rintro ⟨⟨t, rfl⟩, rfl⟩
    exact ⟨t, by rw [List.append_assoc]⟩

theorem take_succ_suffix_concat (hj : j < p.length) :
    p.take (j + 1) <:+ text ++ [c] ↔ p.take j <:+ text ∧ p[j]? = some c := by
  rw [List.take_succ_eq_append_getElem hj, concat_suffix_concat, List.getElem?_eq_getElem hj,
    Option.some_inj]

/-! ### What the number tells of shorter beginnings -/

/-- The first `j` elements recur at the end of the first `k`. -/
theorem take_suffix_take_iff (hjk : j ≤ k) (hk : k ≤ p.length) :
    p.take j <:+ p.take k ↔ ∀ i < j, p[i]? = p[i + (k - j)]? := by
  have hlen : (p.take j).length = j := by rw [List.length_take]; omega
  rw [List.suffix_iff_eq_drop, hlen, List.length_take, Nat.min_eq_left hk]
  constructor
  · intro h i hi
    have := congrArg (·[i]?) h
    simp only [List.getElem?_take, hi, if_true, List.getElem?_drop] at this
    rw [this, if_pos (by omega), Nat.add_comm]
  · intro h
    apply List.ext_getElem?
    intro i
    rw [List.getElem?_drop, List.getElem?_take, List.getElem?_take]
    by_cases hi : i < j
    · rw [if_pos hi, if_pos (by omega), h i hi, Nat.add_comm]
    · rw [if_neg hi, if_neg (by omega)]

theorem Matched.take_suffix_iff (h : Matched p text k) (hjk : j ≤ k) :
    p.take j <:+ text ↔ ∀ i < j, p[i]? = p[i + (k - j)]? := by
  rw [← take_suffix_take_iff hjk (Nat.le_of_lt h.lt)]
  constructor
  · intro hj
    apply List.suffix_of_suffix_length_le hj h.suffix
    rw [List.length_take, List.length_take]
    omega
  · intro hj
    exact hj.trans h.suffix

/-! ### One element more -/

/-- The pattern goes on with the element that has come. -/
theorem Matched.concat_of_eq (h : Matched p text k) (hc : p[k]? = some c)
    (hk : k + 1 < p.length) : Matched p (text ++ [c]) (k + 1) where
  lt := hk
  suffix := (take_succ_suffix_concat h.lt).mpr ⟨h.suffix, hc⟩
  le_of_suffix j hj hs := by
    cases j with
    | zero => omega
    | succ j =>
      have := h.le_of_suffix j (by omega) ((take_succ_suffix_concat (by omega)).mp hs).1
      omega

theorem Matched.suffix_concat_iff (h : Matched p text k) :
    p <:+ text ++ [c] ↔ k + 1 = p.length ∧ p[k]? = some c := by
  constructor
  · intro hs
    have hp : p.length - 1 < p.length := by have := h.lt; omega
    have hs' : p.take (p.length - 1 + 1) <:+ text ++ [c] := by
      rwa [List.take_of_length_le (by omega)]
    have ⟨h1, h2⟩ := (take_succ_suffix_concat hp).mp hs'
    have hk := h.le_of_suffix _ hp h1
    have hlt := h.lt
    have he : p.length - 1 = k := by omega
    exact ⟨by omega, he ▸ h2⟩
  · rintro ⟨hk, hc⟩
    have := (take_succ_suffix_concat h.lt).mpr ⟨h.suffix, hc⟩
    rwa [List.take_of_length_le (by omega)] at this

/-- It does not go on, and `n` is the largest number with which it could have been a later
beginning: `0` if there is none. -/
theorem Matched.concat_of_ne (h : Matched p text k) (hc : p[k]? ≠ some c) {n : ℕ} (hn : n ≤ k)
    (hend : ∀ j, n = j + 1 → p[j]? = some c ∧ ∀ i < j, p[i]? = p[i + (k - j)]?)
    (hmax : ∀ j < k, n < j + 1 → p[j]? = some c → ¬ ∀ i < j, p[i]? = p[i + (k - j)]?) :
    Matched p (text ++ [c]) n where
  lt := Nat.lt_of_le_of_lt hn h.lt
  suffix := by
    cases n with
    | zero => exact List.nil_suffix
    | succ j =>
      have ⟨hj, hi⟩ := hend j rfl
      have hlt := h.lt
      exact (take_succ_suffix_concat (by omega)).mpr ⟨(h.take_suffix_iff (by omega)).mpr hi, hj⟩
  le_of_suffix j hj hs := by
    cases j with
    | zero => omega
    | succ j =>
      have ⟨h1, h2⟩ := (take_succ_suffix_concat (by omega)).mp hs
      have hjk := h.le_of_suffix j (by omega) h1
      have hne : j ≠ k := by rintro rfl; exact hc h2
      by_contra hlt
      exact hmax j (by omega) (by omega) h2 ((h.take_suffix_iff hjk).mp h1)

end Ch32h4.Matching
