import Ch32h4.Text.Number
import Mathlib.Data.Nat.Digits.Lemmas

/-!
# The digits of a number, in chunks or not

The loop that most of the core writes numbers with divides by the base once for each digit
(`digitLoop_eq`).  For 64 bits `printULLNumber` divides by a power of the base that fits in 16 bits,
and takes the remainder apart in 16 bits.  What is in the buffer after a turn, with the digits of
what is left of the number behind it, is always the digits of the number (`chunkLoop_eq`), so the
buffer is never full too early.
-/

namespace Ch32h4.Text

variable {b n q r k : ℕ} {buf : List ℕ} {digit : ℕ → UInt8}

/-- The `k` lowest digits of `r`, the lowest one first. -/
def fixedDigits (b : ℕ) : ℕ → ℕ → List ℕ
  | 0, _ => []
  | k + 1, r => r % b :: fixedDigits b k (r / b)

theorem length_fixedDigits (b k r : ℕ) : (fixedDigits b k r).length = k := by
  induction k generalizing r with
  | zero => rfl
  | succ k ih => rw [fixedDigits, List.length_cons, ih]

theorem digits_pos (hb : 1 < b) (hn : 0 < n) : Nat.digits b n = n % b :: Nat.digits b (n / b) :=
  Nat.digits_def' hb hn

/-- The digits of a quotient stand behind those of its remainder. -/
theorem fixedDigits_append_digits (hb : 1 < b) (hq : 0 < n / b ^ k) :
    fixedDigits b k (n % b ^ k) ++ Nat.digits b (n / b ^ k) = Nat.digits b n := by
  induction k generalizing n with
  | zero => rw [fixedDigits, pow_zero, Nat.div_one, List.nil_append]
  | succ k ih =>
    have hpow : b ^ (k + 1) = b * b ^ k := pow_succ' b k
    have hn : 0 < n := Nat.pos_of_ne_zero (by
      rintro rfl
      rw [Nat.zero_div] at hq
      exact absurd hq (lt_irrefl 0))
    have hdiv : n / b ^ (k + 1) = n / b / b ^ k := by rw [hpow, Nat.div_div_eq_div_mul]
    rw [hdiv] at hq ⊢
    rw [fixedDigits, List.cons_append, digits_pos hb hn, ← ih hq, hpow,
      Nat.mod_mul_right_mod, Nat.mod_mul_right_div_self]

theorem length_digits_le (hb : 1 < b) (hn : n < 2 ^ k) : (Nat.digits b n).length ≤ k := by
  rw [Nat.digits_length_le_iff hb]
  exact hn.trans_le (Nat.pow_le_pow_left hb k)

/-! ### One division for each digit -/

theorem digitLoop_pos (hb : 1 < b) (room : ℕ) (hn : 0 < n) (hroom : n < 2 ^ room)
    (str : List UInt8) :
    digitLoop digit b room n str = some ((Nat.digits b n).reverse.map digit ++ str) := by
  induction room generalizing n str with
  | zero => omega
  | succ room ih =>
    rw [digitLoop, digits_pos hb hn, List.reverse_cons, List.map_append, List.append_assoc]
    split
    · rename_i hdiv
      rw [hdiv, Nat.digits_zero]
      rfl
    · rename_i hdiv
      rw [ih (Nat.pos_of_ne_zero hdiv)]
      · rfl
      · rw [pow_succ] at hroom
        exact Nat.div_lt_of_lt_mul (by nlinarith)

/-- The digits of a number, the highest one first; zero has one, too. -/
def digitsOf (b n : ℕ) : List ℕ := if n = 0 then [0] else (Nat.digits b n).reverse

theorem digitLoop_eq (hb : 1 < b) {room : ℕ} (h0 : 0 < room) (hroom : n < 2 ^ room)
    (str : List UInt8) :
    digitLoop digit b room n str = some ((digitsOf b n).map digit ++ str) := by
  rw [digitsOf]
  split
  · rename_i hn
    obtain ⟨room, rfl⟩ : ∃ r, room = r + 1 := ⟨room - 1, by omega⟩
    rw [digitLoop, hn, Nat.zero_div, if_pos rfl, Nat.zero_mod]
    rfl
  · exact digitLoop_pos hb room (Nat.pos_of_ne_zero ‹_›) hroom str

theorem lt_of_mem_digitsOf (hb : 1 < b) {d : ℕ} (h : d ∈ digitsOf b n) : d < b := by
  rw [digitsOf] at h
  split at h
  · rw [List.mem_singleton] at h
    omega
  · exact Nat.digits_lt_base hb (List.mem_reverse.mp h)

/-! ### One division for each chunk -/

theorem push_eq {c : ℕ} (hc : c < 256) (hlen : buf.length < 64) :
    push buf c = some (buf ++ [c]) := by
  rw [push, if_pos hlen, Nat.mod_eq_of_lt hc]

theorem sub_div_mul (n b : ℕ) : n - n / b * b = n % b := by
  rw [Nat.mod_eq_sub_div_mul]

theorem remainderLoop_eq (hb : 0 < b) (hb' : b ≤ 256) (k r : ℕ) (buf : List ℕ)
    (hlen : buf.length + k ≤ 64) :
    remainderLoop b k r buf = some (buf ++ fixedDigits b k r) := by
  induction k generalizing r buf with
  | zero => rw [remainderLoop, fixedDigits, List.append_nil]
  | succ k ih =>
    have hlt := Nat.mod_lt r hb
    rw [remainderLoop]
    rw [sub_div_mul, push_eq (by omega) (by omega), Option.bind_eq_bind, Option.bind_some, ih]
    · rw [fixedDigits, List.append_assoc, List.singleton_append]
    · rw [List.length_append, List.length_singleton]
      omega

/-- The first power of the base that is not below `top` fits in 16 bits. -/
theorem th16Loop_spec (hb : 1 < b) (fuel j : ℕ) (hpow : b ^ j < 2 ^ 16)
    (hfuel : 0xffff / b ≤ b ^ (j + fuel)) :
    ∃ k, j ≤ k ∧ th16Loop b (0xffff / b) fuel (b ^ j) j = (b ^ k, k) ∧ 0xffff / b ≤ b ^ k ∧
      b ^ k < 2 ^ 16 := by
  induction fuel generalizing j with
  | zero => exact ⟨j, le_rfl, rfl, hfuel, hpow⟩
  | succ fuel ih =>
    rw [th16Loop]
    split
    · rename_i hlt
      have hnext : b ^ (j + 1) < 2 ^ 16 := by
        have hle : b ^ j * b < 0xffff / b * b := Nat.mul_lt_mul_of_pos_right hlt (by omega)
        have := Nat.div_mul_le_self 0xffff b
        rw [pow_succ]
        omega
      have hmod : b ^ j * b % 2 ^ 16 = b ^ (j + 1) := by
        rw [← pow_succ, Nat.mod_eq_of_lt hnext]
      obtain ⟨k, hk, heq, hrest⟩ := ih (j + 1) hnext (by
        rw [show j + 1 + fuel = j + (fuel + 1) by omega]
        exact hfuel)
      refine ⟨k, by omega, ?_, hrest⟩
      rw [hmod, heq]
    · rename_i hlt
      exact ⟨j, le_rfl, rfl, not_lt.mp hlt, hpow⟩

theorem chunkLoop_eq (hb : 1 < b) (hb' : b ≤ 256) (hk : 0 < k) (hpow : b ^ k < 2 ^ 16)
    (fuel n : ℕ) (buf : List ℕ) (hn : 0 < n) (hfuel : n < 2 ^ fuel)
    (hlen : (buf ++ Nat.digits b n).length ≤ 64) :
    ∃ n' buf', chunkLoop b (b ^ k) k fuel n buf = some (n', buf') ∧ 0 < n' ∧ n' ≤ b ^ k ∧
      buf' ++ Nat.digits b n' = buf ++ Nat.digits b n := by
  induction fuel generalizing n buf with
  | zero => omega
  | succ fuel ih =>
    rw [chunkLoop]
    split
    · rename_i hgt
      have hpos : 0 < b ^ k := Nat.pow_pos (by omega)
      have hq : 0 < n / b ^ k := Nat.div_pos (by omega) hpos
      have hr : (n - n / b ^ k * b ^ k) % 2 ^ 16 = n % b ^ k := by
        rw [sub_div_mul]
        exact Nat.mod_eq_of_lt ((Nat.mod_lt n hpos).trans hpow)
      have hdigits := fixedDigits_append_digits hb hq
      have hlen' := hlen
      rw [← hdigits, List.length_append, List.length_append, length_fixedDigits] at hlen'
      dsimp only
      rw [hr, remainderLoop_eq (by omega) hb' k _ buf (by omega), Option.bind_eq_bind,
        Option.bind_some]
      obtain ⟨n', buf', heq, h0, hle, hall⟩ := ih (n / b ^ k) (buf ++ fixedDigits b k (n % b ^ k))
        hq (by
          have : 2 ≤ b ^ k := by
            calc 2 ≤ b := hb
              _ = b ^ 1 := (pow_one b).symm
              _ ≤ b ^ k := Nat.pow_le_pow_right (by omega) hk
          rw [pow_succ] at hfuel
          exact Nat.div_lt_of_lt_mul (by nlinarith)) (by
          rw [List.append_assoc, hdigits]
          exact hlen)
      refine ⟨n', buf', heq, h0, hle, ?_⟩
      rw [hall, List.append_assoc, hdigits]
    · rename_i hgt
      exact ⟨n, buf, rfl, hn, not_lt.mp hgt, rfl⟩

theorem restLoop_eq (hb : 1 < b) (hb' : b ≤ 256) (fuel n : ℕ) (buf : List ℕ) (hfuel : n < 2 ^ fuel)
    (hlen : (buf ++ Nat.digits b n).length ≤ 64) :
    restLoop b fuel n buf = some (buf ++ Nat.digits b n) := by
  induction fuel generalizing n buf with
  | zero =>
    obtain rfl : n = 0 := by omega
    rw [restLoop, Nat.digits_zero, List.append_nil]
  | succ fuel ih =>
    rw [restLoop]
    split
    · rename_i hpos
      have hlt := Nat.mod_lt n (show 0 < b by omega)
      have hlen' := hlen
      rw [digits_pos hb hpos] at hlen hlen' ⊢
      rw [List.length_append, List.length_cons] at hlen'
      dsimp only
      rw [sub_div_mul, push_eq (by omega) (by omega), Option.bind_eq_bind, Option.bind_some, ih]
      · rw [List.append_assoc, List.singleton_append]
      · rw [pow_succ] at hfuel
        exact Nat.div_lt_of_lt_mul (by nlinarith)
      · rw [List.append_assoc, List.singleton_append]
        exact hlen
    · rename_i hpos
      obtain rfl : n = 0 := by omega
      rw [Nat.digits_zero, List.append_nil]

/-- The base that is used for the one asked for. -/
def baseOf (base : ℕ) : ℕ := if base < 2 then 10 else base

theorem printULLNumber_eq_digits {base : ℕ} (hn : n < 2 ^ 64) (hbase : base < 256) :
    printULLNumber n base = some ((digitsOf (baseOf base) n).map upperDigit) := by
  have hb : 1 < baseOf base := by
    unfold baseOf
    split <;> omega
  have hb' : baseOf base ≤ 255 := by
    unfold baseOf
    split <;> omega
  rw [printULLNumber, digitsOf]
  split
  · rfl
  · rename_i hn0
    have hpos := Nat.pos_of_ne_zero hn0
    have htop : 2 ≤ 0xffff / baseOf base :=
      (Nat.le_div_iff_mul_le (by omega)).mpr (by omega)
    have htop' : 0xffff / baseOf base ≤ baseOf base ^ (0 + 16) :=
      calc 0xffff / baseOf base ≤ 0xffff := Nat.div_le_self _ _
        _ ≤ 2 ^ 16 := by norm_num
        _ ≤ baseOf base ^ (0 + 16) := Nat.pow_le_pow_left hb 16
    obtain ⟨k, -, hth, hle, hpow⟩ := th16Loop_spec hb 16 0 (by norm_num) htop'
    rw [pow_zero] at hth
    have hk : 0 < k := by
      rw [Nat.pos_iff_ne_zero]
      rintro rfl
      rw [pow_zero] at hle
      omega
    obtain ⟨n', buf', heq, h0, hle', hall⟩ := chunkLoop_eq hb (by omega) hk hpow 64 n [] hpos hn
      (length_digits_le hb hn)
    have hn' : n' % 2 ^ 16 = n' := Nat.mod_eq_of_lt (by omega)
    rw [List.nil_append] at hall
    rw [show (if base < 2 then 10 else base) = baseOf base from rfl]
    simp only [hth, heq, hn', Option.bind_eq_bind, Option.bind_some]
    rw [restLoop_eq hb (by omega) 16 n' buf' (by omega)
        (by rw [hall]; exact length_digits_le hb hn),
      Option.bind_some, hall]

/-- A character of a base up to 208 is never a zero, which would end the text. -/
theorem upperDigit_ne_zero : ∀ d < 208, upperDigit d ≠ 0 := by decide +kernel

theorem cstr_map_upperDigit {ds : List ℕ} (h : ∀ d ∈ ds, d < 208) :
    cstr (ds.map upperDigit) = ds.map upperDigit := by
  apply cstr_eq_self
  intro hmem
  obtain ⟨d, hd, h0⟩ := List.mem_map.mp hmem
  exact upperDigit_ne_zero d (h d hd) h0

/-- **The fast implementation writes what the reference implementation writes**, and both stay
within their buffers. -/
theorem printULLNumber_reference {base : ℕ} (hn : n < 2 ^ 64) (hbase : base ≤ 208) :
    ∃ text, printULLNumber n base = some text ∧ printULLNumberReference n base = some text := by
  have hb : 1 < baseOf base := by
    unfold baseOf
    split <;> omega
  have hb' : baseOf base ≤ 208 := by
    unfold baseOf
    split <;> omega
  refine ⟨_, printULLNumber_eq_digits hn (by omega), ?_⟩
  rw [printULLNumberReference, ← baseOf.eq_def, digitLoop_eq hb (by norm_num) hn, List.append_nil,
    Option.map_some, cstr_map_upperDigit]
  intro d hd
  exact (lt_of_mem_digitsOf hb hd).trans_le hb'

/-- The largest number, with the most digits. -/
theorem printULLNumber_reference_ones :
    ∃ text, printULLNumber (2 ^ 64 - 1) 2 = some text ∧
      printULLNumberReference (2 ^ 64 - 1) 2 = some text :=
  printULLNumber_reference (by norm_num) (by norm_num)

end Ch32h4.Text
