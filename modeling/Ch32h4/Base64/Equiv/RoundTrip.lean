import Ch32h4.Base64.Coder
import Mathlib.Tactic.IntervalCases

/-!
# What is encoded is decoded

Between two characters, the bits of the last one are divided among the two machines: the encoder
has the low ones in `result`, shifted to where the next value takes them, and the decoder has the
high ones in `plainchar` (`Follows`).  Each further character moves this division by two bits
(`undoes`), and the end of the code brings the last of them (`decode_blockEnd`).
-/

namespace Ch32h4.Base64

open Transducer

variable {x y n past : UInt8} {s : EncodeState} {t : DecodeState}

theorem ext_bits (h : ∀ i (hi : i < 8), x.toBitVec[i] = y.toBitVec[i]) : x = y := by
  rw [← UInt8.toBitVec_inj]
  exact BitVec.eq_of_getElem_eq h

/-! ### One value -/

/-- A value of six bits. -/
def Sextet (n : UInt8) : Prop := n &&& 0xc0 = 0

/-- The characters of the code, by their values. -/
theorem value_of_sextet : ∀ i : Fin 256, UInt8.ofFin i &&& 0xc0 = 0 →
    (encodeValue (UInt8.ofFin i) - 43).toInt8.toInt.toNat < 80 ∧
      0 ≤ (encodeValue (UInt8.ofFin i) - 43).toInt8 ∧
      decoding[(encodeValue (UInt8.ofFin i) - 43).toInt8.toInt.toNat]? =
        some (UInt8.ofFin i) ∧
      0 ≤ (UInt8.ofFin i).toInt8 ∧ 43 ≤ encodeValue (UInt8.ofFin i) := by
  decide +kernel

theorem decodeValue_encodeValue (hn : Sextet n) :
    decodeValue past (encodeValue n) = n.toInt8 := by
  obtain ⟨hlt, h0, hget, -⟩ := value_of_sextet n.toFin hn
  rw [UInt8.ofFin_toFin] at hlt h0 hget
  have hlen : decoding.length = 80 := rfl
  unfold decodeValue
  rw [if_neg, List.getD_eq_getElem?_getD, List.getElem?_append_left (by omega), hget]
  · rfl
  · rw [hlen, not_or, Int8.not_lt]
    exact ⟨h0, by omega⟩

theorem not_lt_of_sextet (hn : Sextet n) : ¬ n.toInt8 < 0 :=
  Int8.not_lt.mpr (value_of_sextet n.toFin hn).2.2.2.1

theorem decodeChar_a (hn : Sextet n) :
    decodeChar past .a (encodeValue n) = ([], .b ((n &&& 0x3f) <<< 2)) := by
  simp only [decodeChar, decodeValue_encodeValue hn, if_neg (not_lt_of_sextet hn),
    UInt8.toUInt8_toInt8]

theorem decodeChar_b (hn : Sextet n) (c : UInt8) :
    decodeChar past (.b c) (encodeValue n) =
      ([c ||| (n &&& 0x30) >>> 4], .c ((n &&& 0x0f) <<< 4)) := by
  simp only [decodeChar, decodeValue_encodeValue hn, if_neg (not_lt_of_sextet hn),
    UInt8.toUInt8_toInt8]

theorem decodeChar_c (hn : Sextet n) (c : UInt8) :
    decodeChar past (.c c) (encodeValue n) =
      ([c ||| (n &&& 0x3c) >>> 2], .d ((n &&& 0x03) <<< 6)) := by
  simp only [decodeChar, decodeValue_encodeValue hn, if_neg (not_lt_of_sextet hn),
    UInt8.toUInt8_toInt8]

theorem decodeChar_d (hn : Sextet n) (c : UInt8) :
    decodeChar past (.d c) (encodeValue n) = ([c ||| (n &&& 0x3f)], .a) := by
  simp only [decodeChar, decodeValue_encodeValue hn, if_neg (not_lt_of_sextet hn),
    UInt8.toUInt8_toInt8]

/-- Line breaks and padding have no value. -/
theorem decodeChar_skip (h : x = 10 ∨ x = 61) : decodeChar past t x = ([], t) := by
  have : decodeValue past x < 0 := by
    rcases h with rfl | rfl
    · exact (by decide : (-1 : Int8) < 0)
    · exact (by decide : (-2 : Int8) < 0)
  simp only [decodeChar, if_pos this]

/-! ### The bits of a character -/

/-- The value that begins with the low bits of `x`, and the one after it. -/
def second (x y : UInt8) : UInt8 := (x &&& 0x03) <<< 4 ||| (y &&& 0xf0) >>> 4

/-- The value that begins with the low bits of the second character of a group. -/
def third (x y : UInt8) : UInt8 := (x &&& 0x0f) <<< 2 ||| (y &&& 0xc0) >>> 6

theorem first_bits (x : UInt8) :
    Sextet ((x &&& 0xfc) >>> 2) ∧ ((x &&& 0xfc) >>> 2 &&& 0x3f) <<< 2 = x &&& 0xfc := by
  constructor
  all_goals
    apply ext_bits
    intro i hi
    interval_cases i <;> simp

theorem second_bits (x y : UInt8) :
    Sextet (second x y) ∧ x &&& (0xfc : UInt8) ||| (second x y &&& 0x30) >>> 4 = x ∧
      (second x y &&& 0x0f) <<< 4 = y &&& 0xf0 := by
  refine ⟨?_, ?_, ?_⟩
  all_goals
    apply ext_bits
    intro i hi
    interval_cases i <;> simp [second]

theorem third_bits (x y : UInt8) :
    Sextet (third x y) ∧ x &&& (0xf0 : UInt8) ||| (third x y &&& 0x3c) >>> 2 = x ∧
      (third x y &&& 0x03) <<< 6 = y &&& 0xc0 := by
  refine ⟨?_, ?_, ?_⟩
  all_goals
    apply ext_bits
    intro i hi
    interval_cases i <;> simp [third]

theorem fourth_bits (x : UInt8) :
    Sextet (x &&& 0x3f) ∧ x &&& 0xc0 ||| (x &&& 0x3f &&& 0x3f) = x := by
  constructor
  all_goals
    apply ext_bits
    intro i hi
    interval_cases i <;> simp

theorem second_zero (x : UInt8) : second x 0 = (x &&& 0x03) <<< 4 := by
  simp [second]

theorem third_zero (x : UInt8) : third x 0 = (x &&& 0x0f) <<< 2 := by
  simp [third]

/-! ### The two machines together -/

/-- The character that is divided between the encoder and the decoder. -/
inductive Follows : List UInt8 → EncodeState → DecodeState → Prop
  | a (s : EncodeState) (hs : s.step = .A) : Follows [] s .a
  | b (s : EncodeState) (x : UInt8) (hs : s.step = .B) (hr : s.result = (x &&& 0x03) <<< 4) :
        Follows [x] s (.b (x &&& 0xfc))
  | c (s : EncodeState) (x : UInt8) (hs : s.step = .C) (hr : s.result = (x &&& 0x0f) <<< 2) :
        Follows [x] s (.c (x &&& 0xf0))

theorem undoes (past : UInt8) : Undoes encodeChar (decodeChar past) Follows := by
  rintro pending s t (⟨s, hs⟩ | ⟨s, x, hs, hr⟩ | ⟨s, x, hs, hr⟩) y
  · obtain ⟨hn, hhigh⟩ := first_bits y
    refine ⟨[y], ?_, ?_⟩
    · simp only [encodeChar, hs, run, decodeChar_a hn, List.append_nil, List.nil_append]
    · simp only [encodeChar, hs, run, decodeChar_a hn, hhigh]
      exact .b _ y rfl rfl
  · obtain ⟨hn, hwhole, hhigh⟩ := second_bits x y
    refine ⟨[y], ?_, ?_⟩
    · simp only [encodeChar, hs, hr, run, ← second.eq_def, decodeChar_b hn, hwhole, List.append_nil]
    · simp only [encodeChar, hs, hr, run, ← second.eq_def, decodeChar_b hn, hhigh]
      exact .c _ y rfl rfl
  · obtain ⟨hn, hwhole, hhigh⟩ := third_bits x y
    obtain ⟨hn4, hwhole4⟩ := fourth_bits y
    -- a line break behind the two values is skipped
    have hcode : ∀ tail, tail = [] ∨ tail = [10] →
        run (decodeChar past) (.c (x &&& 0xf0))
          ([encodeValue (third x y), encodeValue (y &&& 0x3f)] ++ tail) = ([x, y], .a) := by
      intro tail htail
      rw [run_append]
      simp only [run, decodeChar_c hn, decodeChar_d hn4, hwhole, hhigh, hwhole4]
      rcases htail with rfl | rfl
      · rfl
      · simp only [run, decodeChar_skip (.inl rfl)]
        rfl
    refine ⟨[], ?_, ?_⟩
    · simp only [encodeChar, hs, hr, ← third.eq_def]
      split
      · rw [hcode _ (.inr rfl)]
        rfl
      · rw [← List.append_nil [encodeValue _, _], hcode _ (.inl rfl)]
        rfl
    · simp only [encodeChar, hs, hr, ← third.eq_def]
      split
      · rw [hcode _ (.inr rfl)]
        exact .a _ rfl
      · rw [← List.append_nil [encodeValue _, _], hcode _ (.inl rfl)]
        exact .a _ rfl

/-- The end of the code brings the bits that the encoder still has. -/
theorem decode_blockEnd {pending : List UInt8} (h : Follows pending s t) :
    (run (decodeChar past) t (encodeBlockEnd s)).1 = pending := by
  rcases h with ⟨s, hs⟩ | ⟨s, x, hs, hr⟩ | ⟨s, x, hs, hr⟩
  · simp only [encodeBlockEnd, hs, run]
  · obtain ⟨hn, hwhole, -⟩ := second_bits x 0
    rw [second_zero] at hn hwhole
    simp only [encodeBlockEnd, hs, hr, run, decodeChar_b hn, decodeChar_skip (.inr rfl), hwhole,
      List.append_nil]
  · obtain ⟨hn, hwhole, -⟩ := third_bits x 0
    rw [third_zero] at hn hwhole
    simp only [encodeBlockEnd, hs, hr, run, decodeChar_c hn, decodeChar_skip (.inr rfl), hwhole,
      List.append_nil]

theorem decode_run (past : UInt8) (hs : s.step = .A) (plaintext : List UInt8) :
    (run (decodeChar past) .a ((run encodeChar s plaintext).1 ++
      encodeBlockEnd (run encodeChar s plaintext).2)).1 = plaintext := by
  obtain ⟨pending, hout, hrel⟩ := (undoes past).run (.a s hs) plaintext
  rw [run_append, decode_blockEnd hrel, ← hout, List.nil_append]

end Ch32h4.Base64
