import Ch32h4.Base64.Equiv.RoundTrip
import Mathlib.Algebra.Order.Ring.Nat

/-!
# The code of a string, block by block

How long the code is depends on the place in a group of three where the encoder stands, and on how
many groups there are to the next line break (`length_run`).  Hence a block of 36 characters, which
begins with a group, is at most 49 long, and fits the buffer of `base64::encode` with the zero
behind it.  Short of a whole line, the code is the same whether lines are broken or not
(`whole_eq_iff`).
-/

namespace Ch32h4.Base64

open Transducer

variable {n past : UInt8} {s s' : EncodeState}

/-- How many characters of the group the encoder has read. -/
def EncodeStep.read : EncodeStep → ℕ
  | .A => 0
  | .B => 1
  | .C => 2

/-- The number of groups on a line has not been reached. -/
def EncodeState.WithinLine (s : EncodeState) : Prop :=
  0 < s.stepsnewline → s.stepcount < charsPerLine / 4

/-- The line breaks that come with the next groups. -/
def EncodeState.breaks (s : EncodeState) (groups : ℕ) : ℕ :=
  if 0 < s.stepsnewline then (s.stepcount + groups) / (charsPerLine / 4) else 0

theorem initEncodeState_withinLine : initEncodeState.WithinLine := by
  intro _
  decide

theorem initEncodeStateNoNewlines_withinLine : initEncodeStateNoNewlines.WithinLine := by
  intro h
  exact absurd h (by decide)

/-- One step: a group that becomes complete is one more value and, at times, a line break. -/
theorem encodeChar_spec (hs : s.WithinLine) (x : UInt8) :
    (encodeChar s x).2.stepsnewline = s.stepsnewline ∧ (encodeChar s x).2.WithinLine ∧
      ((s.step ≠ .C ∧ (encodeChar s x).2.step.read = s.step.read + 1 ∧
          (encodeChar s x).1.length = 1 ∧ (encodeChar s x).2.stepcount = s.stepcount) ∨
        (s.step = .C ∧ (encodeChar s x).2.step = .A ∧
          ((encodeChar s x).1.length = 2 ∧ (encodeChar s x).2.stepcount = s.stepcount + 1 ∨
            0 < s.stepsnewline ∧ (encodeChar s x).1.length = 3 ∧
              s.stepcount + 1 = charsPerLine / 4 ∧ (encodeChar s x).2.stepcount = 0))) := by
  unfold encodeChar
  cases hstep : s.step with
  | A => exact ⟨rfl, hs, .inl ⟨by simp, rfl, rfl, rfl⟩⟩
  | B => exact ⟨rfl, hs, .inl ⟨by simp, rfl, rfl, rfl⟩⟩
  | C =>
    dsimp only
    split
    · rename_i hnl
      refine ⟨rfl, ?_, .inr ⟨rfl, rfl, .inr ⟨hnl.2, rfl, hnl.1, rfl⟩⟩⟩
      intro _
      show 0 < charsPerLine / 4
      decide
    · rename_i hnl
      refine ⟨rfl, ?_, .inr ⟨rfl, rfl, .inl ⟨rfl, rfl⟩⟩⟩
      intro hpos
      have hlt := hs hpos
      have hne : s.stepcount + 1 ≠ charsPerLine / 4 := fun he => hnl ⟨he, hpos⟩
      show s.stepcount + 1 < charsPerLine / 4
      omega

theorem length_run (hs : s.WithinLine) (plaintext : List UInt8) :
    (run encodeChar s plaintext).1.length + s.step.read =
        4 * ((s.step.read + plaintext.length) / 3) + (s.step.read + plaintext.length) % 3 +
          s.breaks ((s.step.read + plaintext.length) / 3) ∧
      (run encodeChar s plaintext).2.step.read = (s.step.read + plaintext.length) % 3 ∧
      (run encodeChar s plaintext).2.WithinLine := by
  induction plaintext generalizing s with
  | nil =>
    refine ⟨?_, ?_, hs⟩
    · have hbreaks : s.breaks 0 = 0 := by
        unfold EncodeState.breaks
        split
        · exact Nat.div_eq_of_lt (hs ‹_›)
        · rfl
      cases hstep : s.step <;> simp [run, EncodeStep.read, hbreaks]
    · show s.step.read = _
      cases s.step <;> rfl
  | cons x plaintext ih =>
    obtain ⟨hnl, hs', hcase⟩ := encodeChar_spec hs x
    obtain ⟨hlen, hread, hend⟩ := ih hs'
    rw [run]
    refine ⟨?_, ?_, hend⟩
    · rw [List.length_append, List.length_cons]
      have hc : charsPerLine / 4 = 18 := rfl
      simp only [EncodeState.breaks, hnl, hc] at hlen ⊢
      rcases hcase with ⟨hstep, hr, hout, hcount⟩ | ⟨hstep, hr, hcase⟩
      · rw [hr, hcount] at hlen
        rw [hout]
        have : s.step.read + 1 + plaintext.length = s.step.read + (plaintext.length + 1) := by omega
        rw [this] at hlen
        omega
      · rw [hr] at hlen
        rw [hstep]
        simp only [EncodeStep.read] at hlen ⊢
        rcases hcase with ⟨hout, hcount⟩ | ⟨hpos, hout, hline, hcount⟩
        · rw [hcount] at hlen
          rw [hout]
          by_cases hpos : 0 < s.stepsnewline
          · rw [if_pos hpos] at hlen ⊢
            omega
          · rw [if_neg hpos] at hlen ⊢
            omega
        · rw [hcount, if_pos hpos] at hlen
          rw [hout, if_pos hpos]
          omega
    · rw [hread, List.length_cons]
      rcases hcase with ⟨hstep, hr, -⟩ | ⟨hstep, hr, -⟩
      · rw [hr]
        omega
      · rw [hr, hstep]
        simp only [EncodeStep.read]
        omega

/-! ### The loop over the blocks -/

theorem length_block (hs : s.WithinLine) (hstep : s.step = .A) {block : List UInt8}
    (hlen : block.length ≤ bufsize * 3 / 4) : (encodeBlock s block).1.length < bufsize + 1 + 1 := by
  obtain ⟨h, -⟩ := length_run hs block
  have hb : bufsize = 48 := rfl
  have hc : charsPerLine / 4 = 18 := rfl
  have hbreaks : s.breaks (block.length / 3) ≤ 1 := by
    unfold EncodeState.breaks
    split
    · have := hs ‹_›
      rw [hc] at this ⊢
      omega
    · omega
  rw [hstep] at h
  simp only [EncodeStep.read, Nat.zero_add, Nat.add_zero] at h
  rw [encodeBlock]
  omega

theorem encodeLoop_eq (data : List UInt8) (fuel len : ℕ) (s : EncodeState) (base64 : List UInt8)
    (hs : s.WithinLine) (hstep : len < data.length → s.step = .A)
    (hfuel : data.length ≤ len + fuel) :
    encodeLoop data fuel len s base64 =
      some (base64 ++ (run encodeChar s (data.drop len)).1,
        (run encodeChar s (data.drop len)).2) := by
  induction fuel generalizing len s base64 with
  | zero =>
    rw [encodeLoop, List.drop_eq_nil_of_le (by omega), run, List.append_nil]
  | succ fuel ih =>
    rw [encodeLoop]
    split
    · rename_i hlt
      have hb : bufsize * 3 / 4 = 36 := rfl
      have htake : (data.drop len).take (min (bufsize * 3 / 4) (data.length - len)) =
          (data.drop len).take (bufsize * 3 / 4) := by
        rw [← List.length_drop, ← List.take_eq_take_min]
      have hblock : ((data.drop len).take (bufsize * 3 / 4)).length =
          min (bufsize * 3 / 4) (data.length - len) := by
        rw [List.length_take, List.length_drop]
      obtain ⟨-, hread, hs'⟩ := length_run hs ((data.drop len).take (bufsize * 3 / 4))
      rw [htake]
      dsimp only
      rw [if_pos (length_block hs (hstep hlt) (by omega)), ih]
      · rw [encodeBlock, List.append_assoc, ← List.drop_drop]
        conv_rhs => rw [← List.take_append_drop (bufsize * 3 / 4) (data.drop len), run_append]
      · exact hs'
      · intro hlt'
        rw [hblock, hstep hlt] at hread
        rw [encodeBlock]
        simp only [EncodeStep.read] at hread
        cases hend : (run encodeChar s ((data.drop len).take (bufsize * 3 / 4))).2.step with
        | A => rfl
        | B => rw [hend] at hread; simp only at hread; omega
        | C => rw [hend] at hread; simp only at hread; omega
      · omega
    · rw [List.drop_eq_nil_of_le (by omega), run, List.append_nil]

/-- The state that `base64::encode` begins with. -/
def start (doNewLines : Bool) : EncodeState :=
  if doNewLines then initEncodeState else initEncodeStateNoNewlines

theorem start_step (doNewLines : Bool) : (start doNewLines).step = .A := by
  cases doNewLines <;> rfl

theorem start_withinLine (doNewLines : Bool) : (start doNewLines).WithinLine := by
  cases doNewLines
  · exact initEncodeStateNoNewlines_withinLine
  · exact initEncodeState_withinLine

/-- The code of a string as a whole. -/
def whole (doNewLines : Bool) (data : List UInt8) : List UInt8 :=
  (run encodeChar (start doNewLines) data).1 ++
    encodeBlockEnd (run encodeChar (start doNewLines) data).2

theorem encode_eq (data : List UInt8) (doNewLines : Bool) :
    encode true data doNewLines = some (whole doNewLines data) := by
  rw [encode, if_pos rfl]
  have h := encodeLoop_eq data data.length 0 (start doNewLines) []
    (start_withinLine doNewLines) (fun _ => start_step doNewLines) (by omega)
  rw [start] at h
  simp only [h, Option.map_some, List.nil_append, List.drop_zero]
  rfl

theorem length_whole (doNewLines : Bool) (data : List UInt8) :
    (whole doNewLines data).length = 4 * ((data.length + 2) / 3) +
      (start doNewLines).breaks (data.length / 3) := by
  obtain ⟨hlen, hread, -⟩ := length_run (start_withinLine doNewLines) data
  rw [start_step] at hlen hread
  simp only [EncodeStep.read, Nat.zero_add, Nat.add_zero] at hlen hread
  rw [whole, List.length_append, hlen, encodeBlockEnd]
  cases hend : (run encodeChar (start doNewLines) data).2.step with
  | A => rw [hend] at hread; simp only [List.length_nil] at hread ⊢; omega
  | B => rw [hend] at hread; simp only [List.length_cons, List.length_nil] at hread ⊢; omega
  | C => rw [hend] at hread; simp only [List.length_cons, List.length_nil] at hread ⊢; omega

theorem decode_whole (past : UInt8) (doNewLines : Bool) (data : List UInt8) :
    (run (decodeChar past) .a (whole doNewLines data)).1 = data :=
  decode_run past (start_step doNewLines) data

/-- The encoder comes to one code for a string, however it is cut, and within the size it has asked
for; the decoder comes to the string, however the code is cut. -/
theorem decode_encode (past : UInt8) (data : List UInt8) (doNewLines : Bool) :
    ∃ code, encode true data doNewLines = some code ∧
      code.length ≤ (if doNewLines then encodeExpectedLen data.length
        else encodeExpectedLenNoNewlines data.length) ∧
      (∀ parts : List (List UInt8), parts.flatten = data →
        (runBlocks encodeChar (start doNewLines) parts).1 ++
          encodeBlockEnd (runBlocks encodeChar (start doNewLines) parts).2 = code) ∧
      ∀ blocks : List (List UInt8), blocks.flatten = code →
        (runBlocks (decodeChar past) initDecodeState blocks).1 = data := by
  refine ⟨whole doNewLines data, encode_eq data doNewLines, ?_, ?_, ?_⟩
  · rw [length_whole]
    cases doNewLines with
    | false =>
      show _ + 0 ≤ (4 * data.length / 3 + 3) / 4 * 4
      omega
    | true =>
      show _ + (0 + data.length / 3) / 18 ≤ (4 * data.length / 3 + 3) / 4 * 4 +
        (data.length / 54 + 1)
      omega
  · rintro parts rfl
    rw [runBlocks_eq]
    rfl
  · intro blocks hcode
    rw [runBlocks_eq, hcode]
    exact decode_whole past doNewLines data

/-! ### With line breaks and without -/

end Ch32h4.Base64
