import Ch32h4.Transducer
import Mathlib.Data.Int.Notation
import Mathlib.Data.List.Basic

/-!
# The base64 coder of libb64

`cencode.cpp`, `cdecode.cpp`, and `base64::encode` of the HTTP client, which works on them in blocks
of 36 bytes.  The steps of the source are labels inside a loop that a block enters where the last
one left it; here each turn of the loop is a step of a machine that has the label in its state.
-/

namespace Ch32h4.Base64

open Transducer

/-- `BASE64_CHARS_PER_LINE`. -/
def charsPerLine : ℕ := 72

/-- `base64_encode_expected_len_nonewlines`. -/
def encodeExpectedLenNoNewlines (n : ℕ) : ℕ := (4 * n / 3 + 3) / 4 * 4

/-- `base64_encode_expected_len`. -/
def encodeExpectedLen (n : ℕ) : ℕ :=
  encodeExpectedLenNoNewlines n + (n / (charsPerLine * 3 / 4) + 1)

/-- `base64_encodestep`. -/
inductive EncodeStep
  | A
  | B
  | C
  deriving DecidableEq

/-- `base64_encodestate`. -/
structure EncodeState where
  step : EncodeStep
  result : UInt8
  stepcount : ℕ
  stepsnewline : ℤ

/-- `base64_init_encodestate`. -/
def initEncodeState : EncodeState := ⟨.A, 0, 0, charsPerLine⟩

/-- `base64_init_encodestate_nonewlines`. -/
def initEncodeStateNoNewlines : EncodeState := { initEncodeState with stepsnewline := -1 }

/-- `base64_encode_value`: a `char` has a sign. -/
def encodeValue (n : UInt8) : UInt8 :=
  if n.toInt8 < 26 then n + 65
  else if n.toInt8 < 26 + 26 then n - 26 + 97
  else if n.toInt8 < 26 + 26 + 10 then n - 26 - 26 + 48
  else if n = 62 then 43
  else 47

/-- `base64_encode_block`, from the label that stands in the state to the next one. -/
def encodeChar (s : EncodeState) (fragment : UInt8) : List UInt8 × EncodeState :=
  match s.step with
  | .A =>
    ([encodeValue ((fragment &&& 0xfc) >>> 2)],
      { s with step := .B, result := (fragment &&& 0x03) <<< 4 })
  | .B =>
    ([encodeValue (s.result ||| (fragment &&& 0xf0) >>> 4)],
      { s with step := .C, result := (fragment &&& 0x0f) <<< 2 })
  | .C =>
    let code := [encodeValue (s.result ||| (fragment &&& 0xc0) >>> 6),
      encodeValue (fragment &&& 0x3f)]
    let s := { s with step := .A, result := fragment &&& 0x3f, stepcount := s.stepcount + 1 }
    if s.stepcount = charsPerLine / 4 ∧ 0 < s.stepsnewline then
      (code ++ [10], { s with stepcount := 0 })
    else (code, s)

/-- `base64_encode_block`. -/
def encodeBlock (s : EncodeState) (plaintext : List UInt8) : List UInt8 × EncodeState :=
  run encodeChar s plaintext

/-- `base64_encode_blockend`. -/
def encodeBlockEnd (s : EncodeState) : List UInt8 :=
  match s.step with
  | .A => []
  | .B => [encodeValue s.result, 61, 61]
  | .C => [encodeValue s.result, 61]

/-- `base64_encode_chars`. -/
def encodeChars (plaintext : List UInt8) : List UInt8 :=
  let r := encodeBlock initEncodeState plaintext
  r.1 ++ encodeBlockEnd r.2

/-- The table of `base64_decode_value_signed`, with `-1` and `-2` as bytes. -/
def decoding : List UInt8 :=
  [62, 255, 255, 255, 63, 52, 53, 54, 55, 56, 57, 58, 59, 60, 61, 255, 255, 255, 254, 255, 255, 255,
    0, 1, 2, 3, 4, 5, 6, 7, 8, 9, 10, 11, 12, 13, 14, 15, 16, 17, 18, 19, 20, 21, 22, 23, 24, 25,
    255, 255, 255, 255, 255, 255,
    26, 27, 28, 29, 30, 31, 32, 33, 34, 35, 36, 37, 38, 39, 40, 41, 42, 43, 44, 45, 46, 47, 48, 49,
    50, 51]

/-- `base64_decode_value_signed`.  The bound lets one index too many pass, the one of the brace
after `z`, and what is read there is the byte `past` behind the table. -/
def decodeValue (past : UInt8) (value_in : UInt8) : Int8 :=
  let value := (value_in - 43).toInt8
  if value < 0 ∨ decoding.length < value.toInt then -1
  else ((decoding ++ [past]).getD value.toInt.toNat 255).toInt8

/-- `base64_decodestate`.  Between two blocks, the character in the making is of use in every step
but the first, which sets it. -/
inductive DecodeState
  | a
  | b (plainchar : UInt8)
  | c (plainchar : UInt8)
  | d (plainchar : UInt8)

/-- `base64_init_decodestate`. -/
def initDecodeState : DecodeState := .a

/-- `base64_decode_block_signed`, from one reading of a character to the next.  One that has no
value leaves the step as it is. -/
def decodeChar (past : UInt8) (s : DecodeState) (codechar : UInt8) : List UInt8 × DecodeState :=
  let value := decodeValue past codechar
  if value < 0 then ([], s)
  else
    let fragment := value.toUInt8
    match s with
    | .a => ([], .b ((fragment &&& 0x3f) <<< 2))
    | .b plainchar => ([plainchar ||| (fragment &&& 0x30) >>> 4], .c ((fragment &&& 0x0f) <<< 4))
    | .c plainchar => ([plainchar ||| (fragment &&& 0x3c) >>> 2], .d ((fragment &&& 0x03) <<< 6))
    | .d plainchar => ([plainchar ||| (fragment &&& 0x3f)], .a)

/-- `base64_decode_block`. -/
def decodeBlock (past : UInt8) (s : DecodeState) (code : List UInt8) : List UInt8 × DecodeState :=
  run (decodeChar past) s code

/-- `base64_decode_chars`. -/
def decodeChars (past : UInt8) (code : List UInt8) : List UInt8 :=
  (decodeBlock past initDecodeState code).1

/-! ### The client's encoder -/

/-- `BUFSIZE`. -/
def bufsize : ℕ := 48

/-- The loop of `base64::encode`, with what the string holds so far.  A block that does not leave
room for the zero behind it in `buf` is `none`. -/
def encodeLoop (data : List UInt8) :
    ℕ → ℕ → EncodeState → List UInt8 → Option (List UInt8 × EncodeState)
  | 0, _, s, base64 => some (base64, s)
  | fuel + 1, len, s, base64 =>
    if len < data.length then
      let r := encodeBlock s ((data.drop len).take (min (bufsize * 3 / 4) (data.length - len)))
      if r.1.length < bufsize + 1 + 1 then
        encodeLoop data fuel (len + bufsize * 3 / 4) r.2 (base64 ++ r.1)
      else none
    else some (base64, s)

/-- `base64::encode`, with whether `reserve` finds the memory. -/
def encode (reserve : Bool) (data : List UInt8) (doNewLines : Bool) : Option (List UInt8) :=
  if reserve then
    let s := if doNewLines then initEncodeState else initEncodeStateNoNewlines
    (encodeLoop data data.length 0 s []).map fun r => r.1 ++ encodeBlockEnd r.2
  else some [45, 70, 65, 73, 76, 45]

end Ch32h4.Base64
