import Ch32h4.Text.Basic
import Mathlib.Data.Int.Notation

/-!
# Numbers in a text

How a number is written, by `itoa.c` and the class `Print`, and how it is read, by
`Stream::parseInt` and `atol`.  A `long` has 32 bits, and signed arithmetic that leaves them has no
defined result: `none`.
-/

namespace Ch32h4.Text

/-- The result of an operation on `long`s. -/
def long (x : ℤ) : Option ℤ := if -2 ^ 31 ≤ x ∧ x < 2 ^ 31 then some x else none

/-! ### Writing -/

/-- The loop from the last digit to the first one, with `room` cells left in front of `str`. -/
def digitLoop (digit : ℕ → UInt8) (base : ℕ) : ℕ → ℕ → List UInt8 → Option (List UInt8)
  | 0, _, _ => none
  | room + 1, n, str =>
    let str := digit (n % base) :: str
    if n / base = 0 then some str else digitLoop digit base room (n / base) str

/-- `digit < 10u ? '0' + digit : 'a' + digit - 10u`. -/
def lowerDigit (digit : ℕ) : UInt8 :=
  UInt8.ofNat (if digit < 10 then 48 + digit else 97 + digit - 10)

/-- `c < 10 ? c + '0' : c + 'A' - 10`, of a `char`, which has a sign. -/
def upperDigit (c : ℕ) : UInt8 :=
  if (UInt8.ofNat c).toInt8 < 10 then UInt8.ofNat c + 48 else UInt8.ofNat c + 65 - 10

/-- `utoa_common`. -/
def utoaCommon (value radix : ℕ) : Option (List UInt8) := digitLoop lowerDigit radix 32 value []

/-- `ltoa_common`, of a `long`. -/
def ltoa (value : ℤ) (radix : ℕ) : Option (List UInt8) :=
  if radix < 2 ∨ 36 < radix then some []
  else if radix = 10 ∧ value < 0 then (utoaCommon (-value).toNat radix).map (45 :: ·)
  else utoaCommon (value % 2 ^ 32).toNat radix

/-- `Print::printNumber`. -/
def printNumber (n base : ℕ) : Option (List UInt8) :=
  (digitLoop upperDigit (if base < 2 then 10 else base) 32 n []).map cstr

/-- `Print::print(long, int)`. -/
def printLong (n : ℤ) (base : ℕ) : Option (List UInt8) :=
  if base = 0 then some [UInt8.ofNat (n % 2 ^ 8).toNat]
  else if base = 10 then
    if n < 0 then do
      let n ← long (-n)
      (printNumber n.toNat 10).map (45 :: ·)
    else printNumber n.toNat 10
  else printNumber (n % 2 ^ 32).toNat (base % 256)

/-- The reference implementation of `Print::printULLNumber`. -/
def printULLNumberReference (n base : ℕ) : Option (List UInt8) :=
  (digitLoop upperDigit (if base < 2 then 10 else base) 64 n []).map cstr

/-- The loop that finds `th16` and `innerLoops`. -/
def th16Loop (base top : ℕ) : ℕ → ℕ → ℕ → ℕ × ℕ
  | 0, th16, innerLoops => (th16, innerLoops)
  | fuel + 1, th16, innerLoops =>
    if th16 < top then th16Loop base top fuel (th16 * base % 2 ^ 16) (innerLoops + 1)
    else (th16, innerLoops)

/-- `buf[i++] = c`, of a buffer of 64. -/
def push (buf : List ℕ) (c : ℕ) : Option (List ℕ) :=
  if buf.length < 64 then some (buf ++ [c % 256]) else none

/-- The loop over the digits of a remainder. -/
def remainderLoop (base : ℕ) : ℕ → ℕ → List ℕ → Option (List ℕ)
  | 0, _, buf => some buf
  | j + 1, r, buf => do
    let qq := r / base
    let buf ← push buf (r - qq * base)
    remainderLoop base j qq buf

/-- The loop over the chunks. -/
def chunkLoop (base th16 innerLoops : ℕ) : ℕ → ℕ → List ℕ → Option (ℕ × List ℕ)
  | 0, n64, buf => some (n64, buf)
  | fuel + 1, n64, buf =>
    if n64 > th16 then do
      let q := n64 / th16
      let r := (n64 - q * th16) % 2 ^ 16
      let buf ← remainderLoop base innerLoops r buf
      chunkLoop base th16 innerLoops fuel q buf
    else some (n64, buf)

/-- The loop over the digits of the rest. -/
def restLoop (base : ℕ) : ℕ → ℕ → List ℕ → Option (List ℕ)
  | 0, _, buf => some buf
  | fuel + 1, n16, buf =>
    if n16 > 0 then do
      let qq := n16 / base
      let buf ← push buf (n16 - qq * base)
      restLoop base fuel qq buf
    else some buf

/-- The fast implementation of `Print::printULLNumber`.  `n64` loses a digit in each turn, and has
64 at most. -/
def printULLNumber (n64 base : ℕ) : Option (List UInt8) :=
  if n64 = 0 then some [48]
  else do
    let base := if base < 2 then 10 else base
    let (th16, innerLoops) := th16Loop base (0xffff / base) 16 1 0
    let (n64, buf) ← chunkLoop base th16 innerLoops 64 n64 []
    let buf ← restLoop base 16 (n64 % 2 ^ 16) buf
    some (buf.reverse.map upperDigit)

/-! ### Reading -/

/-- `LookaheadMode`. -/
inductive LookaheadMode
  | skipAll
  | skipNone
  | skipWhitespace
  deriving DecidableEq

def isDigit (c : UInt8) : Bool := 48 ≤ c ∧ c ≤ 57

/-- `peekNextDigit` without a decimal point: whether there is one, and what has not been read. -/
def peekNextDigit (lookahead : LookaheadMode) : List UInt8 → Bool × List UInt8
  | [] => (false, [])
  | c :: bytes =>
    if c = 45 ∨ isDigit c then (true, c :: bytes)
    else
      match lookahead with
      | .skipNone => (false, c :: bytes)
      | .skipWhitespace =>
        if c = 32 ∨ c = 9 ∨ c = 13 ∨ c = 10 then peekNextDigit lookahead bytes
        else (false, c :: bytes)
      | .skipAll => peekNextDigit lookahead bytes

/-- What the loop of `parseInt` does with a character: the sign and the value. -/
def parseChar (ignore c : UInt8) (isNegative : Bool) (value : ℤ) : Option (Bool × ℤ) :=
  if c = ignore then some (isNegative, value)
  else if c = 45 then some (true, value)
  else if isDigit c then do
    let value ← long (value * 10)
    let value ← long (value + c.toNat)
    let value ← long (value - 48)
    some (isNegative, value)
  else some (isNegative, value)

/-- Whether the loop goes on with what is there next.  The `-1` of a timeout is taken for the
character to ignore if that is 255. -/
def goesOn (ignore : UInt8) : List UInt8 → Bool
  | [] => ignore = 255
  | c :: _ => isDigit c ∨ c = ignore

/-- The loop of `parseInt`, with the character that has been peeked at still in front.  Once it goes
on behind a timeout, it has no end. -/
def parseLoop (ignore : UInt8) : List UInt8 → Bool → ℤ → Option (ℤ × List UInt8)
  | [], _, _ => none
  | c :: bytes, isNegative, value => do
    let (isNegative, value) ← parseChar ignore c isNegative value
    if goesOn ignore bytes then parseLoop ignore bytes isNegative value
    else if isNegative then (long (-value)).map (·, bytes)
    else some (value, bytes)

/-- `Stream::parseInt`. -/
def parseInt (lookahead : LookaheadMode) (ignore : UInt8) (bytes : List UInt8) :
    Option (ℤ × List UInt8) :=
  match peekNextDigit lookahead bytes with
  | (false, bytes) => some (0, bytes)
  | (true, bytes) => parseLoop ignore bytes false 0

/-- `NO_IGNORE_CHAR`. -/
def noIgnoreChar : UInt8 := 1

/-- `atol`, with the sign and the digits that follow on white space.  A value out of range becomes
the closest one in it. -/
def atol (s : List UInt8) : ℤ :=
  let s := (cstr s).dropWhile isspace
  let negative := s.head? = some 45
  let s := if s.head? = some 45 ∨ s.head? = some 43 then s.drop 1 else s
  let value : ℕ := (s.takeWhile isDigit).foldl (fun v c => v * 10 + (c.toNat - 48)) 0
  if negative then max (-2 ^ 31) (-(value : ℤ)) else min (2 ^ 31 - 1) (value : ℤ)

end Ch32h4.Text
