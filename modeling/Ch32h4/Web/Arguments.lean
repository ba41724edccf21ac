import Ch32h4.Text.Basic
import Ch32h4.Web.Form

/-!
# The arguments of a request

`HTTPServer::_parseArguments` and `urlDecode`.  Every loop of the source moves on in the string, and
the length of the string is the fuel of the recursion that models it.
-/

namespace Ch32h4.Web

open Text

/-- The value of a hexadecimal digit. -/
def hexDigit (c : UInt8) : Option UInt8 :=
  if 48 ≤ c ∧ c ≤ 57 then some (c - 48)
  else if 65 ≤ c ∧ c ≤ 70 then some (c - 55)
  else if 97 ≤ c ∧ c ≤ 102 then some (c - 87)
  else none

/-- `strtol` of `"0x"` and two characters: it stops at the first one that is not a digit. -/
def strtolHex (a b : UInt8) : UInt8 :=
  match hexDigit a, hexDigit b with
  | some x, some y => 16 * x + y
  | some x, none => x
  | none, _ => 0

/-- `urlDecode`. -/
def urlDecode : List UInt8 → List UInt8
  | [] => []
  | c :: a :: b :: text =>
    if c = 37 then strtolHex a b :: urlDecode text
    else (if c = 43 then 32 else c) :: urlDecode (a :: b :: text)
  | c :: text => (if c = 43 then 32 else c) :: urlDecode text

/-- The loop that counts the ampersands from `i` on. -/
def countArgs (data : List UInt8) : ℕ → ℕ → ℕ → ℕ
  | 0, _, count => count
  | fuel + 1, i, count =>
    if i < data.length then
      match indexOf data 38 i with
      | none => count
      | some i => countArgs data fuel (i + 1) (count + 1)
    else count

/-- The loop over the arguments, from `pos` on, of which `_currentArgs` has room for `count + 1`. -/
def argsLoop (data : List UInt8) (count : ℕ) :
    ℕ → ℕ → List RequestArgument → List RequestArgument
  | 0, _, args => args
  | fuel + 1, pos, args =>
    if args.length < count then
      let nextArgIndex := indexOf data 38 pos
      match indexOf data 61 pos with
      | none =>
        match nextArgIndex with
        | none => args
        | some next => argsLoop data count fuel (next + 1) args
      | some equalSignIndex =>
        if nextArgIndex.any (· < equalSignIndex) then
          argsLoop data count fuel (toUnsigned nextArgIndex + 1) args
        else
          let key := urlDecode (substring data pos equalSignIndex)
          let value := urlDecode (substring data (equalSignIndex + 1) (toUnsigned nextArgIndex))
          match nextArgIndex with
          | none => args ++ [⟨key, value⟩]
          | some next => argsLoop data count fuel (next + 1) (args ++ [⟨key, value⟩])
    else args

/-- `_parseArguments`, as `_currentArgs` up to `_currentArgCount`. -/
def parseArguments (data : List UInt8) : List RequestArgument :=
  if data.length = 0 then []
  else argsLoop data (countArgs data data.length 0 1) (data.length + 1) 0 []

end Ch32h4.Web
