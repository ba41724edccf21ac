import Mathlib.Data.List.Basic

/-!
# Searching a stream for strings

`Stream::findMulti` and what is built on it.  The stream is the list of the bytes that the timed
reads get: where the list ends, a read times out.  All results are of the form (what is returned,
what has not been read).
-/

namespace Ch32h4.Stream

/-- `MultiTarget`, with `len` as the length of `str`. -/
structure MultiTarget where
  str : List UInt8
  index : ℕ

/-- The `do … while` that walks `index` back from `origIndex`. -/
def walkBack (str : List UInt8) (c : UInt8) (origIndex : ℕ) : ℕ → ℕ
  | 0 => 0
  | index + 1 =>
    if str[index]? ≠ some c then walkBack str c origIndex index
    else if index = 0 then index + 1
    else if ∀ i < index, str[i]? = str[i + (origIndex - index)]? then index + 1
    else walkBack str c origIndex index

/-- A target that `c` does not match. -/
def MultiTarget.mismatch (t : MultiTarget) (c : UInt8) : MultiTarget :=
  if t.index = 0 then t else { t with index := walkBack t.str c t.index t.index }

/-- The loop over the targets, the first of which is number `n`, for one character: the number of a
target that is complete, or the targets as they are then. -/
def feed (c : UInt8) (n : ℕ) : List MultiTarget → Except ℕ (List MultiTarget)
  | [] => .ok []
  | t :: ts =>
    if t.str[t.index]? = some c then
      if t.index + 1 = t.str.length then .error n
      else do return { t with index := t.index + 1 } :: (← feed c (n + 1) ts)
    else do return t.mismatch c :: (← feed c (n + 1) ts)

/-- The loop over the characters. -/
def findLoop : List UInt8 → List MultiTarget → Option ℕ × List UInt8
  | [], _ => (none, [])
  | c :: bytes, ts =>
    match feed c 0 ts with
    | .error n => (some n, bytes)
    | .ok ts => findLoop bytes ts

/-- `findMulti`. -/
def findMulti (targets : List MultiTarget) (bytes : List UInt8) : Option ℕ × List UInt8 :=
  match targets.findIdx? (·.str.length ≤ 0) with
  | some n => (some n, bytes)
  | none => findLoop bytes targets

/-- `findUntil`, where a terminator may be `NULL`. -/
def findUntil (target : List UInt8) (terminator : Option (List UInt8)) (bytes : List UInt8) :
    Bool × List UInt8 :=
  let r := match terminator with
    | none => findMulti [⟨target, 0⟩] bytes
    | some terminator => findMulti [⟨target, 0⟩, ⟨terminator, 0⟩] bytes
  (r.1 = some 0, r.2)

/-- `find`. -/
def find (target bytes : List UInt8) : Bool × List UInt8 := findUntil target none bytes

end Ch32h4.Stream
