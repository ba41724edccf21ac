import Ch32h4.Icy.Stream
import Ch32h4.Ota.Server

/-!
# The first entry of a playlist

`PlaylistURL::first` is given a response that is not audio, and looks in it for the address of the
stream.  It goes through the body a line at a time, where a line also ends between two elements that
follow each other immediately, and guesses from each line which kind of playlist it is in: the word
`href` makes it an element, an equals sign an entry of an ini file, and anything else is taken to be
an address.

Strings are lists of bytes.  The `char` buffers of the source end at their first zero, and they hold
one byte less than their size.
-/

namespace Ch32h4.PlaylistURL

open Icy (strstr)
open Ota (ascii isSpace trim)

/-! ### Strings -/

/-- `tolower`. -/
def tolower (c : UInt8) : UInt8 := if 65 ≤ c ∧ c ≤ 90 then c + 32 else c

/-- The string in a buffer. -/
def cstr (s : List UInt8) : List UInt8 := s.takeWhile (· ≠ 0)

def http : List UInt8 := ascii ['h', 't', 't', 'p', ':', '/', '/']

def https : List UInt8 := ascii ['h', 't', 't', 'p', 's', ':', '/', '/']

def href : List UInt8 := ascii ['h', 'r', 'e', 'f']

def file : List UInt8 := ascii ['f', 'i', 'l', 'e']

def ref : List UInt8 := ascii ['r', 'e', 'f']

def isHttpUrl (s : List UInt8) : Bool := http.isPrefixOf s || https.isPrefixOf s

/-- Either quote character. -/
def isQuote (c : UInt8) : Bool := c = 34 || c = 39

/-- What is copied of a string that starts with a quote, up to the same quote. -/
def quoted (cap : ℕ) : List UInt8 → Option (List UInt8)
  | [] => none
  | q :: s =>
    let out := (s.takeWhile (· ≠ q)).take (cap - 1)
    if out = [] then none else some out

def quotedAfter (line : List UInt8) (start cap : ℕ) : Option (List UInt8) :=
  quoted cap ((line.drop start).dropWhile fun c => !isQuote c)

def trimmed (s : List UInt8) (cap : ℕ) : List UInt8 := (trim s).take (cap - 1)

/-! ### Lines -/

def isEol (c : UInt8) : Bool := c = 10 || c = 13

/-- The loop that looks for `stop`: the line, and what there is from `stop` on. -/
def findStop : List UInt8 → List UInt8 × List UInt8
  | [] => ([], [])
  | c :: s =>
    if isEol c ∨ c = 62 ∧ s.head? = some 60 then ([], c :: s)
    else (c :: (findStop s).1, (findStop s).2)

/-- Past the separator, whichever it was. -/
def skipStop (s : List UInt8) : List UInt8 :=
  (if s.head? = some 62 then s.tail else s).dropWhile isEol

/-- `low`. -/
def lowered (line : List UInt8) : List UInt8 := (line.take 255).map tolower

/-- `key`, in lower case. -/
def loweredKey (s : List UInt8) : List UInt8 := (cstr (trimmed s 64)).map tolower

/-- `cand`, from a line that is not empty and no comment; `none` where an element has no value. -/
def candidate (line : List UInt8) : Option (List UInt8) :=
  match strstr href (lowered line) with
  | some s => quotedAfter line ((lowered line).length - s.length) 256
  | none =>
    let eq := line.idxOf 61
    if eq < line.length ∧ 0 < eq then
      let key := loweredKey (line.take eq)
      if file <+: key ∨ ref <+: key then some (trimmed (line.drop (eq + 1)) 256)
      else some (line.take 255)
    else some (line.take 255)

/-- What a line offers: a candidate that is none that was asked to be left out. -/
def offer (exclude : Option (List UInt8)) (s : List UInt8) : Option (List UInt8) :=
  let line := cstr (trimmed s 256)
  if line = [] ∨ line.head? = some 35 then none
  else (candidate line).filter fun cand =>
    cand ≠ [] && isHttpUrl cand && exclude ≠ some cand

theorem findStop_append (s : List UInt8) : (findStop s).1 ++ (findStop s).2 = s := by
  induction s with
  | nil => rfl
  | cons c s ih =>
    unfold findStop
    split_ifs with h
    · rfl
    · exact congrArg (c :: ·) ih

/-- Every line takes something of the body away, be it empty. -/
theorem length_skipStop_findStop_lt {s : List UInt8} (h : s ≠ []) :
    (skipStop (findStop s).2).length < s.length := by
  cases s with
  | nil => exact absurd rfl h
  | cons c s =>
    have hskip : (s.dropWhile isEol).length ≤ s.length := (List.dropWhile_sublist _).length_le
    unfold findStop
    split_ifs with hc
    · unfold skipStop
      by_cases h62 : c = 62
      · simpa [h62] using Nat.lt_succ_of_le hskip
      · have heol : isEol c = true := by
          obtain hc | ⟨hc, -⟩ := hc
          · exact hc
          · exact absurd hc h62
        simpa [h62, heol] using Nat.lt_succ_of_le hskip
    · have hlen := congrArg List.length (findStop_append s)
      rw [List.length_append] at hlen
      have hle : (skipStop (findStop s).2).length ≤ (findStop s).2.length := by
        unfold skipStop
        refine (List.dropWhile_sublist _).length_le.trans ?_
        split_ifs
        · exact (List.length_tail (l := (findStop s).2)).le.trans (Nat.sub_le _ _)
        · exact le_rfl
      exact lt_of_le_of_lt hle (by simp only [List.length_cons]; omega)

/-- The loop of `first`. -/
def firstLoop (exclude : Option (List UInt8)) (outCap : ℕ) (body : List UInt8) :
    Option (List UInt8) :=
  if _ : body = [] then none
  else
    match offer exclude (findStop body).1 with
    | some cand => some (cand.take (outCap - 1))
    | none => firstLoop exclude outCap (skipStop (findStop body).2)
termination_by body.length
decreasing_by exact length_skipStop_findStop_lt ‹_›

/-- `PlaylistURL::first`, with what it leaves in the buffer; `out` is the size of that buffer. -/
def first (body exclude : Option (List UInt8)) (out : Option ℕ) : Option (List UInt8) :=
  match body, out with
  | some body, some outCap => if outCap = 0 then none else firstLoop exclude outCap body
  | _, _ => none

end Ch32h4.PlaylistURL
