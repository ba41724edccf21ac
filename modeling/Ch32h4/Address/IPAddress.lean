import Ch32h4.Text.Basic

/-!
# Addresses and their texts

`IPAddress`, with both ways of writing an address (`printTo` and `toString`) and the way back
(`fromString`).  A text is a C string without its zero.  A member function gives the address as it
is afterwards, also if it fails.
-/

namespace Ch32h4.Address

open Text

/-- `IPType`. -/
inductive IPType
  | IPv4
  | IPv6
  deriving DecidableEq

/-- `_address.bytes`. -/
abbrev Bytes := Vector UInt8 16

/-- A byte; the code asks for none but the sixteen. -/
def Bytes.get (b : Bytes) (i : ℕ) : UInt8 := b[i]?.getD 0

def Bytes.put (b : Bytes) (i : ℕ) (x : UInt8) : Bytes := b.setIfInBounds i x

/-- `memset(_address.bytes, 0, …)`. -/
def Bytes.zero : Bytes := Vector.replicate 16 0

structure IPAddress where
  type : IPType
  bytes : Bytes

/-- `IPADDRESS_V4_BYTES_INDEX`. -/
def v4Index : ℕ := 12

/-! ### Reading a text -/

/-- The loop of `fromString4`, with `none` for `-1` in `acc`: the bytes, and `acc` and `dots` unless
it returns. -/
def loop4 : List UInt8 → Option ℕ → ℕ → Bytes → Bytes × Option (Option ℕ × ℕ)
  | [], acc, dots, b => (b, some (acc, dots))
  | c :: address, acc, dots, b =>
    if 48 ≤ c ∧ c ≤ 57 then
      let acc := match acc with
        | none => c.toNat - 48
        | some acc => acc * 10 + (c.toNat - 48)
      if acc > 255 then (b, none) else loop4 address (some acc) dots b
    else if c = 46 then
      if dots = 3 then (b, none)
      else
        match acc with
        | none => (b, none)
        | some acc => loop4 address none (dots + 1) (b.put (v4Index + dots) (UInt8.ofNat acc))
    else (b, none)

/-- `fromString4`. -/
def IPAddress.fromString4 (a : IPAddress) (address : List UInt8) : Bool × IPAddress :=
  match loop4 address none 0 Bytes.zero with
  | (b, none) => (false, { a with bytes := b })
  | (b, some (acc, dots)) =>
    if dots ≠ 3 then (false, { a with bytes := b })
    else
      match acc with
      | none => (false, { a with bytes := b })
      | some acc => (true, ⟨.IPv4, b.put (v4Index + 3) (UInt8.ofNat acc)⟩)

/-- `isalnum(c) && c <= 'f'`, of a character in lower case. -/
def isHex (c : UInt8) : Bool := 48 ≤ c ∧ c ≤ 57 ∨ 97 ≤ c ∧ c ≤ 102

/-- The value of such a character. -/
def hexDigit (c : UInt8) : ℕ := if 97 ≤ c then c.toNat - 87 else c.toNat - 48

/-- A field: two bytes. -/
def Bytes.putField (b : Bytes) (i acc : ℕ) : Bytes :=
  (b.put (i * 2) (UInt8.ofNat (acc / 256))).put (i * 2 + 1) (UInt8.ofNat (acc % 256))

/-- The loop of `fromString6`: the bytes, and `acc`, `colons` and `double_colons` unless it
returns. -/
def loop6 : List UInt8 → ℕ → ℕ → Option ℕ → Bytes → Bytes × Option (ℕ × ℕ × Option ℕ)
  | [], acc, colons, doubleColons, b => (b, some (acc, colons, doubleColons))
  | c :: address, acc, colons, doubleColons, b =>
    if isHex (tolower c) then
      let acc := acc * 16 + hexDigit (tolower c)
      if acc > 65535 then (b, none) else loop6 address acc colons doubleColons b
    else if c = 58 then
      match address with
      | [] => (b, none)
      | d :: rest =>
        if d = 58 then
          if doubleColons.isSome then (b, none)
          else if rest.head? = some 58 then (b, none)
          else if colons = 7 then (b, none)
          else loop6 rest 0 (colons + 1) (some (colons + if acc = 0 then 0 else 1))
            (b.putField colons acc)
        else if colons = 7 then (b, none)
        else loop6 (d :: rest) 0 (colons + 1) doubleColons (b.putField colons acc)
    else (b, none)

/-- The loop that moves the bytes behind the double colon, of which there are so many, to the
end. -/
def moveLoop (colons doubleColons : ℕ) : ℕ → Bytes → Bytes
  | 0, b => b
  | i + 1, b =>
    moveLoop colons doubleColons i
      (b.put (16 - colons * 2 + doubleColons * 2 + i) (b.get (doubleColons * 2 + i)))

/-- The loop that clears what is between. -/
def clearLoop (b : Bytes) (first count : ℕ) : Bytes :=
  (List.range' first count).foldl (fun b i => b.put i 0) b

/-- `fromString6`. -/
def IPAddress.fromString6 (a : IPAddress) (address : List UInt8) : Bool × IPAddress :=
  match loop6 address 0 0 none a.bytes with
  | (b, none) => (false, { a with bytes := b })
  | (b, some (acc, colons, doubleColons)) =>
    if doubleColons = none ∧ colons ≠ 7 then (false, { a with bytes := b })
    else if doubleColons.isSome ∧ colons > 6 then (false, { a with bytes := b })
    else
      let b := b.putField colons acc
      let colons := colons + 1
      match doubleColons with
      | none => (true, ⟨.IPv6, b⟩)
      | some d => (true, ⟨.IPv6,
          clearLoop (moveLoop colons d (colons * 2 - d * 2) b) (d * 2) (16 - colons * 2)⟩)

/-- `fromString`. -/
def IPAddress.fromString (a : IPAddress) (address : List UInt8) : Bool × IPAddress :=
  match a.fromString4 address with
  | (true, a) => (true, a)
  | (false, a) => a.fromString6 address

/-! ### Writing a text -/

/-- A digit, as `printTo` makes it. -/
def digit (c : ℕ) : UInt8 := if c < 10 then UInt8.ofNat (48 + c) else UInt8.ofNat (97 + c - 10)

/-- `%02x`. -/
def hex2 (x : UInt8) : List UInt8 := [digit (x.toNat / 16), digit (x.toNat % 16)]

/-- `%u`, and `print` in base 10, of a byte. -/
def decimal (x : UInt8) : List UInt8 :=
  (if 100 ≤ x.toNat then [digit (x.toNat / 100)] else []) ++
    (if 10 ≤ x.toNat then [digit (x.toNat / 10 % 10)] else []) ++ [digit (x.toNat % 10)]

/-- `toString4`, and `printTo` for an IPv4 address. -/
def IPAddress.toString4 (a : IPAddress) : List UInt8 :=
  decimal (a.bytes.get v4Index) ++ [46] ++ decimal (a.bytes.get (v4Index + 1)) ++ [46] ++
    decimal (a.bytes.get (v4Index + 2)) ++ [46] ++ decimal (a.bytes.get (v4Index + 3))

/-- `toString6`: eight fields of four digits. -/
def IPAddress.toString6 (a : IPAddress) : List UInt8 :=
  (List.range 8).flatMap fun f =>
    hex2 (a.bytes.get (f * 2)) ++ hex2 (a.bytes.get (f * 2 + 1)) ++ if f < 7 then [58] else []

/-- `toString`. -/
def IPAddress.toString (a : IPAddress) : List UInt8 :=
  match a.type with
  | .IPv4 => a.toString4
  | .IPv6 => a.toString6

/-- The search of `printTo` for the longest run of zero fields, with `none` for `-1`. -/
structure Runs where
  longestStart : Option ℕ
  longestLength : ℕ
  currentStart : Option ℕ
  currentLength : ℕ

/-- Whether a field is zero. -/
def Bytes.zeroField (b : Bytes) (f : ℕ) : Prop := b.get (f * 2) = 0 ∧ b.get (f * 2 + 1) = 0

instance (b : Bytes) (f : ℕ) : Decidable (b.zeroField f) := inferInstanceAs (Decidable (_ ∧ _))

/-- One turn of the search. -/
def Runs.look (b : Bytes) (r : Runs) (f : ℕ) : Runs :=
  if b.zeroField f then
    let r :=
      match r.currentStart with
      | none => { r with currentStart := some f, currentLength := 1 }
      | some _ => { r with currentLength := r.currentLength + 1 }
    if r.currentLength > r.longestLength then
      { r with longestStart := r.currentStart, longestLength := r.currentLength }
    else r
  else { r with currentStart := none }

/-- The search. -/
def Bytes.runs (b : Bytes) : Runs := (List.range 8).foldl (Runs.look b) ⟨none, 1, none, 0⟩

/-- A field without the zeros in front. -/
def Bytes.printField (b : Bytes) (f : ℕ) : List UInt8 :=
  let c1 := (b.get (f * 2)).toNat / 16
  let c2 := (b.get (f * 2)).toNat % 16
  let c3 := (b.get (f * 2 + 1)).toNat / 16
  let c4 := (b.get (f * 2 + 1)).toNat % 16
  (if c1 > 0 then [digit c1] else []) ++ (if c1 > 0 ∨ c2 > 0 then [digit c2] else []) ++
    (if c1 > 0 ∨ c2 > 0 ∨ c3 > 0 then [digit c3] else []) ++ [digit c4]

/-- What `printTo` writes for a field. -/
def Bytes.printTurn (b : Bytes) (r : Runs) (f : ℕ) : List UInt8 :=
  match r.longestStart with
  | none => b.printField f ++ if f < 7 then [58] else []
  | some start =>
    if f < start ∨ f ≥ start + r.longestLength then
      b.printField f ++ if f < 7 then [58] else []
    else if f = start then (if start = 0 then [58] else []) ++ [58]
    else []

/-- `printTo`. -/
def IPAddress.printTo (a : IPAddress) : List UInt8 :=
  match a.type with
  | .IPv6 => (List.range 8).flatMap (a.bytes.printTurn a.bytes.runs)
  | .IPv4 => a.toString4

end Ch32h4.Address
