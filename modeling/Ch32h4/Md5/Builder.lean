import Mathlib.Data.List.Basic
import Mathlib.Logic.Function.Iterate

/-!
# MD5

`MD5Builder`, which the updater checks images with and the over-the-air server its passwords.  A
builder takes data in pieces of any length; `add_append` says that only their concatenation
matters.

The partial block is a list shorter than 64 bytes, which the builder carries the proof of.
-/

namespace Ch32h4.Md5

/-- The RFC's table, `floor(2^32 * abs(sin(i + 1)))`. -/
def K : List UInt32 := [
  0xd76aa478, 0xe8c7b756, 0x242070db, 0xc1bdceee,
  0xf57c0faf, 0x4787c62a, 0xa8304613, 0xfd469501,
  0x698098d8, 0x8b44f7af, 0xffff5bb1, 0x895cd7be,
  0x6b901122, 0xfd987193, 0xa679438e, 0x49b40821,
  0xf61e2562, 0xc040b340, 0x265e5a51, 0xe9b6c7aa,
  0xd62f105d, 0x02441453, 0xd8a1e681, 0xe7d3fbc8,
  0x21e1cde6, 0xc33707d6, 0xf4d50d87, 0x455a14ed,
  0xa9e3e905, 0xfcefa3f8, 0x676f02d9, 0x8d2a4c8a,
  0xfffa3942, 0x8771f681, 0x6d9d6122, 0xfde5380c,
  0xa4beea44, 0x4bdecfa9, 0xf6bb4b60, 0xbebfbc70,
  0x289b7ec6, 0xeaa127fa, 0xd4ef3085, 0x04881d05,
  0xd9d4d039, 0xe6db99e5, 0x1fa27cf8, 0xc4ac5665,
  0xf4292244, 0x432aff97, 0xab9423a7, 0xfc93a039,
  0x655b59c3, 0x8f0ccc92, 0xffeff47d, 0x85845dd1,
  0x6fa87e4f, 0xfe2ce6e0, 0xa3014314, 0x4e0811a1,
  0xf7537e82, 0xbd3af235, 0x2ad7d2bb, 0xeb86d391]

/-- The left-rotation amounts, which repeat within a round. -/
def S (i : ℕ) : UInt32 :=
  ([[7, 12, 17, 22], [5, 9, 14, 20], [4, 11, 16, 23], [6, 10, 15, 21]].getD (i / 16) []).getD
    (i % 4) 0

def rotl (x c : UInt32) : UInt32 := (x <<< c) ||| (x >>> (32 - c))

/-- The four words of the state. -/
structure Words where
  a : UInt32
  b : UInt32
  c : UInt32
  d : UInt32
  deriving DecidableEq

/-- Word `i` of a block. -/
def blockWord (block : List UInt8) (i : ℕ) : UInt32 :=
  let byte j := (block.getD (i * 4 + j) 0).toUInt32
  byte 0 ||| (byte 1 <<< 8) ||| (byte 2 <<< 16) ||| (byte 3 <<< 24)

/-- One of the 64 operations on a block. -/
def operation (block : List UInt8) (w : Words) (i : ℕ) : Words :=
  let (f, g) :=
    if i < 16 then ((w.b &&& w.c) ||| (~~~w.b &&& w.d), i)
    else if i < 32 then ((w.d &&& w.b) ||| (~~~w.d &&& w.c), (5 * i + 1) % 16)
    else if i < 48 then (w.b ^^^ w.c ^^^ w.d, (3 * i + 5) % 16)
    else (w.c ^^^ (w.b ||| ~~~w.d), (7 * i) % 16)
  ⟨w.d, w.b + rotl (w.a + f + K.getD i 0 + blockWord block g) (S i), w.b, w.c⟩

/-- `MD5Builder::transform`. -/
def transform (w : Words) (block : List UInt8) : Words :=
  let w' := (List.range 64).foldl (operation block) w
  ⟨w.a + w'.a, w.b + w'.b, w.c + w'.c, w.d + w'.d⟩

/-- The fields of `MD5Builder`; the digest is the result of `calculate`. -/
structure Builder where
  state : Words
  bits : UInt64
  buf : List UInt8
  buf_lt : buf.length < 64

namespace Builder

/-- A builder as constructed; `begin` has not been called. -/
def new : Builder := ⟨⟨0, 0, 0, 0⟩, 0, [], by decide⟩

/-- `MD5Builder::begin`. -/
def begin : Builder := ⟨⟨0x67452301, 0xefcdab89, 0x98badcfe, 0x10325476⟩, 0, [], by decide⟩

/-- Take bytes into the partial block, and transform it once it is full. -/
def fill (m : Builder) (bs : List UInt8) : Builder :=
  if h : (m.buf ++ bs).length < 64 then { m with buf := m.buf ++ bs, buf_lt := h }
  else { m with state := transform m.state (m.buf ++ bs), buf := [], buf_lt := by decide }

/-- The loop of `MD5Builder::add`: each turn takes what the partial block has room for. -/
def addLoop : ℕ → Builder → List UInt8 → Builder
  | 0, m, _ => m
  | n + 1, m, data =>
    if data = [] then m
    else
      let room := 64 - m.buf.length
      let take := if data.length < room then data.length else room
      addLoop n (m.fill (data.take take)) (data.drop take)

/-- `MD5Builder::add`.  Every turn of the loop takes at least one byte. -/
def add (m : Builder) (data : List UInt8) : Builder :=
  addLoop data.length { m with bits := m.bits + UInt64.ofNat (data.length * 8) } data

/-- The padding of `MD5Builder::calculate`, up to the length. -/
def pad (m : Builder) : Builder :=
  let m := m.add [0x80]
  (fun m => m.add [0])^[(56 + 64 - m.buf.length) % 64] m

/-- The digest `MD5Builder::calculate` leaves. -/
def calculate (m : Builder) : List UInt8 :=
  let tail := (List.range 8).map fun i => (m.bits >>> UInt64.ofNat (8 * i)).toUInt8
  let w := transform m.pad.state (m.pad.buf ++ tail)
  [w.a, w.b, w.c, w.d].flatMap fun x =>
    (List.range 4).map fun i => (x >>> UInt32.ofNat (8 * i)).toUInt8

/-- The two lowercase hex digits of a byte. -/
def hexDigits (b : UInt8) : List Char :=
  let hex := "0123456789abcdef".toList
  [hex.getD (b.toNat / 16) '0', hex.getD (b.toNat % 16) '0']

/-- `MD5Builder::toString`, after `calculate`. -/
def toHex (m : Builder) : List Char := m.calculate.flatMap hexDigits

end Builder

/-- The MD5 of `data`, in hex. -/
def md5 (data : List UInt8) : List Char := (Builder.begin.add data).toHex

example : md5 [97, 98, 99] = "900150983cd24fb0d6963f7d28e17f72".toList := by decide +kernel

/-! ### Pieces do not matter -/

namespace Builder

theorem fill_nil (m : Builder) : m.fill [] = m := by
  have h : (m.buf ++ []).length < 64 := by
    rw [List.append_nil]
    exact m.buf_lt
  rw [fill, dif_pos h]
  simp only [List.append_nil]

/-- Bytes taken within the room of the block may be taken in two pieces. -/
theorem fill_cons (m : Builder) (x : UInt8) (bs : List UInt8)
    (h : m.buf.length + (x :: bs).length ≤ 64) : m.fill (x :: bs) = (m.fill [x]).fill bs := by
  rw [List.length_cons] at h
  by_cases hbs : bs = []
  · rw [hbs, fill_nil]
  · have hpos : 0 < bs.length := List.length_pos_iff.mpr hbs
    have hx : (m.buf ++ [x]).length < 64 := by
      rw [List.length_append, List.length_singleton]
      omega
    have happ : m.buf ++ x :: bs = m.buf ++ [x] ++ bs := by
      rw [List.append_assoc, List.singleton_append]
    unfold fill
    rw [dif_pos hx]
    simp only [happ]

/-- A turn of the loop, byte by byte. -/
theorem fill_eq_foldl (bs : List UInt8) :
    ∀ m : Builder, m.buf.length + bs.length ≤ 64 →
      m.fill bs = bs.foldl (fun m x => m.fill [x]) m := by
  induction bs with
  | nil => exact fun m _ => m.fill_nil
  | cons x bs ih =>
    intro m h
    rw [fill_cons m x bs h, List.foldl_cons]
    by_cases hbs : bs = []
    · rw [hbs, fill_nil, List.foldl_nil]
    · refine ih _ ?_
      have hpos : 0 < bs.length := List.length_pos_iff.mpr hbs
      rw [List.length_cons] at h
      have hx : (m.buf ++ [x]).length < 64 := by
        rw [List.length_append, List.length_singleton]
        omega
      rw [fill, dif_pos hx]
      simp only [List.length_append, List.length_singleton]
      omega

/-- The loop, byte by byte. -/
theorem addLoop_eq_foldl (n : ℕ) :
    ∀ (m : Builder) (data : List UInt8), data.length ≤ n →
      addLoop n m data = data.foldl (fun m x => m.fill [x]) m := by
  induction n with
  | zero =>
    intro m data h
    rw [List.length_eq_zero_iff.mp (Nat.le_zero.mp h)]
    rfl
  | succ n ih =>
    intro m data h
    unfold addLoop
    by_cases hdata : data = []
    · rw [if_pos hdata, hdata, List.foldl_nil]
    · rw [if_neg hdata]
      set k := if data.length < 64 - m.buf.length then data.length else 64 - m.buf.length with hk
      have hlt := m.buf_lt
      have hpos : 0 < data.length := List.length_pos_iff.mpr hdata
      have hk₁ : 0 < k ∧ k ≤ data.length ∧ m.buf.length + k ≤ 64 := by
        rw [hk]
        split_ifs <;> omega
      have htake : (data.take k).length = k := List.length_take_of_le hk₁.2.1
      rw [ih _ _ (by rw [List.length_drop]; omega),
        fill_eq_foldl _ m (by rw [htake]; exact hk₁.2.2), ← List.foldl_append,
        List.take_append_drop]

/-- Filling leaves the count alone. -/
theorem foldl_fill_bits (data : List UInt8) (n : UInt64) :
    ∀ m : Builder, { data.foldl (fun m x => m.fill [x]) m with bits := n } =
      data.foldl (fun m x => m.fill [x]) { m with bits := n } := by
  induction data with
  | nil => exact fun m => rfl
  | cons x data ih =>
    intro m
    rw [List.foldl_cons, List.foldl_cons, ih]
    congr 1
    unfold fill
    split_ifs <;> rfl

/-- `add`, byte by byte. -/
theorem add_eq_foldl (m : Builder) (data : List UInt8) :
    m.add data = data.foldl (fun m x => m.fill [x])
      { m with bits := m.bits + UInt64.ofNat (data.length * 8) } :=
  addLoop_eq_foldl _ _ _ (Nat.le_refl _)

/-- **Only the concatenation of the pieces matters.** -/
theorem add_append (m : Builder) (xs ys : List UInt8) : m.add (xs ++ ys) = (m.add xs).add ys := by
  have hbits : ∀ m : Builder, (m.add xs).bits = m.bits + UInt64.ofNat (xs.length * 8) := by
    intro m
    rw [add_eq_foldl, ← foldl_fill_bits]
  rw [add_eq_foldl, add_eq_foldl (m.add xs), hbits, add_eq_foldl m xs, foldl_fill_bits,
    List.foldl_append, List.length_append, Nat.add_mul, UInt64.ofNat_add, UInt64.add_assoc]

theorem add_nil (m : Builder) : m.add [] = m := by
  rw [add_eq_foldl]
  simp

end Builder

end Ch32h4.Md5
