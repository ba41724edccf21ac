import Ch32h4.TransitionSystem
import Ch32h4.Text.Basic

/-!
# A body in chunks

`HTTPStream`, which takes the chunks of a response apart while it is read.

What comes in is a list of bytes for every look at the connection, each of which lets the stack run.
What decides on the timing is the number of times that a loop has the time to look; every call is
given its own.
-/

namespace Ch32h4.Http

open Text

/-! ### The connection -/

/-- `_conn`. -/
structure Conn where
  /-- What has been received and not been read. -/
  got : List UInt8
  /-- What comes in before each of the next looks. -/
  coming : List (List UInt8)

namespace Conn

/-- `available` lets the stack run. -/
def look (c : Conn) : Conn :=
  match c.coming with
  | [] => c
  | bytes :: coming => ⟨c.got ++ bytes, coming⟩

/-- The loop that waits for a byte. -/
def wait : ℕ → Conn → Conn
  | 0, c => c
  | n + 1, c => if c.look.got = [] then wait n c.look else c.look

/-- All that has not been read, now and later. -/
def bytes (c : Conn) : List UInt8 := c.got ++ c.coming.flatten

end Conn

/-! ### The stream -/

/-- `_state`. -/
inductive State
  | readHex
  | readLf
  | tailCr
  | tailLf
  | error
  deriving DecidableEq

structure HTTPStream where
  chunked : Bool
  chunkLen : ℤ
  state : State
  /-- `_partial`, as its 32 bits. -/
  partialLen : ℕ
  eof : Bool

/-- `int`, from its 32 bits. -/
def ofBits (n : ℕ) : ℤ := if n < 2 ^ 31 then n else n - 2 ^ 32

/-- The value of a digit of a chunk length. -/
def hexValue (recv : UInt8) : Option ℕ :=
  if 48 ≤ recv ∧ recv ≤ 57 then some (recv.toNat - 48)
  else if 97 ≤ tolower recv ∧ tolower recv ≤ 102 then some ((tolower recv).toNat - 97 + 10)
  else none

namespace HTTPStream

/-- `reset`; `_chunkLen` keeps its value. -/
def reset (s : HTTPStream) (chunked : Bool) : HTTPStream :=
  { s with chunked, state := .readHex, partialLen := 0, eof := false }

/-- The `switch` of `tryReadChunkLen`, and whether it returns. -/
def takeByte (s : HTTPStream) (recv : UInt8) : HTTPStream × Bool :=
  match s.state with
  | .readHex =>
    if recv = 13 then ({ s with state := .readLf }, false)
    else
      match hexValue recv with
      -- The four bits that `|=` fills have been cleared by the shift.
      | some x => ({ s with partialLen := (16 * s.partialLen + x) % 2 ^ 32 }, false)
      | none => ({ s with state := .error }, true)
  | .readLf =>
    if recv ≠ 10 then ({ s with state := .error }, true)
    else
      let s := { s with chunkLen := ofBits s.partialLen, partialLen := 0, state := .tailCr }
      (if s.chunkLen = 0 then { s with eof := true } else s, true)
  | .tailCr =>
    if recv = 13 then ({ s with state := .tailLf }, false) else ({ s with state := .error }, true)
  | .tailLf =>
    if recv = 10 then ({ s with state := .readHex }, false) else ({ s with state := .error }, true)
  | .error => (s, true)

/-- The loop of `tryReadChunkLen`. -/
def chunkLenLoop : ℕ → HTTPStream → Conn → HTTPStream × Conn
  | 0, s, c => (s, c)
  | n + 1, s, c =>
    match c.look.got with
    | [] => chunkLenLoop n s c.look
    | recv :: got =>
      if (s.takeByte recv).2 then ((s.takeByte recv).1, { c.look with got })
      else chunkLenLoop n (s.takeByte recv).1 { c.look with got }

/-- `tryReadChunkLen`. -/
def tryReadChunkLen (n : ℕ) (s : HTTPStream) (c : Conn) : HTTPStream × Conn :=
  if s.state = .error then (s, c) else chunkLenLoop n s c

/-- `if (!_chunkLen) { tryReadChunkLen(…); }`. -/
def nextChunk (n : ℕ) (s : HTTPStream) (c : Conn) : HTTPStream × Conn :=
  if s.chunkLen = 0 then tryReadChunkLen n s c else (s, c)

/-- `available`. -/
def available (n : ℕ) (s : HTTPStream) (c : Conn) : ℤ × HTTPStream × Conn :=
  if ¬ s.chunked then (c.look.got.length, s, c.look)
  else if s.eof then (0, s, c)
  else
    let (s, c) := s.nextChunk n c
    (min s.chunkLen c.look.got.length, s, c.look)

/-- `read`. -/
def read (n m : ℕ) (s : HTTPStream) (c : Conn) : Option UInt8 × HTTPStream × Conn :=
  if ¬ s.chunked then (c.got.head?, s, { c with got := c.got.tail })
  else if s.eof then (none, s, c)
  else
    let (s, c) := s.nextChunk n c
    if s.chunkLen = 0 then (none, s, c)
    else
      let c := (c.wait m).look
      match c.got with
      | [] => (none, s, c)
      | b :: got => (some b, { s with chunkLen := s.chunkLen - 1 }, { c with got })

/-- `read` with a buffer, of as many bytes as there are times. -/
def readBytes : List (ℕ × ℕ) → HTTPStream → Conn → List UInt8 × HTTPStream × Conn
  | [], s, c => ([], s, c)
  | (n, m) :: times, s, c =>
    match s.read n m c with
    | (none, s, c) => ([], s, c)
    | (some b, s, c) =>
      let r := readBytes times s c
      (b :: r.1, r.2)

/-- `peek`. -/
def peek (n m : ℕ) (s : HTTPStream) (c : Conn) : Option UInt8 × HTTPStream × Conn :=
  if ¬ s.chunked then (c.got.head?, s, c)
  else if s.eof then (none, s, c)
  else
    let (s, c) := s.nextChunk n c
    if s.chunkLen = 0 then (none, s, c)
    else
      let c := (c.wait m).look
      (c.got.head?, s, c)

end HTTPStream

/-! ### Runs -/

/-- The stream and its connection, with what has been read from it. -/
structure Reader where
  stream : HTTPStream
  conn : Conn
  returned : List UInt8

/-- A call, with the times that it has. -/
inductive Call
  | available (n : ℕ)
  | read (n m : ℕ)
  | readBytes (times : List (ℕ × ℕ))
  | peek (n m : ℕ)

def Reader.step (r : Reader) : Call → Reader
  | .available n =>
    let (_, s, c) := r.stream.available n r.conn
    { r with stream := s, conn := c }
  | .read n m =>
    let (b, s, c) := r.stream.read n m r.conn
    ⟨s, c, r.returned ++ b.toList⟩
  | .readBytes times =>
    let (bs, s, c) := r.stream.readBytes times r.conn
    ⟨s, c, r.returned ++ bs⟩
  | .peek n m =>
    let (_, s, c) := r.stream.peek n m r.conn
    { r with stream := s, conn := c }

/-- A response with its body in chunks, read from its first byte on by a new stream. -/
def reading (received : Conn) : Machine Reader Call where
  init r := r = ⟨(⟨false, 0, .readHex, 0, false⟩ : HTTPStream).reset true, received, []⟩
  step r a := some (r.step a)

end Ch32h4.Http
