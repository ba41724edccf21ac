import Ch32h4.TransitionSystem
import Mathlib.Algebra.Order.Ring.Int

/-!
# A stream with metadata in it

A Shoutcast server sends so many bytes of audio, then a length byte and a block of metadata, and so
on.  `IcyStream` hands on the audio and keeps the title.  A block may come in pieces, so
`consumeMetadata` can be resumed at any byte.

The upstream is the list of the bytes that it will ever deliver.  What decides on the timing is a
list of answers for each call: whether a byte is there when `read` asks the upstream.
-/

namespace Ch32h4.Icy

/-- `MAX_TITLE`, which is the size of both buffers. -/
def maxTitle : ℕ := 128

/-- The stream below. -/
structure Upstream where
  rest : List UInt8
  /-- What was read from it. -/
  taken : List UInt8
  /-- Whether a byte is there, for each time that it is asked. -/
  ready : List Bool

/-- `_up->read()`. -/
def Upstream.read (up : Upstream) : Option UInt8 × Upstream :=
  match up.ready, up.rest with
  | true :: ready, c :: rest => (some c, ⟨rest, up.taken ++ [c], ready⟩)
  | _ :: ready, rest => (none, ⟨rest, up.taken, ready⟩)
  | [], rest => (none, ⟨rest, up.taken, []⟩)

structure IcyStream where
  metaint : ℕ
  untilMeta : ℕ
  titleChanges : ℕ
  metaLeft : ℕ
  /-- `_metaBuf`, as far as `_metaGot`. -/
  metaBuf : List UInt8
  title : List UInt8

/-- `begin`. -/
def IcyStream.begin (metaint : ℕ) : IcyStream := ⟨metaint, metaint, 0, 0, [], []⟩

/-- `strstr`: the string from the first occurrence on. -/
def strstr (needle : List UInt8) : List UInt8 → Option (List UInt8)
  | [] => if needle = [] then some [] else none
  | c :: cs => if needle <+: c :: cs then some (c :: cs) else strstr needle cs

/-- `StreamTitle='`. -/
def titleField : List UInt8 := [83, 116, 114, 101, 97, 109, 84, 105, 116, 108, 101, 61, 39]

/-- `';`. -/
def titleEnd : List UInt8 := [39, 59]

/-- The title in a buffer of text, if there is one; the text ends with the first zero. -/
def streamTitle (buf : List UInt8) : Option (List UInt8) :=
  match strstr titleField (buf.takeWhile (· ≠ 0)) with
  | none => none
  | some s =>
    let s := s.drop titleField.length
    let tl :=
      match strstr titleEnd s with
      | none => s.length
      | some e => s.length - e.length
    some (s.take (if tl ≥ maxTitle then maxTitle - 1 else tl))

/-- The end of `consumeMetadata`, with the block complete. -/
def IcyStream.finish (icy : IcyStream) : IcyStream :=
  let icy := { icy with untilMeta := icy.metaint }
  match streamTitle icy.metaBuf with
  | none => icy
  | some title =>
    if title = icy.title then icy
    else { icy with title, titleChanges := icy.titleChanges + 1 }

/-- The loop of `consumeMetadata`, for as many bytes as are owed. -/
def readBlock : ℕ → IcyStream → Upstream → IcyStream × Upstream
  | 0, icy, up => (icy.finish, up)
  | left + 1, icy, up =>
    match up.read with
    | (none, up) => (icy, up)
    | (some c, up) =>
      readBlock left
        { icy with
          metaLeft := left,
          metaBuf := if icy.metaBuf.length + 1 < maxTitle then icy.metaBuf ++ [c] else icy.metaBuf }
        up

def IcyStream.consumeMetadata (icy : IcyStream) (up : Upstream) : IcyStream × Upstream :=
  if icy.metaLeft = 0 then
    match up.read with
    | (none, up) => (icy, up)
    | (some lenByte, up) =>
      let icy := { icy with metaLeft := lenByte.toNat * 16, metaBuf := [] }
      if icy.metaLeft = 0 then ({ icy with untilMeta := icy.metaint }, up)
      else readBlock icy.metaLeft icy up
  else readBlock icy.metaLeft icy up

/-- `if (_untilMeta == 0) { consumeMetadata(); }`. -/
def IcyStream.skip (icy : IcyStream) (up : Upstream) : IcyStream × Upstream :=
  if icy.untilMeta = 0 then icy.consumeMetadata up else (icy, up)

/-- `(int)_untilMeta`. -/
def toInt (n : ℕ) : ℤ := if n < 2 ^ 31 then n else n - 2 ^ 32

/-- `IcyStream::available`, with what the upstream says it has. -/
def IcyStream.available (icy : IcyStream) (up : Upstream) (a : ℤ) : ℤ × IcyStream × Upstream :=
  let r := icy.skip up
  (if a < toInt r.1.untilMeta then a else toInt r.1.untilMeta, r)

/-- `IcyStream::read`. -/
def IcyStream.read (icy : IcyStream) (up : Upstream) : Option UInt8 × IcyStream × Upstream :=
  let r := icy.skip up
  match r.2.read with
  | (none, up) => (none, r.1, up)
  | (some c, up) =>
    (some c, if r.1.untilMeta > 0 then { r.1 with untilMeta := r.1.untilMeta - 1 } else r.1, up)

/-- `IcyStream::peek`: the byte that the upstream shows, if it shows one. -/
def peek (up : Upstream) (seen : Bool) : Option UInt8 := if seen then up.rest.head? else none

/-! ### What the upstream consists of -/

/-- Where in the stream the next byte is. -/
inductive Phase where
  /-- So many bytes of audio follow, and then a length byte. -/
  | audio (left : ℕ)
  /-- So many bytes of a block follow, after this text. -/
  | block (left : ℕ) (text : List UInt8)

/-- A stream, taken apart. -/
structure Parts where
  phase : Phase
  audio : List UInt8
  /-- The text of each block that is complete. -/
  blocks : List (List UInt8)

/-- One more byte. -/
def Parts.feed (metaint : ℕ) (parts : Parts) (c : UInt8) : Parts :=
  match parts.phase with
  | .audio (left + 1) => { parts with phase := .audio left, audio := parts.audio ++ [c] }
  | .audio 0 =>
    if c.toNat = 0 then { parts with phase := .audio metaint, blocks := parts.blocks ++ [[]] }
    else { parts with phase := .block (c.toNat * 16) [] }
  | .block left text =>
    if left ≤ 1 then
      { parts with phase := .audio metaint, blocks := parts.blocks ++ [text ++ [c]] }
    else { parts with phase := .block (left - 1) (text ++ [c]) }

/-- **The parts of a stream**, of which so many bytes of audio stand between two blocks. -/
def split (metaint : ℕ) (stream : List UInt8) : Parts :=
  stream.foldl (Parts.feed metaint) ⟨.audio metaint, [], []⟩

/-- The byte of audio that comes next in `rest`, after `parts`. -/
def Parts.next (metaint : ℕ) (parts : Parts) (rest : List UInt8) : Option UInt8 :=
  (rest.foldl (Parts.feed metaint) { parts with audio := [] }).audio.head?

/-- The title of the last block that has one; a block is kept as far as the buffer goes. -/
def lastTitle (blocks : List (List UInt8)) : List UInt8 :=
  ((blocks.map (·.take (maxTitle - 1))).filterMap streamTitle).getLast?.getD []

/-! ### Runs -/

/-- The byte that `peek` has shown, and the byte of audio that came next then. -/
structure Peeked where
  shown : UInt8
  next : Option UInt8

/-- What `available` has promised, and how many bytes of audio were left before the next block. -/
structure Promise where
  promised : ℤ
  left : ℕ

structure System where
  icy : IcyStream
  up : Upstream
  /-- The bytes that `read` has returned. -/
  returned : List UInt8
  peeked : List Peeked
  promises : List Promise

inductive Action where
  | available (ready : List Bool) (a : ℤ)
  | read (ready : List Bool)
  | peek (seen : Bool)

/-- How many bytes of audio are left before the next block. -/
def Phase.left : Phase → ℕ
  | .audio left => left
  | .block _ _ => 0

def System.available (s : System) (ready : List Bool) (a : ℤ) : System :=
  let r := s.icy.available { s.up with ready } a
  { s with
    icy := r.2.1, up := r.2.2,
    promises := s.promises ++ [⟨r.1, (split s.icy.metaint r.2.2.taken).phase.left⟩] }

def System.read (s : System) (ready : List Bool) : System :=
  let r := s.icy.read { s.up with ready }
  { s with icy := r.2.1, up := r.2.2, returned := s.returned ++ r.1.toList }

def System.peek (s : System) (seen : Bool) : System :=
  match Icy.peek s.up seen with
  | none => s
  | some c =>
    { s with
      peeked := s.peeked ++ [⟨c, (split s.icy.metaint s.up.taken).next s.icy.metaint s.up.rest⟩] }

def System.act (s : System) : Action → System
  | .available ready a => s.available ready a
  | .read ready => s.read ready
  | .peek seen => s.peek seen

/-- After `begin`, on an upstream that will deliver `stream`. -/
def start (metaint : ℕ) (stream : List UInt8) : System :=
  ⟨.begin metaint, ⟨stream, [], []⟩, [], [], []⟩

def machine (metaint : ℕ) (stream : List UInt8) : Machine System Action where
  init s := s = start metaint stream
  step s a := some (s.act a)

end Ch32h4.Icy
