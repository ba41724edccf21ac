import Ch32h4.I2s.Port
import Ch32h4.TransitionSystem
import Mathlib.Data.BitVec

/-!
# Two ports and the wire between them

Translation of `write(int32_t, int32_t)` and `read(int32_t*, int32_t*)`, on the bit patterns of the
samples, and `System`, which is a sending port, a receiving port and the wire.  A half crosses the
wire half-word by half-word, in the order of the addresses at both ends, after `_dmaHalfComplete`
has filled it and before it is called for it at the other end.
-/

namespace Ch32h4.I2s

/-- A sample's bit pattern. -/
abbrev Sample := BitVec 32

/-- The bytes of a sample in memory: the least significant one first. -/
def bytesOf (w : Sample) : List UInt8 :=
  [⟨w.extractLsb' 0 8⟩, ⟨w.extractLsb' 8 8⟩, ⟨w.extractLsb' 16 8⟩, ⟨w.extractLsb' 24 8⟩]

/-- The half-word that two bytes of memory are. -/
def halfWordOf (low high : UInt8) : BitVec 16 :=
  high.toBitVec ++ low.toBitVec

/-- `((uint32_t)raw[0] << 16) | raw[1]`. -/
def combine (raw₀ raw₁ : BitVec 16) : Sample :=
  (raw₀.setWidth 32 <<< 16) ||| raw₁.setWidth 32

namespace I2S

/-- `frameBytes`. -/
def frameBytes (p : I2S) : ℕ :=
  2 * (p.bits / 8)

/-- `write(left, right)` where there is room, and nothing to wait for. -/
def write32 (p : I2S) (left right : Sample) : ℕ × I2S :=
  let right := if !p.stereo then left else right
  let pass := p.writePass (bytesOf left ++ bytesOf right)
  (pass.1 / 4, pass.2)

/-- What `read` makes of the eight bytes it has taken. -/
def decode (raw : List UInt8) : Sample × Sample :=
  let half (i : ℕ) : BitVec 16 := halfWordOf (raw.getD (2 * i) 0) (raw.getD (2 * i + 1) 0)
  (combine (half 0) (half 1), combine (half 2) (half 3))

/-- `read(&left, &right)`. -/
def read32 (p : I2S) : Option (Sample × Sample) × I2S :=
  let taken := p.take 8
  (taken.1.map decode, taken.2)

end I2S

/-- So many half-words go over the wire, from the same address on at both ends. -/
def sendHalfWords (mem : Memory) : ℕ → ℕ → Memory → Memory
  | _, 0, mem' => mem'
  | off, n + 1, mem' => sendHalfWords mem (off + 2) n (store mem' off (load mem off 2))

namespace Link

/-- Both ports, and the frames that were written and read. -/
structure System where
  sender : I2S
  senderMem : Memory
  receiver : I2S
  receiverMem : Memory
  written : List (Sample × Sample)
  read : List (Sample × Sample)

inductive Action
  | write (left right : Sample)
  /-- A half crosses the wire. -/
  | cross (second_half : Bool)
  | read

namespace System

/-- A half is filled, sent, received and delivered. -/
def cross (s : System) (second_half : Bool) : System :=
  let filled := s.sender.dmaHalfComplete s.senderMem second_half
  let received :=
    sendHalfWords filled.2 (I2S.halfOffset second_half) (dmaHalfBytes / 2) s.receiverMem
  let delivered := s.receiver.dmaHalfComplete received second_half
  { s with
    sender := filled.1
    senderMem := filled.2
    receiver := delivered.1
    receiverMem := delivered.2 }

/-- A frame is written where there is room for it, and a half crosses the wire where it is there to
be sent and there is room for it; silence and dropped halves are not of the link. -/
def step (s : System) : Action → Option System
  | .write left right =>
    if s.sender.availableForWrite ≥ s.sender.frameBytes then
      some { s with
        sender := (s.sender.write32 left right).2
        written := s.written ++ [(left, right)] }
    else none
  | .cross second_half =>
    if s.sender.ringUsed ≥ dmaHalfBytes ∧ s.receiver.ringFree ≥ dmaHalfBytes then
      some (s.cross second_half)
    else none
  | .read =>
    let r := s.receiver.read32
    some { s with receiver := r.2, read := s.read ++ r.1.toList }

/-- Both ports have begun, with samples of 32 bits. -/
def Fresh (s : System) : Prop :=
  (∃ ring bytes, s.sender = I2S.start false 32 true ring bytes) ∧
    (∃ stereo ring bytes, s.receiver = I2S.start true 32 stereo ring bytes) ∧
    s.written = [] ∧ s.read = []

end System

/-- Every order of writes, crossings and reads. -/
def machine : Machine System Action where
  init := System.Fresh
  step := System.step

end Link

end Ch32h4.I2s
