import Ch32h4.Spiftl.Collector

/-!
# Metadata on flash

The tables go to flash as a stream of bytes cut into erase blocks.  A metadata block is an 8-byte
signature, a word holding the epoch (upper 24 bits) and the number of the block within its epoch
(lower 8), `ebBytes - 16` bytes of the stream, and the CRC of all that.

The writer (`openMetadataStreamForWrite`, `writeMetadata8b`, `closeMetadataStream`, `doPersist`)
works through one write buffer; a block is erased when its first page is programmed, and its last
page, with the CRC, is programmed when the byte after it arrives.  A result of `none` is an index
of `-1`, or the front of an empty `metadataEBList`.
-/

namespace Ch32h4.Spiftl

open Flash

/-! ### The checksum -/

/-- One bit of `MetadataCRC32::add`. -/
def crcBit (crc : UInt32) : UInt32 :=
  if crc &&& 1 = 1 then (crc >>> 1) ^^^ 0xedb88320 else crc >>> 1

def crcByte (crc : UInt32) (x : UInt8) : UInt32 := crcBit^[8] (crc ^^^ x.toUInt32)

/-- `MetadataCRC32::add`. -/
def crcAdd (crc : UInt32) (data : List UInt8) : UInt32 := data.foldl crcByte crc

/-- `MetadataCRC32::reset`. -/
def crcReset : UInt32 := 0xffffffff

/-- `MetadataCRC32::get`, as the four bytes it is stored as. -/
def crcGet (crc : UInt32) : List UInt8 := bytesLE (~~~crc).toNat

/-- `metadataSig`, `SPIFTL01`. -/
def metadataSig : List UInt8 := [0x53, 0x50, 0x49, 0x46, 0x54, 0x4c, 0x30, 0x31]

/-- `!memcmp(eb, metadataSig, 8)`. -/
def hasSig (f : Cells) (eb : ℕ) : Bool := readBytes f eb 0 8 = metadataSig

/-- The stored CRC of a block is that of the bytes before it. -/
def crcMatches (g : Dims) (f : Cells) (eb : ℕ) : Bool :=
  crcGet (crcAdd crcReset (readBytes f eb 0 (g.ebBytes - 4))) = readBytes f eb (g.ebBytes - 4) 4

/-- The `FTLInfo` record in memory: three 16-bit fields around a 32-bit one, no padding. -/
def ftlInfo (g : Dims) : List UInt8 :=
  (bytesLE g.ebBytes).take 2 ++ (bytesLE lbaBytes).take 2 ++ bytesLE g.flashBytes ++
    (bytesLE g.metaEBBytes).take 2 ++ (bytesLE g.flashLBAs).take 2

namespace Ftl

variable (g : Dims)

/-! ### Writing -/

/-- `setEBState(i, 0)` and `emptyEBs++`. -/
def giveUp (r : Ram) (eb : ℕ) : Ram := { r.setEBState eb 0 with emptyEBs := r.emptyEBs + 1 }

/-- `setEBMeta(eb)` and `emptyEBs--`. -/
def take (r : Ram) (eb : ℕ) : Ram := { r.setEBMeta eb with emptyEBs := r.emptyEBs - 1 }

/-- The first loop of `openMetadataStreamForWrite`: give up the metadata blocks that do not hold
the current epoch. -/
def freeStale : List (Option ℕ) → Ftl → List (Option ℕ) × Ftl
  | [], s => ([], s)
  | none :: l, s =>
    let (l, s) := freeStale l s
    (none :: l, s)
  | some i :: l, s =>
    let err := !crcMatches g s.flash i
    let mde := readWord s.flash i 8 / 2 ^ 8
    if err || mde < s.ram.metadataEpoch then
      let s := if err then s else s.eraseBlock g i
      let (l, s) := freeStale l { s with ram := giveUp s.ram i }
      (none :: l, s)
    else
      let (l, s) := freeStale l s
      (some i :: l, s)

/-- The second loop of `openMetadataStreamForWrite`: take an empty block for every free entry; the
middle component is `metadataEBList`. -/
def allocate : List (Option ℕ) → Ram → Option (List (Option ℕ) × List ℕ × Ram)
  | [], r => some ([], [], r)
  | some i :: l, r => do
    let (l, q, r) ← allocate l r
    some (some i :: l, q, r)
  | none :: l, r => do
    let eb ← r.lowestEmptyEB g
    let (l, q, r) ← allocate l (take r eb)
    some (some eb :: l, eb :: q, r)

/-- The members a stream is written through: `metadataEBList`, `metadataEBoffset`,
`metadataEBindex`, `metadataCRC` and the write buffer `wb`. -/
structure Stream where
  ebList : List ℕ
  offset : ℕ
  index : ℕ
  crc : UInt32
  wb : ℕ → UInt8

/-- `openMetadataStreamForWrite`. -/
def openMetadataStreamForWrite (s : Ftl) : Option (Stream × Ftl) := do
  let (l, s) := freeStale g s.ram.metaEBList s
  let (l, q, r) ← allocate g l s.ram
  some (⟨q, 0, 0, crcReset, fun _ => 0⟩,
    { s with ram := { r with
        metaEBList := l
        metadataEpoch := (r.metadataEpoch + 1) % 2 ^ 32 } })

/-- The bytes of the write buffer from `off` on replaced by `data`: `memcpy(wb + off, ..)`. -/
def putBytes (wb : ℕ → UInt8) (off : ℕ) (data : List UInt8) : ℕ → UInt8 :=
  fun i => if off ≤ i ∧ i < off + data.length then data.getD (i - off) 0 else wb i

/-- The write buffer as it is handed to the driver. -/
def bufferBytes (wb : ℕ → UInt8) : List UInt8 := (List.range flashWriteBufferSize).map wb

/-- The part of `writeMetadata8b` that finishes a full block: add the CRC and program the last
page. -/
def closeBlock (st : Stream) (s : Ftl) : Option (Stream × Ftl) :=
  if st.offset = g.ebBytes - 4 then do
    let front ← st.ebList.head?
    let wb := putBytes st.wb (flashWriteBufferSize - 4) (crcGet st.crc)
    some ({ st with
        ebList := st.ebList.tail
        offset := 0
        index := (st.index + 1) % 256
        crc := crcReset
        wb := wb },
      s.program g front (g.ebBytes - flashWriteBufferSize) (bufferBytes wb))
  else some (st, s)

/-- The word at offset 8 of a metadata block: `(metadataEpoch << 8) | metadataEBindex`. -/
def epochWord (epoch index : ℕ) : ℕ := (epoch * 2 ^ 8) % 2 ^ 32 ||| index

/-- The part of `writeMetadata8b` that starts a block: put the header into an empty buffer. -/
def openBlock (st : Stream) (s : Ftl) : Stream :=
  if st.offset = 0 then
    let ne := bytesLE (epochWord s.ram.metadataEpoch st.index)
    { st with
      offset := 12
      crc := crcAdd (crcAdd st.crc metadataSig) ne
      wb := putBytes (putBytes (fun _ => 0) 0 metadataSig) 8 ne }
  else st

/-- The part of `writeMetadata8b` that stores the byte and programs a full page; the first page
of a block is preceded by its erase. -/
def putByte (b : UInt8) (st : Stream) (s : Ftl) : Option (Stream × Ftl) := do
  let wb := putBytes st.wb (st.offset % flashWriteBufferSize) [b]
  let st := { st with wb := wb, crc := crcByte st.crc b, offset := st.offset + 1 }
  if st.offset % flashWriteBufferSize = 0 then
    let front ← st.ebList.head?
    let s :=
      if st.offset = flashWriteBufferSize then
        let s := s.eraseEB g front
        { s with ram := s.ram.setEBMeta front }
      else s
    some ({ st with wb := fun _ => 0 },
      s.program g front (st.offset - flashWriteBufferSize) (bufferBytes wb))
  else some (st, s)

/-- `writeMetadata8b`. -/
def writeMetadata8b (b : UInt8) (p : Stream × Ftl) : Option (Stream × Ftl) := do
  let (st, s) ← closeBlock g p.1 p.2
  putByte g b (openBlock st s) s

/-- Write the bytes that a table holds for the indices of a list, each read when its turn
comes. -/
def writeTable (bytes : Ram → ℕ → List UInt8) : List ℕ → Stream × Ftl → Option (Stream × Ftl)
  | [], p => some p
  | i :: l, p => do
    let p ← (bytes p.2.ram i).foldlM (fun p b => writeMetadata8b g b p) p
    writeTable bytes l p

/-- The bytes of `writeMetadata16b`. -/
def bytesBE16 (t : ℕ) : List UInt8 := [UInt8.ofNat (t / 2 ^ 8), UInt8.ofNat t]

/-- The bytes of `writeMetadata32b`. -/
def bytesBE32 (t : ℕ) : List UInt8 :=
  [UInt8.ofNat (t / 2 ^ 24), UInt8.ofNat (t / 2 ^ 16), UInt8.ofNat (t / 2 ^ 8), UInt8.ofNat t]

/-- `closeMetadataStream`: pad with zeros until the next block has its first byte.  A block holds
fewer bytes than the fuel. -/
def closeMetadataStream : ℕ → Stream × Ftl → Option (Stream × Ftl)
  | 0, p => some p
  | n + 1, p =>
    if 13 < p.1.offset then do
      let p ← writeMetadata8b g 0 p
      closeMetadataStream n p
    else some p

/-- `doPersist`; its result is always true. -/
def doPersist (s : Ftl) : Option Ftl := do
  let p ← openMetadataStreamForWrite g s
  let p ← (ftlInfo g).foldlM (fun p b => writeMetadata8b g b p) p
  let p ← writeTable g (fun r i => [UInt8.ofNat (r.peCount i)]) (List.range g.eraseBlocks) p
  let p ← writeTable g (fun r i => [UInt8.ofNat (r.ebState i)]) (List.range g.eraseBlocks) p
  let p ← writeTable g (fun r i => bytesBE16 (r.l2p i)) (List.range g.flashLBAs) p
  let p ← writeTable g (fun r _ => bytesBE32 r.peCountOffset) [0] p
  let p ← closeMetadataStream g g.ebBytes p
  some { p.2 with ram := { p.2.ram with metadataAge := 0 } }

/-- `persist`; `serialize` does nothing on hardware. -/
def persist (s : Ftl) : Option Ftl := s.doPersist g

end Ftl

end Ch32h4.Spiftl
