import Ch32h4.Spiftl.Metadata

/-!
# Loading metadata

The reader of the stream that `Ch32h4.Spiftl.Metadata` writes.  `populateMetadataMap` scans the
flash for blocks with the signature and a correct CRC; `loadHighestEpochMetadata` tries the epochs
it found from the highest down, until one passes for metadata of this geometry.

`LoadFault` are the two ways in which a load does not come to an end: it takes the front of an
empty `metadataEBList`, or it goes round for ever.  The loop of `loadHighestEpochMetadata` runs on
fuel, and running out of it is the second of these; a load that rejects a copy has by then
overwritten part of the tables.
-/

namespace Ch32h4.Spiftl

open Flash

inductive LoadFault where
  /-- `metadataEBList.front()` of an empty list. -/
  | frontOfEmpty
  /-- The loop of `loadHighestEpochMetadata` has not ended. -/
  | outOfFuel
  deriving DecidableEq, Repr

namespace Loader

variable (g : Dims) (f : Cells)

/-- The word at offset 8 of a block holds the epoch above its lowest byte. -/
def epochOf (eb : ℕ) : ℕ := readWord f eb 8 / 2 ^ 8

/-- A block with the signature and a correct CRC. -/
def isCopy (eb : ℕ) : Bool := hasSig f eb && crcMatches g f eb

/-- `populateMetadataMap`: the blocks with the signature and a correct CRC, each with its epoch,
in the order of the scan. -/
def populateMetadataMap : List (ℕ × ℕ) :=
  (List.range g.eraseBlocks).filterMap fun i =>
    if isCopy g f i then some (epochOf f i, i) else none

/-! ### The stream -/

/-- The members a stream is read through: `metadataEBList`, whose front is `mdOpenEB`, and
`metadataEBoffset`. -/
structure Reader where
  ebList : List ℕ
  offset : ℕ

/-- `mdOpenEB = _fi->readEB(metadataEBList.front())`. -/
def openFront (rd : Reader) : Except LoadFault Reader :=
  match rd.ebList with
  | [] => .error .frontOfEmpty
  | _ :: _ => .ok rd

/-- `openMetadataStreamForRead`. -/
def openMetadataStreamForRead (ebList : List ℕ) : Except LoadFault Reader :=
  openFront ⟨ebList, 0⟩

/-- `readMetadata8b`. -/
def readMetadata8b (rd : Reader) : Except LoadFault (UInt8 × Reader) := do
  let rd ← if g.ebBytes - 4 ≤ rd.offset then openFront ⟨rd.ebList.tail, 0⟩ else .ok rd
  let offset := if rd.offset < 12 then 12 else rd.offset
  .ok (readByte f (rd.ebList.headD 0) offset, { rd with offset := offset + 1 })

/-- `len` bytes of the stream. -/
def readMetadata : ℕ → Reader → Except LoadFault (List UInt8 × Reader)
  | 0, rd => .ok ([], rd)
  | len + 1, rd => do
    let (b, rd) ← readMetadata8b g f rd
    let (bs, rd) ← readMetadata len rd
    .ok (b :: bs, rd)

/-- The value of `readMetadata16b` and `readMetadata32b`: the bytes, high byte first. -/
def valueBE (bs : List UInt8) : ℕ := bs.foldl (fun t b => t * 2 ^ 8 + b.toNat) 0

/-! ### The tables -/

/-- The loop over `peCount`. -/
def loadPECount : List ℕ → Ram → Reader → Except LoadFault (Ram × Reader)
  | [], r, rd => .ok (r, rd)
  | i :: l, r, rd => do
    let (b, rd) ← readMetadata8b g f rd
    let r := { r with peCount := Function.update r.peCount i b.toNat }
    let r := if r.highestPECount < (b.toNat : ℤ) then { r with highestPECount := b.toNat } else r
    loadPECount l r rd

/-- The loop over `ebState`, with `j` entries of `metaEBList` in use; false is its
`return false`. -/
def loadEBState : List ℕ → ℕ → Ram → Reader → Except LoadFault (Bool × Ram × Reader)
  | [], _, r, rd => .ok (true, r, rd)
  | i :: l, j, r, rd => do
    let (b, rd) ← readMetadata8b g f rd
    let r := r.setEBState i b.toNat
    if r.ebIsMeta i then
      if g.metaEBs ≤ j then .ok (false, r, rd)
      else loadEBState l (j + 1) { r with metaEBList := r.metaEBList.set j (some i) } rd
    else
      loadEBState l j
        (if r.ebState i = 0 then { r with emptyEBs := r.emptyEBs + 1 } else r) rd

/-- The loop over `l2p`. -/
def loadL2P : List ℕ → Ram → Reader → Except LoadFault (Ram × Reader)
  | [], r, rd => .ok (r, rd)
  | i :: l, r, rd => do
    let (bs, rd) ← readMetadata g f 2 rd
    let r := { r with l2p := Function.update r.l2p i (valueBE bs) }
    loadL2P l (if l2pVal (r.l2p i) then { r with validLBAs := r.validLBAs + 1 } else r) rd

/-- The part of `doLoadHighestEpochMetadata` that reads the copy in the blocks `ebList`. -/
def loadCopy (epoch : ℕ) (ebList : List ℕ) (r : Ram) : Except LoadFault (Bool × Ram) := do
  let rd ← openMetadataStreamForRead ebList
  let (onFlash, rd) ← readMetadata g f (ftlInfo g).length rd
  if ftlInfo g ≠ onFlash then .ok (false, r)
  else do
    let (r, rd) ← loadPECount g f (List.range g.eraseBlocks) { r with highestPECount := 0 } rd
    let (ok, r, rd) ← loadEBState g f (List.range g.eraseBlocks) 0
      { r with metaEBList := List.replicate g.metaEBs none, emptyEBs := 0 } rd
    if !ok then .ok (false, r)
    else do
      let (r, rd) ← loadL2P g f (List.range g.flashLBAs) { r with validLBAs := 0 } rd
      let (bs, _) ← readMetadata g f 4 rd
      .ok (true, { r with peCountOffset := valueBE bs, metadataEpoch := epoch })

/-! ### The search -/

/-- The highest epoch of the map, or 0. -/
def highestEpoch (map : List (ℕ × ℕ)) : ℕ :=
  map.foldl (fun epoch x => if epoch < x.1 then x.1 else epoch) 0

/-- The blocks of an epoch in the order of their index: for each index the first that has it. -/
def blocksOf (epoch : ℕ) (map : List (ℕ × ℕ)) : List ℕ :=
  (List.range g.metaEBBytes).filterMap fun i =>
    ((map.filter fun x => x.1 = epoch).map Prod.snd).find? fun x =>
      readWord f x 8 = (epoch * 2 ^ 8 + i) % 2 ^ 32

/-- `doLoadHighestEpochMetadata`: its result, and the map and the tables after it. -/
def doLoadHighestEpochMetadata (map : List (ℕ × ℕ)) (r : Ram) :
    Except LoadFault (Bool × List (ℕ × ℕ) × Ram) := do
  let epoch := highestEpoch map
  if epoch = 0 then .ok (false, map, r)
  else do
    let (ok, r) ← loadCopy g f epoch (blocksOf g f epoch map) r
    .ok (ok, map.filter (fun x => x.1 ≠ epoch), r)

/-- `loadHighestEpochMetadata`. -/
def loadHighestEpochMetadata : ℕ → List (ℕ × ℕ) → Ram → Except LoadFault (Bool × Ram)
  | _, [], r => .ok (false, r)
  | 0, _ :: _, _ => .error .outOfFuel
  | fuel + 1, x :: map, r => do
    let (ok, map, r) ← doLoadHighestEpochMetadata g f (x :: map) r
    if ok then .ok (true, r) else loadHighestEpochMetadata fuel map r

end Loader

end Ch32h4.Spiftl
