import Ch32h4.Spiftl.Loader
import Ch32h4.TransitionSystem

/-!
# A volume and its operations

The public operations of `SPIFTL`: `format`, `start`, `persist`, `write`, `read`, `trim` and
`check`.  `Op` are the operations that change the volume, and `machine` performs them one after
another on an object made by the constructor, in any order and number.  An operation whose step is
`none` does not come back: an assertion fires in it, it uses an index of `-1`, or `start` does not
get through its load.

Beside the volume a state of the machine carries its specification: the sectors a reader should
see.  A write that returns true replaces one of them, a trim makes one read as zeros, and nothing
else touches them.
-/

namespace Ch32h4.Spiftl

open Flash

/-- The contents of a sector. -/
abbrev Sector := { data : List UInt8 // data.length = lbaBytes }

/-- `bzero(dest, lbaBytes)`. -/
def zeros : Sector := ⟨List.replicate lbaBytes 0, List.length_replicate⟩

namespace Ftl

variable (g : Dims)

/-- `bzero` of the tables and the loop that makes the first `metaEBs` blocks metadata. -/
def formatTables (r : Ram) : Ram :=
  (List.range g.metaEBs).foldl (fun r i =>
    { ({ r with emptyEBs := r.emptyEBs - 1 }.setEBMeta i) with
      metaEBList := r.metaEBList.set i (some i) })
    { r with
      l2p := fun _ => 0
      peCount := fun _ => 0
      ebState := fun _ => 0
      peCountOffset := 0
      highestPECount := 0
      emptyEBs := g.eraseBlocks }

/-- `format`.  It leaves `openEB`, `openEBNextIndex` and `validLBAs` as they are. -/
def format (s : Ftl) : Ftl :=
  (List.range g.eraseBlocks).foldl (fun s i => if hasSig s.flash i then s.eraseBlock g i else s)
    { s with ram := { formatTables g s.ram with metadataAge := 0 } }

/-- `start`, which returns true however it ends. -/
def start (s : Ftl) : Except LoadFault Ftl := do
  let (ok, r) ← Loader.loadHighestEpochMetadata g s.flash (g.eraseBlocks + 1)
    (Loader.populateMetadataMap g s.flash) s.ram
  if ok then .ok { s with ram := { r with metadataAge := 0 } }
  else .ok ({ s with ram := r }.format g)

/-- `ageMetadata`. -/
def ageMetadata (s : Ftl) : Option Ftl :=
  let age := (s.ram.metadataAge + 1) % 256
  let s := { s with ram := { s.ram with metadataAge := age } }
  if age = 0 then do
    let s ← s.persist g
    s.metaAgeRewrite g
  else some s

/-- The part of `write` that gives up the old slot of the sector. -/
def dropSlot (r : Ram) (eb lba : ℕ) : Ram :=
  match r.findLBA g lba with
  | some (oldEB, _) =>
    let r := r.clearLBAValid oldEB
    if r.ebState oldEB = 0 ∧ oldEB ≠ eb then { r with emptyEBs := r.emptyEBs + 1 } else r
  | none => r

/-- The part of `write` that takes the next slot of the open block, and closes a full block. -/
def takeSlot (r : Ram) (eb lba : ℕ) : Ram :=
  let r := (r.setLBAValid eb).setLBA g lba eb r.openEBNextIndex
  let r := { r with openEBNextIndex := r.openEBNextIndex + 1 }
  if g.slotsPerEB ≤ r.openEBNextIndex then { r with openEB := none, openEBNextIndex := 0 } else r

/-- The tables after `write` has programmed the sector. -/
def repoint (r : Ram) (eb lba : ℕ) : Ram := takeSlot g (dropSlot g r eb lba) eb lba

/-- The part of `write` that follows the choice of the block. -/
def writeOpen (s : Ftl) (eb lba : ℕ) (data : Sector) : Ftl :=
  let r := s.ram
  let r := if l2pVal (r.l2p lba) then r else { r with validLBAs := r.validLBAs + 1 }
  let s := { s with ram := r }.program g eb (r.openEBNextIndex * lbaBytes) data.1
  { s with ram := repoint g s.ram eb lba }

/-- `write`; a negative `lba` is refused like one past the end. -/
def write (s : Ftl) (lba : ℕ) (data : Sector) : Option (Bool × Ftl) :=
  if g.flashLBAs ≤ lba then some (false, s)
  else do
    let (eb, s) ←
      match s.ram.openEB with
      | some eb => some (some eb, s)
      | none => s.selectBestEB g
    let s := { s with ram := { s.ram with openEB := eb } }
    match eb with
    | none => some (false, s)
    | some eb => do
      let s ← (s.writeOpen g eb lba data).ageMetadata g
      some (true, s)

/-- `read` into a buffer that holds `dest`: its result and the buffer. -/
def read (s : Ftl) (lba : ℕ) (dest : List UInt8) : Bool × List UInt8 :=
  if g.flashLBAs ≤ lba then (false, dest)
  else
    match s.ram.findLBA g lba with
    | some (oldEB, oldIndex) => (true, s.readFlash g oldEB (oldIndex * lbaBytes) lbaBytes dest)
    | none => (true, List.replicate lbaBytes 0)

/-- The tables after `trim` has given up the slot of `lba`. -/
def dropLBA (r : Ram) (lba : ℕ) : Ram :=
  let eb := g.l2pEb (r.l2p lba)
  let r : Ram := { r.clearLBAValid eb with validLBAs := r.validLBAs - 1 }
  let r :=
    if r.ebState eb = 0 ∧ some eb ≠ r.openEB then { r with emptyEBs := r.emptyEBs + 1 } else r
  { r with l2p := Function.update r.l2p lba 0 }

/-- `trim`. -/
def trim (s : Ftl) (lba : ℕ) : Option (Bool × Ftl) :=
  if g.flashLBAs ≤ lba then some (false, s)
  else if l2pVal (s.ram.l2p lba) then do
    let s ← { s with ram := dropLBA g s.ram lba }.ageMetadata g
    some (true, s)
  else some (true, s)

end Ftl

/-! ### The check -/

/-- The first loop of `check` and the comparisons after it. -/
def Ram.checkBlocks (r : Ram) (g : Dims) : Bool :=
  let max := (List.range g.eraseBlocks).foldl
    (fun m i => if m < r.peCount i then r.peCount i else m)
    0
  let min := (List.range g.eraseBlocks).foldl
    (fun m i => if r.peCount i < m then r.peCount i else m)
    65536
  let c := (List.range g.eraseBlocks).countP fun i => r.ebState i = 0
  let metas := (List.range g.eraseBlocks).countP fun i => r.ebIsMeta i
  metas ≤ g.metaEBs && (c : ℤ) = r.emptyEBs && (max : ℤ) = r.highestPECount &&
    (max : ℤ) - min ≤ maxPEDiff + 1

/-- The second loop of `check`: no entry names a metadata block, and no two the same slot; `val`
has a bit for each slot seen so far. -/
def Ram.checkLinks (r : Ram) (g : Dims) : List ℕ → (ℕ → ℕ) → Bool
  | [], _ => true
  | i :: l, val =>
    if l2pVal (r.l2p i) then
      let eb := g.l2pEb (r.l2p i)
      let idx := g.l2pIdx (r.l2p i)
      !r.ebIsMeta eb && !(val eb).testBit idx &&
        r.checkLinks g l (Function.update val eb (val eb ||| 1 <<< idx))
    else r.checkLinks g l val

/-- `check`. -/
def Ram.check (r : Ram) (g : Dims) : Bool :=
  r.checkBlocks g && r.checkLinks g (List.range g.flashLBAs) fun _ => 0

/-! ### Runs -/

/-- The operations that change a volume. -/
inductive Op where
  | format
  | start
  | write (lba : ℕ) (data : Sector)
  | trim (lba : ℕ)
  | persist

/-- A volume, and what a reader should see on it. -/
structure Volume where
  ftl : Ftl
  /-- `format` or `start` has been called. -/
  mounted : Bool
  disk : ℕ → Sector

namespace Volume

variable (g : Dims)

/-- The sectors as `read` returns them. -/
def contents (s : Ftl) (lba : ℕ) : Sector :=
  match s.ram.findLBA g lba with
  | some (eb, idx) => ⟨readBytes s.flash eb (idx * lbaBytes) lbaBytes, readBytes_length _ _ _ _⟩
  | none => zeros

/-- One operation.  `write`, `trim` and `persist` are for a mounted volume; what a volume holds
when it is mounted is what its reader should see until it is changed. -/
def step (v : Volume) : Op → Option Volume
  | .format => some { ftl := v.ftl.format g, mounted := true, disk := fun _ => zeros }
  | .start =>
    match v.ftl.start g with
    | .ok s => some { ftl := s, mounted := true, disk := contents g s }
    | .error _ => none
  | .write lba data =>
    if v.mounted then do
      let (ok, s) ← v.ftl.write g lba data
      some { v with ftl := s, disk := if ok then Function.update v.disk lba data else v.disk }
    else none
  | .trim lba =>
    if v.mounted then do
      let (ok, s) ← v.ftl.trim g lba
      some { v with ftl := s, disk := if ok then Function.update v.disk lba zeros else v.disk }
    else none
  | .persist => if v.mounted then (v.ftl.persist g).map fun s => { v with ftl := s } else none

/-- An object as the constructor leaves it: no block is open, the epoch is 2, `metaEBList` has its
length, and the driver has not been called; the tables hold whatever the memory held.  The static
`eb` of the collector is the number of a block. -/
structure Fresh (s : Ftl) : Prop where
  openEB : s.ram.openEB = none
  openEBNextIndex : s.ram.openEBNextIndex = 0
  metadataEpoch : s.ram.metadataEpoch = 2
  metaEBList : s.ram.metaEBList.length = g.metaEBs
  gcEB : s.ram.gcEB < g.eraseBlocks
  log : s.log = []

/-- An object made by the constructor in memory that held zeros. -/
def constructed (f : Cells) (outcome : ℕ → Outcome) : Ftl where
  ram :=
    { peCount := fun _ => 0
      ebState := fun _ => 0
      metaEBList := List.replicate g.metaEBs none
      l2p := fun _ => 0
      peCountOffset := 0
      highestPECount := 0
      emptyEBs := 0
      validLBAs := 0
      metadataAge := 0
      openEB := none
      openEBNextIndex := 0
      metadataEpoch := 2
      gcEB := 0 }
  flash := f
  outcome := outcome
  log := []

/-- A volume through its life, from the constructor on. -/
def machine : Machine Volume Op where
  init v := Fresh g v.ftl ∧ v.mounted = false
  step := step g

end Volume

end Ch32h4.Spiftl
