import Ch32h4.Spiftl.Tables

/-!
# Erasing, collecting and choosing blocks

`eraseEB`, `collectValidLBAs`, `garbageCollect`, `metaAgeRewrite` and `selectBestEB`.  A result of
`none` is an assertion that fires, or an index of `-1` used where a block number is needed; a
failure the source reports by returning `-1` is a result like any other.

Every loop of the source is bounded, and its bound is the fuel of the recursion that models it.
-/

namespace Ch32h4.Spiftl

open Flash

namespace Ftl

variable (g : Dims)

/-- The periodic subtraction of `maxPEDiff` from all erase counts. -/
def resetWear (r : Ram) : Ram :=
  { r with
    peCount := fun i => if maxPEDiff < r.peCount i then r.peCount i - maxPEDiff else 0
    highestPECount := r.highestPECount - maxPEDiff
    peCountOffset := (r.peCountOffset + maxPEDiff) % 2 ^ 32 }

/-- `peCount[eb]++`, and the maximum kept beside the table. -/
def bumpWear (r : Ram) (eb : ℕ) : Ram :=
  let pe := (r.peCount eb + 1) % 256
  { r with
    peCount := Function.update r.peCount eb pe
    highestPECount := if r.highestPECount < pe then pe else r.highestPECount }

/-- The erase counts after `eraseEB`. -/
def wearEB (r : Ram) (eb : ℕ) : Ram :=
  bumpWear (if 250 < r.peCount eb then resetWear r else r) eb

def eraseEB (s : Ftl) (eb : ℕ) : Ftl :=
  let s := s.eraseBlock g eb
  { s with ram := (wearEB s.ram eb).setEBState eb 0 }

/-- Copy `len` bytes, one write buffer at a time, from one place of the array to another. -/
def copyPages (s : Ftl) (src srcOff dest destOff : ℕ) : ℕ → Ftl
  | 0 => s
  | n + 1 =>
    let s := copyPages s src srcOff dest destOff n
    s.program g dest (destOff + n * flashWriteBufferSize)
      (readBytes s.flash src (srcOff + n * flashWriteBufferSize) flashWriteBufferSize)

/-- The tables after the sector `lba` has been copied from `srcEB` to slot `idx` of `destEB`. -/
def moveLBA (r : Ram) (srcEB destEB lba idx : ℕ) : Ram :=
  let r := r.clearLBAValid srcEB
  let r := if r.ebState srcEB = 0 then { r with emptyEBs := r.emptyEBs + 1 } else r
  let r := r.setLBA g lba destEB idx
  r.setEBState destEB (r.ebState destEB + 1)

/-- One round of `collectValidLBAs`, for the entry `lba`. -/
def collectLBA (srcEB destEB : ℕ) (st : ℕ × Ftl) (lba : ℕ) : ℕ × Ftl :=
  let (curIdx, s) := st
  if curIdx < 8 ∧ g.l2pEb (s.ram.l2p lba) = srcEB ∧ l2pVal (s.ram.l2p lba) then
    (curIdx + 1,
      { s.copyPages g srcEB (lbaBytes * g.l2pIdx (s.ram.l2p lba)) destEB (lbaBytes * curIdx)
          (lbaBytes / flashWriteBufferSize) with
        ram := moveLBA g s.ram srcEB destEB lba curIdx })
  else st

/-- `collectValidLBAs`: move live sectors of `srcEB` into `destEB` from slot `destIdx` on, and
return the slot after the last one.  The bound on that slot is the literal 8. -/
def collectValidLBAs (s : Ftl) (srcEB destEB destIdx : ℕ) : ℕ × Ftl :=
  (List.range g.flashLBAs).foldl (collectLBA g srcEB destEB) (destIdx, s)

/-- The scan for the first block that is neither metadata nor the destination: whether it was
found within `eraseBlocks` steps, and where the search stopped. -/
def scanSource (r : Ram) (destEB : ℕ) : ℕ → ℕ → Bool × ℕ
  | left, eb =>
    if r.ebIsMeta eb || eb == destEB then
      match left with
      | 0 => (false, (eb + 1) % g.eraseBlocks)
      | left + 1 => scanSource r destEB left ((eb + 1) % g.eraseBlocks)
    else (true, eb)

/-- The search for a better scoring source, which goes on relative to the best one so far and
stops as soon as that is good enough. -/
def pickSource (r : Ram) (destEB eb : ℕ) : ℕ × ℤ :=
  (List.range' 1 (g.eraseBlocks - 1)).foldl (fun best i =>
    let ebMod := (best.1 + i) % g.eraseBlocks
    if best.2 < g.slotsPerEB ∧ best.2 < r.gcScore g ebMod ∧ ebMod ≠ destEB
    then (ebMod, r.gcScore g ebMod) else best)
    (eb, r.gcScore g eb)

/-- The rounds of `garbageCollect`: while the destination has room, choose a source and move what
fits. -/
def collectRounds (destEB : ℕ) : ℕ → ℤ → Ftl → Option (ℤ × Ftl)
  | 0, ebScore, s => some (ebScore, s)
  | n + 1, ebScore, s =>
    if s.ram.ebState destEB < g.slotsPerEB then
      let (found, eb) := scanSource g s.ram destEB g.eraseBlocks s.ram.gcEB
      if found then
        let (eb, ebScore) := pickSource g s.ram destEB eb
        if 0 < ebScore ∧ eb ≠ destEB then
          let s := { s with ram := { s.ram with gcEB := eb } }
          let (idx, s) := s.collectValidLBAs g eb destEB (s.ram.ebState destEB)
          collectRounds destEB n ebScore { s with ram := s.ram.setEBState destEB idx }
        else none
      else some (-1, { s with ram := { s.ram with gcEB := eb } })
    else some (ebScore, s)

/-- `garbageCollect`: the score of the last source, or `-1`. -/
def garbageCollect (s : Ftl) : Option (ℤ × Ftl) := do
  let destEB ← s.ram.lowestEmptyEB g
  let s := s.eraseEB g destEB
  collectRounds g destEB g.slotsPerEB 0
    { s with ram := { s.ram with emptyEBs := s.ram.emptyEBs - 1 } }

/-- The loop of `metaAgeRewrite` over the entries of `metaEBList`. -/
def rewriteAged : List (Option ℕ) → Ftl → Option (List (Option ℕ) × Ftl)
  | [], s => some ([], s)
  | none :: l, s => do
    let (l, s) ← rewriteAged l s
    some (none :: l, s)
  | some eb :: l, s =>
    if (maxPEDiff : ℤ) ≤ s.ram.highestPECount - s.ram.peCount eb then do
      let destEB ← s.ram.lowestEmptyEB g
      if destEB = eb then none
      else
        let s := s.eraseEB g destEB
        let s := s.copyPages g eb 0 destEB 0 (g.ebBytes / flashWriteBufferSize)
        let (l, s) ← rewriteAged l { s with ram := (s.ram.setEBState eb 0).setEBMeta destEB }
        some (some destEB :: l, s)
    else do
      let (l, s) ← rewriteAged l s
      some (some eb :: l, s)

/-- `metaAgeRewrite`. -/
def metaAgeRewrite (s : Ftl) : Option Ftl := do
  let (l, s) ← rewriteAged g s.ram.metaEBList s
  some { s with ram := { s.ram with metaEBList := l } }

/-- The loop of `selectBestEB`, with `left` passes to go: whether it ended with enough empty
blocks. -/
def makeRoom : ℕ → ℤ → Ftl → Option (Bool × Ftl)
  | left, ebScore, s =>
    if s.ram.emptyEBs < 3 ∨ 10 < ebScore then do
      let (ebScore, s) ← s.garbageCollect g
      if ebScore < 0 then some (false, s)
      else
        let s ← s.metaAgeRewrite g
        match left with
        | 0 => some (false, s)
        | left + 1 => makeRoom left ebScore s
    else some (true, s)

/-- `selectBestEB`: the block to write next, erased; `none` inside is the `-1` of the source. -/
def selectBestEB (s : Ftl) : Option (Option ℕ × Ftl) := do
  let (room, s) ← makeRoom g g.eraseBlocks 0 s
  if room then
    let s := { s with ram := { s.ram with emptyEBs := s.ram.emptyEBs - 1 } }
    let eb ← s.ram.lowestEmptyEB g
    some (some eb, s.eraseEB g eb)
  else some (none, s)

end Ftl

end Ch32h4.Spiftl
