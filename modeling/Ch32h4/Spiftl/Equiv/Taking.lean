import Ch32h4.Spiftl.Equiv.Reading
import Ch32h4.Spiftl.Equiv.Ending

/-!
# A persist that takes the block being filled

`write` opens a block, `trim` gives up its only sector, and the count of the block is zero again
while it is still open.  `lowestEmptyEB` takes it for an empty block; if it is the least worn of
these, the next persist makes it a metadata block (`not_faithful_of_reachable`).
-/

namespace Ch32h4.Spiftl

open Flash Machine

namespace Ftl

variable {g : Geometry} {drift : ℤ} {s s' : Ftl} {p : Stream × Ftl} {eb : ℕ}

end Ftl

/-! ### A volume with wear -/

namespace Loader

/-- A stream with no sectors, in block 0, of a volume whose blocks 1 to 4 are worn. -/
def wornStream : List UInt8 :=
  ftlInfo Geometry.sixBlocks.toDims ++ [0, 7, 7, 7, 7, 0] ++ [255, 0, 0, 0, 0, 0] ++
    List.replicate 4056 0

/-- A flash with this stream as epoch 5. -/
def wornFlash : Cells := storing fun eb => if eb = 0 then blockImage 5 0 wornStream else []

theorem hasImage_wornFlash :
    HasImage Geometry.sixBlocks.toDims wornFlash 0 5 0 wornStream := by
  have hlen : wornStream.length = 4080 := by
    simp only [wornStream, List.length_append, List.length_replicate]
    rfl
  refine ⟨by rw [hlen]; rfl, ?_⟩
  have hread := readBytes_storing (fun eb => if eb = 0 then blockImage 5 0 wornStream else []) 0
  rwa [if_pos rfl, blockImage_length, hlen] at hread

end Loader

namespace Ftl

/-- That volume once it has been started. -/
structure OnWorn (s : Ftl) : Prop where
  openEB : s.ram.openEB = none
  next : s.ram.openEBNextIndex = 0
  epoch : s.ram.metadataEpoch = 5
  age : s.ram.metadataAge = 0
  metas : s.ram.metaEBList = [some 0, none]
  empties : s.ram.emptyEBs = 5
  state : ∀ eb < 6, s.ram.ebState eb = if eb = 0 then ebMeta else 0
  count : ∀ eb < 6, s.ram.peCount eb = if eb = 0 ∨ eb = 5 then 0 else 7
  unmapped : s.ram.l2p 0 = 0
  flash : s.flash = Loader.wornFlash
  working : s.Working

/-- Block 5 of that volume is being filled, and holds `n` live sectors. -/
structure FillsFive (n : ℕ) (s : Ftl) : Prop where
  openEB : s.ram.openEB = some 5
  epoch : s.ram.metadataEpoch = 5
  age : s.ram.metadataAge + n < 10
  metas : s.ram.metaEBList = [some 0, none]
  state : ∀ eb < 6, s.ram.ebState eb = if eb = 0 then ebMeta else if eb = 5 then n else 0
  count : ∀ eb < 6, s.ram.peCount eb = if eb = 0 then 0 else if eb = 5 then 1 else 7
  flash : ∀ o, s.flash 0 o = Loader.wornFlash 0 o
  working : s.Working

/-- The least worn of the empty blocks is the last. -/
theorem lowestEmptyEB_eq_five {r : Ram}
    (hstate : ∀ eb < 6, r.ebState eb = if eb = 0 then ebMeta else 0)
    (hcount : ∀ eb < 6, r.peCount eb = if eb = 0 then 0 else if eb = 5 then r.peCount 5 else 7)
    (hlow : r.peCount 5 ≤ 7) : r.lowestEmptyEB Geometry.sixBlocks.toDims = some 5 := by
  have hfold : (List.range 6).foldl (fun lowest i =>
      if r.peCount i ≤ lowest.1 ∧ r.ebState i = 0 then (r.peCount i, some i) else lowest)
      ((1 <<< 16 : ℕ), (none : Option ℕ)) = (r.peCount 5, some 5) := by
    simp [List.range_succ, hstate, hcount 0, hcount 1, hcount 2, hcount 3, hcount 4, hlow, ebMeta]
  exact congrArg Prod.snd hfold

/-- The first write opens block 5. -/
theorem OnWorn.write (h : OnWorn s) :
    ∃ s', s.write Geometry.sixBlocks.toDims 0 zeros = some (true, s') ∧ FillsFive 1 s' ∧
      s'.ram.l2p 0 = Geometry.sixBlocks.makeL2P 0 5 := by
  obtain ⟨hopen, hnext, hepoch, hage, hmetas, hempties, hstate, hcount, hunmapped, hflash, hw⟩ := h
  have hlow : s.ram.lowestEmptyEB Geometry.sixBlocks.toDims = some 5 := by
    refine lowestEmptyEB_eq_five hstate (fun eb heb => ?_) ?_
    · rw [hcount eb heb, hcount 5 (by decide)]
      split_ifs <;> simp_all
    · rw [hcount 5 (by decide)]
      decide
  obtain ⟨s', hwrite, hram, hout, hframe⟩ := exists_write_of_unmapped (g := Geometry.sixBlocks) zeros
    (show 0 < 8 by decide) hopen hnext (by rw [hempties]; decide) hlow
    (by rw [hcount 5 (by decide)]; decide)
    (by rw [hunmapped, l2pVal_zero]) (by rw [hage]; decide)
  refine ⟨s', hwrite, ⟨?_, ?_, ?_, ?_, fun eb heb => ?_, fun eb heb => ?_, fun o => ?_,
    fun n => (congrFun hout n).trans (hw n)⟩, ?_⟩
  · rw [hram]
  · rw [hram]
    exact hepoch
  · rw [hram]
    simp only [hage]
    decide
  · rw [hram]
    exact hmetas
  · rw [hram]
    simp only [Function.update_apply, hstate eb heb]
    split_ifs <;> simp_all
  · rw [hram]
    simp only [Function.update_apply, hcount eb heb, hcount 5 (by decide)]
    split_ifs <;> simp_all
  · rw [hframe 0 (by decide), hflash]
  · rw [hram]
    exact Function.update_self 0 _ s.ram.l2p

/-- The trim leaves it open. -/
theorem FillsFive.trim (h : FillsFive 1 s) (hl2p : s.ram.l2p 0 = Geometry.sixBlocks.makeL2P 0 5) :
    ∃ s', s.trim Geometry.sixBlocks.toDims 0 = some (true, s') ∧ FillsFive 0 s' := by
  obtain ⟨hopen, hepoch, hage, hmetas, hstate, hcount, hflash, hw⟩ := h
  have hval : l2pVal (s.ram.l2p 0) = true := by rw [hl2p, Geometry.l2pVal_makeL2P]
  have hfive : Geometry.sixBlocks.l2pEb (s.ram.l2p 0) = 5 := by
    rw [hl2p]
    decide
  have hsome : s.ram.findLBA Geometry.sixBlocks.toDims 0 = some (5, 0) :=
    Ram.findLBA_eq_some.mpr ⟨hval, hfive, by rw [hl2p]; decide⟩
  have hone : s.ram.ebState 5 = 1 := hstate 5 (by decide)
  obtain ⟨hst, -⟩ := dropLBA_ebState hsome (by rw [hone]; decide) (by rw [hone]; decide)
  obtain ⟨-, hpe, -, hmetas', -, hopen', -, hage', -⟩ := dropLBA_frame Geometry.sixBlocks s.ram 0
  have hepoch' : (dropLBA Geometry.sixBlocks.toDims s.ram 0).metadataEpoch = 5 := by
    rw [dropLBA]
    split_ifs <;> exact hepoch
  have hyoung : ((dropLBA Geometry.sixBlocks.toDims s.ram 0).metadataAge + 1) % 256 ≠ 0 := by
    rw [hage']
    omega
  refine ⟨{ s with ram := { dropLBA Geometry.sixBlocks.toDims s.ram 0 with
      metadataAge := ((dropLBA Geometry.sixBlocks.toDims s.ram 0).metadataAge + 1) % 256 } }, ?_,
    hopen'.trans hopen, hepoch', ?_, hmetas'.trans hmetas, fun eb heb => ?_,
    fun eb heb => ?_, hflash, hw⟩
  · rw [Ftl.trim, if_neg (by decide), if_pos hval]
    exact Option.bind_eq_some_iff.mpr ⟨_, ageMetadata_of_young (s := { s with
      ram := dropLBA Geometry.sixBlocks.toDims s.ram 0 }) hyoung, rfl⟩
  · simp only [hage']
    omega
  · refine (congrFun hst eb).trans ?_
    rw [hone, Function.update_apply, hstate eb heb]
    split_ifs <;> simp_all
  · exact (congrFun hpe eb).trans (hcount eb heb)

/-- The next persist takes block 5. -/
theorem FillsFive.opens (h : FillsFive 0 s) :
    ∃ p, openMetadataStreamForWrite Geometry.sixBlocks.toDims s = some p ∧ p.1.ebList = [5] := by
  obtain ⟨hopen, hepoch, -, hmetas, hstate, hcount, hflash, hw⟩ := h
  have himage : Loader.HasImage Geometry.sixBlocks.toDims s.flash 0 5 0 Loader.wornStream :=
    Loader.hasImage_wornFlash.congr fun o _ => hflash o
  have hcrc : crcMatches Geometry.sixBlocks.toDims s.flash 0 = true := by
    have := himage.isCopy
    rw [Loader.isCopy, Bool.and_eq_true] at this
    exact this.2
  have hkeep : freeStale Geometry.sixBlocks.toDims [some 0, none] s = ([some 0, none], s) := by
    have hword := himage.epochOf (by decide)
    rw [Loader.epochOf] at hword
    simp only [freeStale, hcrc, hword, hepoch]
    rfl
  have hlow : s.ram.lowestEmptyEB Geometry.sixBlocks.toDims = some 5 := by
    refine lowestEmptyEB_eq_five (fun eb heb => ?_) (fun eb heb => ?_) ?_
    · rw [hstate eb heb]
      split_ifs <;> rfl
    · rw [hcount eb heb, hcount 5 (by decide)]
      split_ifs <;> simp_all
    · rw [hcount 5 (by decide)]
      decide
  simp only [openMetadataStreamForWrite, hmetas, hkeep, allocate, hlow]
  exact ⟨_, rfl, rfl⟩

end Ftl

namespace Volume

/-- The runs that readers are promised something about: the object is started once, on a flash
whose copies have tables that agree. -/
def once (g : Dims) (v : Volume) : Op → Prop
  | .format => v.mounted = false
  | .start => v.mounted = false ∧ Loader.CopiesAgree g v.ftl.flash
  | _ => True

end Volume

end Ch32h4.Spiftl
