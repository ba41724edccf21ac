import Ch32h4.Spiftl.Equiv.Operations

/-!
# Operations that come to an end

A stream that is being written takes the blocks it has one after another, and needs one more only
when a page is full.  `Room` is what it has left, in bytes; one byte uses one up
(`Room.writeMetadata8b`).  A persist comes to its end when the blocks it has taken hold the stream
(`exists_doPersist`): closing goes one byte further, into a buffer that is never programmed.

`exists_write_of_unmapped` is a write that needs no room to be made, with the tables it leaves.
-/

namespace Ch32h4.Spiftl

open Flash

namespace Ftl

variable {g : Geometry} {s : Ftl} {st : Stream} {c k : ℕ}

/-! ### Persisting -/

/-- A stream with room for `k` more bytes in the blocks it has, and for `c` more in its buffer. -/
structure Room (g : Dims) (c : ℕ) (st : Stream) (k : ℕ) : Prop where
  started : st.offset = 0 ∨ 12 ≤ st.offset
  le : st.offset ≤ g.ebBytes - 4
  fits : k + (st.offset - 12) ≤ st.ebList.length * (g.ebBytes - 16) + c

/-- A page is programmed only while there is a block. -/
theorem Room.cons (h : Room g.toDims c st k) (hc : c + 12 < flashWriteBufferSize)
    (hneed : flashWriteBufferSize ≤ k + st.offset) : ∃ front l, st.ebList = front :: l := by
  refine List.exists_cons_of_length_pos (Nat.pos_of_ne_zero fun hzero => ?_)
  have hfits := h.fits
  rw [hzero, Nat.zero_mul] at hfits
  have := h.started
  omega

theorem Room.closeBlock (h : Room g.toDims c st (k + 1)) (hc : c + 12 < flashWriteBufferSize)
    (s : Ftl) :
    ∃ st' s', closeBlock g.toDims st s = some (st', s') ∧ Room g.toDims c st' (k + 1) ∧
      st'.offset = if st.offset = g.ebBytes - 4 then 0 else st.offset := by
  have hbig := ebBytes_ge g
  rw [Ftl.closeBlock]
  split_ifs with hfull
  · obtain ⟨front, l, hlist⟩ := h.cons hc (by
      rw [hfull]
      simp only [flashWriteBufferSize, lbaBytes] at *
      omega)
    have hfits := h.fits
    rw [hlist, hfull, List.length_cons, Nat.add_mul, Nat.one_mul] at hfits
    rw [hlist]
    refine ⟨_, _, rfl, ⟨.inl rfl, Nat.zero_le _, ?_⟩, rfl⟩
    simp only [List.tail_cons]
    omega
  · exact ⟨st, s, rfl, h, rfl⟩

theorem Room.openBlock (h : Room g.toDims c st k) (s : Ftl) :
    Room g.toDims c (openBlock st s) k ∧ (openBlock st s).offset = max st.offset 12 := by
  have hbig := ebBytes_ge g
  rw [lbaBytes] at hbig
  obtain ⟨hstarted, hle, hfits⟩ := h
  rw [Ftl.openBlock]
  split_ifs with hzero
  · rw [hzero] at hfits ⊢
    exact ⟨⟨.inr le_rfl, by simp only; omega, hfits⟩, rfl⟩
  · exact ⟨⟨hstarted, hle, hfits⟩, by omega⟩

theorem Room.putByte (h : Room g.toDims c st (k + 1)) (hc : c + 12 < flashWriteBufferSize)
    (hoff : 12 ≤ st.offset) (hlt : st.offset < g.ebBytes - 4) (b : UInt8) (s : Ftl) :
    ∃ st' s', putByte g.toDims b st s = some (st', s') ∧ Room g.toDims c st' k ∧
      st'.offset = st.offset + 1 := by
  have hfits := h.fits
  have hroom : ∀ wb, Room g.toDims c { st with
      wb := wb, crc := crcByte st.crc b, offset := st.offset + 1 } k := fun wb =>
    ⟨.inr (by simp only; omega), by simp only; omega, by simp only; omega⟩
  by_cases hfull : (st.offset + 1) % flashWriteBufferSize = 0
  · obtain ⟨front, l, hlist⟩ := h.cons hc (by
      have := full_page hfull hlt
      omega)
    have hfront : st.ebList.head? = some front := by rw [hlist, List.head?_cons]
    simp only [Ftl.putByte, hfull, if_true, hfront, Option.bind_eq_bind, Option.bind_some]
    exact ⟨_, _, rfl, hroom _, rfl⟩
  · simp only [Ftl.putByte, hfull, if_false]
    exact ⟨_, _, rfl, hroom _, rfl⟩

/-- **One byte** can be written while there is room for it. -/
theorem Room.writeMetadata8b (h : Room g.toDims c st (k + 1)) (hc : c + 12 < flashWriteBufferSize)
    (b : UInt8) (s : Ftl) :
    ∃ st' s', writeMetadata8b g.toDims b (st, s) = some (st', s') ∧ Room g.toDims c st' k ∧
      st'.offset = if st.offset = g.ebBytes - 4 then 13 else max st.offset 12 + 1 := by
  have hbig := ebBytes_ge g
  rw [lbaBytes] at hbig
  obtain ⟨st₁, s₁, hclose, hroom₁, hoff₁⟩ := h.closeBlock hc s
  obtain ⟨hroom₂, hoff₂⟩ := hroom₁.openBlock s₁
  have hle := h.le
  obtain ⟨st₃, s₃, hput, hroom₃, hoff₃⟩ := hroom₂.putByte hc (by rw [hoff₂]; omega)
    (by rw [hoff₂, hoff₁]; split_ifs <;> omega) b s₁
  refine ⟨st₃, s₃, ?_, hroom₃, ?_⟩
  · rw [Ftl.writeMetadata8b, hclose]
    exact hput
  · rw [hoff₃, hoff₂, hoff₁]
    split_ifs <;> rfl

/-- **Any number of bytes** can be written while there is room for them. -/
theorem Room.writes {bs : List UInt8} (h : Room g.toDims c st (k + bs.length))
    (hc : c + 12 < flashWriteBufferSize) (s : Ftl) :
    ∃ st' s', writes g.toDims bs (st, s) = some (st', s') ∧ Room g.toDims c st' k ∧
      (bs ≠ [] → 12 < st'.offset) := by
  induction bs generalizing st s with
  | nil => exact ⟨st, s, rfl, h, fun hne => absurd rfl hne⟩
  | cons b bs ih =>
    obtain ⟨st₁, s₁, hbyte, hroom₁, hoff₁⟩ := Room.writeMetadata8b (k := k + bs.length) h hc b s
    obtain ⟨st₂, s₂, hres, hroom₂, hoff₂⟩ := ih hroom₁ s₁
    refine ⟨st₂, s₂, ?_, hroom₂, fun _ => ?_⟩
    · rw [Ftl.writes, List.foldlM_cons, hbyte]
      exact hres
    · cases bs with
      | nil =>
        cases hres
        rw [hoff₁]
        split_ifs <;> omega
      | cons b' bs => exact hoff₂ (List.cons_ne_nil _ _)

theorem Room.writeTable (bytes : Ram → ℕ → List UInt8) {w : ℕ} {is : List ℕ}
    (h : Room g.toDims c st (k + is.length * w)) (hc : c + 12 < flashWriteBufferSize)
    (hw : ∀ r i, (bytes r i).length = w) (s : Ftl) :
    ∃ st' s', writeTable g.toDims bytes is (st, s) = some (st', s') ∧ Room g.toDims c st' k := by
  induction is generalizing st s with
  | nil => exact ⟨st, s, rfl, by simpa using h⟩
  | cons i is ih =>
    have hlen : k + (i :: is).length * w = k + is.length * w + (bytes s.ram i).length := by
      rw [List.length_cons, hw, Nat.add_mul, Nat.one_mul, Nat.add_assoc]
    rw [hlen] at h
    obtain ⟨st₁, s₁, hentry, hroom₁, -⟩ := h.writes hc s
    obtain ⟨st₂, s₂, hres, hroom₂⟩ := ih hroom₁ s₁
    refine ⟨st₂, s₂, ?_, hroom₂⟩
    rw [Ftl.writeTable]
    exact Option.bind_eq_some_iff.mpr ⟨_, hentry, hres⟩

/-- A stream whose last byte went into a block it has can be closed. -/
theorem exists_closeMetadataStream (h : Room g.toDims 0 st 0) (hoff : 12 < st.offset) (n : ℕ)
    (s : Ftl) : ∃ p, closeMetadataStream g.toDims n (st, s) = some p := by
  have hslack : flashWriteBufferSize - 13 + 12 < flashWriteBufferSize := by decide
  have hroom : Room g.toDims (flashWriteBufferSize - 13) st (g.ebBytes - 3 - st.offset) := by
    obtain ⟨hstarted, hle, hfits⟩ := h
    refine ⟨hstarted, hle, ?_⟩
    have hpos : 0 < st.ebList.length := Nat.pos_of_ne_zero fun hzero => by
      rw [hzero, Nat.zero_mul] at hfits
      omega
    have := Nat.mul_le_mul_right (g.ebBytes - 16) hpos
    simp only [flashWriteBufferSize]
    omega
  clear h
  induction n generalizing st s with
  | zero => exact ⟨_, rfl⟩
  | succ n ih =>
    rw [closeMetadataStream]
    split_ifs with hc
    · have hle := hroom.le
      obtain ⟨m, hm⟩ : ∃ m, g.ebBytes - 3 - st.offset = m + 1 := ⟨g.ebBytes - 4 - st.offset, by
        have := ebBytes_ge g
        rw [lbaBytes] at this
        omega⟩
      rw [hm] at hroom
      obtain ⟨st₁, s₁, hbyte, hroom₁, hoff₁⟩ := hroom.writeMetadata8b hslack 0 s
      simp only [hbyte, Option.bind_eq_bind, Option.bind_some]
      by_cases hfull : st.offset = g.ebBytes - 4
      · rw [if_pos hfull] at hoff₁
        cases n with
        | zero => exact ⟨_, rfl⟩
        | succ n =>
          rw [closeMetadataStream, if_neg (by simp [hoff₁])]
          exact ⟨_, rfl⟩
      · rw [if_neg hfull] at hoff₁
        refine ih (by omega) s₁ ?_
        have : g.ebBytes - 3 - st₁.offset = m := by omega
        rwa [this]
    · exact ⟨_, rfl⟩

theorem openMetadataStreamForWrite_offset {p : Stream × Ftl}
    (h : openMetadataStreamForWrite g.toDims s = some p) : p.1.offset = 0 := by
  rw [openMetadataStreamForWrite] at h
  obtain ⟨_, -, h⟩ := Option.bind_eq_some_iff.mp h
  cases h
  rfl

/-- **A persist comes to its end** if the blocks it takes hold its stream. -/
theorem exists_doPersist {p : Stream × Ftl} (h : openMetadataStreamForWrite g.toDims s = some p)
    (hroom : Loader.streamLength g.toDims ≤ p.1.ebList.length * (g.ebBytes - 16)) :
    ∃ s', s.doPersist g.toDims = some s' := by
  have hc : 0 + 12 < flashWriteBufferSize := by decide
  have hoff := openMetadataStreamForWrite_offset h
  have hN : (List.range g.eraseBlocks).length * 1 = g.eraseBlocks := by simp
  have hL : (List.range g.flashLBAs).length * 2 = 2 * g.flashLBAs := by
    rw [List.length_range, Nat.mul_comm]
  obtain ⟨st₀, s₀⟩ := p
  simp only at hoff hroom
  have hroom₀ : Room g.toDims 0 st₀ (Loader.streamLength g.toDims) :=
    ⟨.inl hoff, by omega, by omega⟩
  have hsum : Loader.streamLength g.toDims = 4 + (List.range g.flashLBAs).length * 2 +
      (List.range g.eraseBlocks).length * 1 + (List.range g.eraseBlocks).length * 1 +
      (ftlInfo g.toDims).length := by
    rw [Loader.streamLength, Loader.ftlInfo_length, hN, hL]
    omega
  rw [hsum] at hroom₀
  obtain ⟨st₁, s₁, hinfo, hroom₁, -⟩ := hroom₀.writes hc s₀
  obtain ⟨st₂, s₂, hpe, hroom₂⟩ := hroom₁.writeTable
    (fun r i => [UInt8.ofNat (r.peCount i)]) hc (fun _ _ => rfl) s₁
  obtain ⟨st₃, s₃, hstate, hroom₃⟩ := hroom₂.writeTable
    (fun r i => [UInt8.ofNat (r.ebState i)]) hc (fun _ _ => rfl) s₂
  obtain ⟨st₄, s₄, hl2p, hroom₄⟩ := hroom₃.writeTable
    (fun r i => bytesBE16 (r.l2p i)) hc (fun _ _ => rfl) s₃
  have hfour : 4 = 0 + (bytesBE32 s₄.ram.peCountOffset).length := rfl
  rw [hfour] at hroom₄
  obtain ⟨st₅, s₅, hoffset, hroom₅, hlast⟩ := hroom₄.writes hc s₄
  obtain ⟨p₆, hclose⟩ :=
    exists_closeMetadataStream hroom₅ (hlast (by simp [bytesBE32])) g.ebBytes s₅
  have hoffset' : writeTable g.toDims (fun r _ => bytesBE32 r.peCountOffset) [0] (st₄, s₄) =
      some (st₅, s₅) := Option.bind_eq_some_iff.mpr ⟨_, hoffset, rfl⟩
  exact ⟨_, Option.bind_eq_some_iff.mpr ⟨_, h, Option.bind_eq_some_iff.mpr ⟨_, hinfo,
    Option.bind_eq_some_iff.mpr ⟨_, hpe, Option.bind_eq_some_iff.mpr ⟨_, hstate,
    Option.bind_eq_some_iff.mpr ⟨_, hl2p, Option.bind_eq_some_iff.mpr ⟨_, hoffset',
    Option.bind_eq_some_iff.mpr ⟨_, hclose, rfl⟩⟩⟩⟩⟩⟩⟩⟩

/-! ### Writing into an empty block -/

/-- Counting a change that brings no persist. -/
theorem ageMetadata_of_young (h : (s.ram.metadataAge + 1) % 256 ≠ 0) :
    s.ageMetadata g.toDims =
      some { s with ram := { s.ram with metadataAge := (s.ram.metadataAge + 1) % 256 } } := by
  rcases ageMetadata_cases g.toDims s with ⟨hzero, -⟩ | ⟨-, heq⟩
  · exact absurd hzero h
  · exact heq

variable {eb lba : ℕ}

/-- A block that is little worn. -/
theorem wearEB_of_le {r : Ram} (h : r.peCount eb ≤ 250) :
    wearEB r eb = { r with
      peCount := Function.update r.peCount eb (r.peCount eb + 1)
      highestPECount := if r.highestPECount < (r.peCount eb + 1 : ℕ) then (r.peCount eb + 1 : ℕ)
        else r.highestPECount } := by
  rw [wearEB, if_neg (by omega), bumpWear, Nat.mod_eq_of_lt (by omega)]

/-- The tables after the first write to an empty block, of a sector that is not mapped. -/
theorem repoint_of_unmapped {r : Ram} (hval : l2pVal (r.l2p lba) = false) (hst : r.ebState eb = 0)
    (hnext : r.openEBNextIndex = 0) :
    repoint g.toDims r eb lba = { r with
      ebState := Function.update r.ebState eb 1
      l2p := Function.update r.l2p lba (g.makeL2P 0 eb)
      openEBNextIndex := 1 } := by
  have hslots : ¬ g.slotsPerEB ≤ 0 + 1 := by
    have := g.eight_le
    omega
  have hstate : (r.setLBAValid eb).ebState = Function.update r.ebState eb 1 :=
    (r.setLBAValid_ebState (by rw [hst]; decide)).trans (by rw [hst])
  rw [repoint, dropSlot, Ram.findLBA_eq_none.mpr hval, takeSlot]
  simp only [show ((r.setLBAValid eb).setLBA g.toDims lba eb r.openEBNextIndex).openEBNextIndex =
    0 from hnext, hslots, if_false]
  rw [hnext, ← hstate]
  rfl

/-- A write of a sector that is not mapped, to a volume with no open block and blocks to spare. -/
theorem exists_write_of_unmapped (data : Sector) (hlba : lba < g.flashLBAs)
    (hopen : s.ram.openEB = none) (hnext : s.ram.openEBNextIndex = 0)
    (hspare : 3 ≤ s.ram.emptyEBs) (hlow : s.ram.lowestEmptyEB g.toDims = some eb)
    (hpe : s.ram.peCount eb ≤ 250) (hval : l2pVal (s.ram.l2p lba) = false)
    (hage : (s.ram.metadataAge + 1) % 256 ≠ 0) :
    ∃ s', s.write g.toDims lba data = some (true, s') ∧
      s'.ram = { s.ram with
        peCount := Function.update s.ram.peCount eb (s.ram.peCount eb + 1)
        highestPECount := if s.ram.highestPECount < (s.ram.peCount eb + 1 : ℕ) then
          (s.ram.peCount eb + 1 : ℕ) else s.ram.highestPECount
        ebState := Function.update s.ram.ebState eb 1
        l2p := Function.update s.ram.l2p lba (g.makeL2P 0 eb)
        emptyEBs := s.ram.emptyEBs - 1
        validLBAs := s.ram.validLBAs + 1
        openEB := some eb
        openEBNextIndex := 1
        metadataAge := (s.ram.metadataAge + 1) % 256 } ∧
      s'.outcome = s.outcome ∧ ∀ e ≠ eb, ∀ o, s'.flash e o = s.flash e o := by
  have hslots := g.eight_le
  have hroom : s.makeRoom g.toDims g.eraseBlocks 0 = some (true, s) := by
    rw [makeRoom, if_neg (by omega)]
  let r₁ : Ram := { s.ram with
    peCount := Function.update s.ram.peCount eb (s.ram.peCount eb + 1)
    highestPECount := if s.ram.highestPECount < (s.ram.peCount eb + 1 : ℕ) then
      (s.ram.peCount eb + 1 : ℕ) else s.ram.highestPECount
    ebState := Function.update s.ram.ebState eb 0
    emptyEBs := s.ram.emptyEBs - 1 }
  let s₁ := ({ s with ram := { s.ram with emptyEBs := s.ram.emptyEBs - 1 } } : Ftl).eraseEB
    g.toDims eb
  have hram₁ : s₁.ram = r₁ := by
    change (wearEB { s.ram with emptyEBs := s.ram.emptyEBs - 1 } eb).setEBState eb 0 = r₁
    rw [wearEB_of_le (by exact hpe)]
    rfl
  have hselect : s.selectBestEB g.toDims = some (some eb, s₁) := by
    rw [selectBestEB, hroom]
    exact Option.bind_eq_some_iff.mpr ⟨(true, s), rfl, Option.bind_eq_some_iff.mpr ⟨eb, hlow, rfl⟩⟩
  let r₂ : Ram := { r₁ with openEB := some eb, validLBAs := s.ram.validLBAs + 1 }
  let s₂ : Ftl := ({ s₁ with ram := r₂ } : Ftl).program g.toDims eb (0 * lbaBytes) data.1
  have hwrite : ({ s₁ with ram := { s₁.ram with openEB := some eb } } : Ftl).writeOpen g.toDims eb
      lba data = { s₂ with ram := repoint g.toDims r₂ eb lba } := by
    have hbump : (if l2pVal (r₁.l2p lba) then { r₁ with openEB := some eb } else
        { r₁ with openEB := some eb, validLBAs := r₁.validLBAs + 1 }) = r₂ :=
      if_neg (by rw [show r₁.l2p lba = s.ram.l2p lba from rfl, hval]; decide)
    simp only [writeOpen, hram₁, hbump]
    rw [show r₂.openEBNextIndex = 0 from hnext]
    rfl
  have hpoint := repoint_of_unmapped (g := g) (r := r₂) hval
    (Function.update_self eb 0 s.ram.ebState) hnext
  let s₃ : Ftl := { s₂ with ram := { repoint g.toDims r₂ eb lba with
    metadataAge := (s.ram.metadataAge + 1) % 256 } }
  have hage₃ : ({ s₂ with ram := repoint g.toDims r₂ eb lba } : Ftl).ageMetadata g.toDims =
      some s₃ := by
    have hsame : (repoint g.toDims r₂ eb lba).metadataAge = s.ram.metadataAge := by
      rw [hpoint]
    rw [ageMetadata_of_young (by simp only [hsame]; exact hage)]
    simp only [hsame]
    rfl
  refine ⟨s₃, ?_, ?_, rfl, fun e he o => ?_⟩
  · rw [Ftl.write, if_neg (not_le.mpr hlba), hopen]
    refine Option.bind_eq_some_iff.mpr ⟨_, hselect, ?_⟩
    rw [← hwrite] at hage₃
    exact Option.bind_eq_some_iff.mpr ⟨s₃, hage₃, rfl⟩
  · simp only [s₃, hpoint, r₂, r₁, Function.update_idem]
  · refine (program_frame (s := { s₁ with ram := r₂ }) fun hin => he hin.1).trans ?_
    exact eraseBlock_frame he o

end Ftl

end Ch32h4.Spiftl
