import Ch32h4.Spiftl.Equiv.Checking
import Ch32h4.Spiftl.Equiv.Mounting
import Ch32h4.Spiftl.Equiv.Persisting

/-!
# What a write and a trim do to the accounts

A write gives up the old slot of its sector and takes the next slot of the block being filled
(`accounted_repoint`); a trim gives up a slot (`accounted_dropLBA`).  The block being filled is the
one exception of the accounts: while no sector lives in it, its state is zero but `emptyEBs` does
not count it, which is what the `drift` of `Accounted` is for.

`write_cases` and `trim_cases` say how the two operations end.
-/

namespace Ch32h4.Spiftl

namespace Ftl

/-! ### The tables after a write -/

section

variable {g : Geometry} {r : Ram} {eb lba : ℕ}

/-- The block being filled can take a sector in its next slot. -/
structure OpenAt (g : Dims) (r : Ram) (eb : ℕ) : Prop where
  lt : eb < g.eraseBlocks
  next : r.openEBNextIndex < g.slotsPerEB
  not_meta : r.ebState eb ≠ ebMeta
  free : ∀ lba < g.flashLBAs, r.findLBA g lba ≠ some (eb, r.openEBNextIndex)

/-- What giving up the old slot leaves as it is. -/
theorem dropSlot_frame (g : Geometry) (r : Ram) (eb lba : ℕ) :
    (dropSlot g.toDims r eb lba).l2p = r.l2p ∧
    (dropSlot g.toDims r eb lba).peCount = r.peCount ∧
    (dropSlot g.toDims r eb lba).highestPECount = r.highestPECount ∧
    (dropSlot g.toDims r eb lba).metaEBList = r.metaEBList ∧
    (dropSlot g.toDims r eb lba).validLBAs = r.validLBAs ∧
    (dropSlot g.toDims r eb lba).metadataAge = r.metadataAge ∧
    (dropSlot g.toDims r eb lba).gcEB = r.gcEB ∧
    (dropSlot g.toDims r eb lba).openEB = r.openEB ∧
    (dropSlot g.toDims r eb lba).openEBNextIndex = r.openEBNextIndex := by
  rw [dropSlot]
  rcases r.findLBA g.toDims lba with _ | ⟨old, i⟩
  · exact ⟨rfl, rfl, rfl, rfl, rfl, rfl, rfl, rfl, rfl⟩
  · dsimp only
    split_ifs <;> exact ⟨rfl, rfl, rfl, rfl, rfl, rfl, rfl, rfl, rfl⟩

/-- A sector that gives up a slot of the block `old`. -/
theorem dropSlot_of_some (eb : ℕ) {old i : ℕ} (hsome : r.findLBA g.toDims lba = some (old, i))
    (hpos : 0 < r.ebState old) (hle : r.ebState old ≤ ebMeta) :
    (dropSlot g.toDims r eb lba).ebState = Function.update r.ebState old (r.ebState old - 1) ∧
      (dropSlot g.toDims r eb lba).emptyEBs =
        r.emptyEBs + if r.ebState old = 1 ∧ old ≠ eb then 1 else 0 := by
  have hclear := r.clearLBAValid_ebState hpos hle
  have hiff : (r.clearLBAValid old).ebState old = 0 ↔ r.ebState old = 1 := by
    rw [hclear, Function.update_self]
    omega
  rw [dropSlot, hsome]
  dsimp only
  by_cases hone : r.ebState old = 1 ∧ old ≠ eb
  · rw [if_pos ⟨hiff.mpr hone.1, hone.2⟩, if_pos hone]
    exact ⟨hclear, rfl⟩
  · rw [if_neg fun hc => hone ⟨hiff.mp hc.1, hc.2⟩, if_neg hone, add_zero]
    exact ⟨hclear, rfl⟩

/-- What taking the next slot leaves as it is, and the entry it makes. -/
theorem takeSlot_frame (g : Geometry) (r : Ram) (eb lba : ℕ) :
    (takeSlot g.toDims r eb lba).l2p =
      Function.update r.l2p lba (g.makeL2P r.openEBNextIndex eb) ∧
    (takeSlot g.toDims r eb lba).peCount = r.peCount ∧
    (takeSlot g.toDims r eb lba).highestPECount = r.highestPECount ∧
    (takeSlot g.toDims r eb lba).metaEBList = r.metaEBList ∧
    (takeSlot g.toDims r eb lba).validLBAs = r.validLBAs ∧
    (takeSlot g.toDims r eb lba).metadataAge = r.metadataAge ∧
    (takeSlot g.toDims r eb lba).gcEB = r.gcEB ∧
    (takeSlot g.toDims r eb lba).emptyEBs = r.emptyEBs ∧
    (takeSlot g.toDims r eb lba).ebState = (r.setLBAValid eb).ebState := by
  rw [takeSlot]
  dsimp only
  split_ifs <;> exact ⟨rfl, rfl, rfl, rfl, rfl, rfl, rfl, rfl, rfl⟩

/-- The block is closed when its last slot has been taken. -/
theorem takeSlot_open (g : Geometry) (r : Ram) (eb lba : ℕ) :
    (takeSlot g.toDims r eb lba).openEB =
      (if g.slotsPerEB ≤ r.openEBNextIndex + 1 then none else r.openEB) ∧
    (takeSlot g.toDims r eb lba).openEBNextIndex =
      if g.slotsPerEB ≤ r.openEBNextIndex + 1 then 0 else r.openEBNextIndex + 1 := by
  have hnext : ((r.setLBAValid eb).setLBA g.toDims lba eb r.openEBNextIndex).openEBNextIndex =
      r.openEBNextIndex := rfl
  rw [takeSlot]
  simp only [hnext]
  split_ifs <;> exact ⟨rfl, rfl⟩

theorem repoint_frame (g : Geometry) (r : Ram) (eb lba : ℕ) :
    (repoint g.toDims r eb lba).l2p =
      Function.update r.l2p lba (g.makeL2P r.openEBNextIndex eb) ∧
    (repoint g.toDims r eb lba).peCount = r.peCount ∧
    (repoint g.toDims r eb lba).highestPECount = r.highestPECount ∧
    (repoint g.toDims r eb lba).metaEBList = r.metaEBList ∧
    (repoint g.toDims r eb lba).validLBAs = r.validLBAs ∧
    (repoint g.toDims r eb lba).metadataAge = r.metadataAge ∧
    (repoint g.toDims r eb lba).gcEB = r.gcEB := by
  obtain ⟨hl2p, hpe, hhigh, hmetas, hvalid, hage, hgc, -, hnext⟩ :=
    dropSlot_frame g r eb lba
  obtain ⟨hl2p', hpe', hhigh', hmetas', hvalid', hage', hgc', -⟩ :=
    takeSlot_frame g (dropSlot g.toDims r eb lba) eb lba
  rw [hl2p, hnext] at hl2p'
  exact ⟨hl2p', hpe'.trans hpe, hhigh'.trans hhigh, hmetas'.trans hmetas, hvalid'.trans hvalid,
    hage'.trans hage, hgc'.trans hgc⟩

theorem repoint_open (g : Geometry) (r : Ram) (eb lba : ℕ) :
    (repoint g.toDims r eb lba).openEB =
      (if g.slotsPerEB ≤ r.openEBNextIndex + 1 then none else r.openEB) ∧
    (repoint g.toDims r eb lba).openEBNextIndex =
      if g.slotsPerEB ≤ r.openEBNextIndex + 1 then 0 else r.openEBNextIndex + 1 := by
  obtain ⟨-, -, -, -, -, -, -, hopen, hnext⟩ :=
    dropSlot_frame g r eb lba
  have h := takeSlot_open g (dropSlot g.toDims r eb lba) eb lba
  rwa [hopen, hnext] at h

variable {l : List (Option ℕ)} {drift : ℤ}

/-- **A write keeps the accounts**: the block it fills is not empty any more. -/
theorem accounted_repoint (h : Accounted g.toDims drift l r) (hlba : lba < g.flashLBAs)
    (ho : OpenAt g.toDims r eb) :
    Accounted g.toDims (drift - if r.ebState eb = 0 then 1 else 0) l
      (repoint g.toDims r eb lba) := by
  obtain ⟨hl2p, hpe, hhigh, -⟩ := repoint_frame g r eb lba
  have hloc := Ram.findLBA_of_update_l2p hl2p ho.lt ho.next
  have hlt : r.ebState eb < ebMeta := lt_of_le_of_ne (h.placed.state_le ho.lt) ho.not_meta
  obtain ⟨-, -, -, -, -, -, -, hempty, hst⟩ :=
    takeSlot_frame g (dropSlot g.toDims r eb lba) eb lba
  rcases hold : r.findLBA g.toDims lba with _ | ⟨old, i⟩
  · have hdrop : dropSlot g.toDims r eb lba = r := by rw [dropSlot, hold]
    rw [hdrop, r.setLBAValid_ebState hlt] at hst
    rw [hdrop] at hempty
    exact accounted_place _ h hlba hold ho.lt ho.next ho.not_meta ho.free hloc
      ((congrArg Ram.ebState (congrArg (takeSlot g.toDims · eb lba) hdrop)).trans hst) ⟨hpe, hhigh⟩
      ((congrArg Ram.emptyEBs (congrArg (takeSlot g.toDims · eb lba) hdrop)).trans hempty)
  · obtain ⟨hmeta, hpos⟩ := h.placed.state_of_loc hlba hold
    have hle := h.placed.state_le (h.placed.bounds lba hlba old i hold).1
    obtain ⟨hdrop, hdropEmpty⟩ := dropSlot_of_some eb hold hpos hle
    -- the tables between the two halves of the change
    let mid : Ram := { dropSlot g.toDims r eb lba with l2p := Function.update r.l2p lba 0 }
    obtain ⟨-, hmidpe, hmidhigh, -⟩ := dropSlot_frame g r eb lba
    have hmidloc : mid.findLBA g.toDims = Function.update (r.findLBA g.toDims) lba none :=
      Ram.findLBA_of_clear_l2p rfl
    have hmidst : mid.ebState eb = if eb = old then r.ebState eb - 1 else r.ebState eb := by
      refine (congrFun hdrop eb).trans ?_
      rw [Function.update_apply]
      split_ifs with heq
      · rw [heq]
      · rfl
    have hmidlt : mid.ebState eb < ebMeta := by
      rw [hmidst]
      split_ifs <;> omega
    have hmid := accounted_drop mid h hlba hold hmidloc hdrop ⟨hmidpe, hmidhigh⟩ hdropEmpty
    have hplace := accounted_place (repoint g.toDims r eb lba) hmid hlba
      (by rw [hmidloc, Function.update_self]) ho.lt ho.next hmidlt.ne
      (fun lba' hlba' heq => by
        rw [hmidloc] at heq
        rcases eq_or_ne lba' lba with rfl | hl
        · rw [Function.update_self] at heq
          cases heq
        · rw [Function.update_of_ne hl] at heq
          exact ho.free lba' hlba' heq)
      (by rw [hloc, hmidloc, Function.update_idem])
      (hst.trans ((dropSlot g.toDims r eb lba).setLBAValid_ebState hmidlt))
      ⟨hpe.trans hmidpe.symm, hhigh.trans hmidhigh.symm⟩ hempty
    convert hplace using 1
    rw [hmidst]
    split_ifs <;> simp_all
    omega

/-! ### The tables after a trim -/

theorem dropLBA_frame (g : Geometry) (r : Ram) (lba : ℕ) :
    (dropLBA g.toDims r lba).l2p = Function.update r.l2p lba 0 ∧
    (dropLBA g.toDims r lba).peCount = r.peCount ∧
    (dropLBA g.toDims r lba).highestPECount = r.highestPECount ∧
    (dropLBA g.toDims r lba).metaEBList = r.metaEBList ∧
    (dropLBA g.toDims r lba).validLBAs = r.validLBAs - 1 ∧
    (dropLBA g.toDims r lba).openEB = r.openEB ∧
    (dropLBA g.toDims r lba).openEBNextIndex = r.openEBNextIndex ∧
    (dropLBA g.toDims r lba).metadataAge = r.metadataAge ∧
    (dropLBA g.toDims r lba).gcEB = r.gcEB := by
  rw [dropLBA]
  dsimp only
  split_ifs <;> exact ⟨rfl, rfl, rfl, rfl, rfl, rfl, rfl, rfl, rfl⟩

theorem dropLBA_ebState {i : ℕ} (hsome : r.findLBA g.toDims lba = some (eb, i))
    (hpos : 0 < r.ebState eb) (hle : r.ebState eb ≤ ebMeta) :
    (dropLBA g.toDims r lba).ebState = Function.update r.ebState eb (r.ebState eb - 1) ∧
      (dropLBA g.toDims r lba).emptyEBs =
        r.emptyEBs + if r.ebState eb = 1 ∧ r.openEB ≠ some eb then 1 else 0 := by
  obtain ⟨-, rfl, -⟩ := Ram.findLBA_eq_some.mp hsome
  have hclear := r.clearLBAValid_ebState hpos hle
  have hiff : (r.clearLBAValid (g.l2pEb (r.l2p lba))).ebState (g.l2pEb (r.l2p lba)) = 0 ↔
      r.ebState (g.l2pEb (r.l2p lba)) = 1 := by
    rw [hclear, Function.update_self]
    omega
  rw [dropLBA]
  dsimp only
  by_cases hone : r.ebState (g.l2pEb (r.l2p lba)) = 1 ∧ r.openEB ≠ some (g.l2pEb (r.l2p lba))
  · rw [if_pos ⟨hiff.mpr hone.1, hone.2.symm⟩, if_pos hone]
    exact ⟨hclear, rfl⟩
  · rw [if_neg fun hc => hone ⟨hiff.mp hc.1, Ne.symm hc.2⟩, if_neg hone, add_zero]
    exact ⟨hclear, rfl⟩

/-- **A trim keeps the accounts**, but for the block being filled when it loses its last
sector. -/
theorem accounted_dropLBA {i : ℕ} (h : Accounted g.toDims drift l r) (hlba : lba < g.flashLBAs)
    (hsome : r.findLBA g.toDims lba = some (eb, i)) :
    Accounted g.toDims (drift + if r.ebState eb = 1 ∧ r.openEB = some eb then 1 else 0) l
      (dropLBA g.toDims r lba) := by
  obtain ⟨hmeta, hpos⟩ := h.placed.state_of_loc hlba hsome
  have hle := h.placed.state_le (h.placed.bounds lba hlba eb i hsome).1
  obtain ⟨hl2p, hpe, hhigh, -⟩ := dropLBA_frame g r lba
  obtain ⟨hst, hempty⟩ := dropLBA_ebState hsome hpos hle
  have hdrop := accounted_drop _ h hlba hsome (Ram.findLBA_of_clear_l2p hl2p) hst ⟨hpe, hhigh⟩ hempty
  convert hdrop using 1
  split_ifs <;> simp_all

end

/-! ### The members that are always in shape -/

/-- The members besides the tables. -/
structure Shape (g : Dims) (r : Ram) : Prop where
  metas : r.metaEBList.length = g.metaEBs
  gcEB : r.gcEB < g.eraseBlocks
  open_lt : ∀ eb, r.openEB = some eb → eb < g.eraseBlocks
  next : r.openEBNextIndex < g.slotsPerEB
  closed : r.openEB = none → r.openEBNextIndex = 0

section

variable {g : Geometry} {s s' : Ftl} {r : Ram} {eb lba : ℕ} {data : Sector} {drift : ℤ}

theorem Settled.shape (h : Settled g ∅ drift s s') (hs : Shape g.toDims s.ram) :
    Shape g.toDims s'.ram := by
  obtain ⟨hopen, hnext⟩ := h.moves.openEB
  exact ⟨h.acc.metas.length, h.gcEB, fun eb heb => hs.open_lt eb (hopen ▸ heb), hnext ▸ hs.next,
    fun hnone => hnext ▸ hs.closed (hopen ▸ hnone)⟩

theorem repoint_shape (hs : Shape g.toDims r) (ho : r.openEB = some eb) :
    Shape g.toDims (repoint g.toDims r eb lba) := by
  obtain ⟨-, -, -, hmetas, -, -, hgc⟩ := repoint_frame g r eb lba
  obtain ⟨hopen, hnext⟩ := repoint_open g r eb lba
  have height := g.eight_le
  refine ⟨hmetas ▸ hs.metas, hgc ▸ hs.gcEB, fun e he => ?_, ?_, fun hnone => ?_⟩
  · rw [hopen] at he
    split_ifs at he with hfull
    exact hs.open_lt e he
  · rw [hnext]
    split_ifs with hfull <;> omega
  · rw [hopen] at hnone
    rw [hnext]
    split_ifs at * with hfull
    · rfl
    · rw [ho] at hnone
      cases hnone

/-- The tables after `writeOpen`. -/
theorem exists_writeOpen_ram (g : Dims) (s : Ftl) (eb lba : ℕ) (data : Sector) :
    ∃ n, (s.writeOpen g eb lba data).ram = repoint g { s.ram with validLBAs := n } eb lba ∧
      n = s.ram.validLBAs + if l2pVal (s.ram.l2p lba) then 0 else 1 := by
  rw [writeOpen]
  split_ifs with hval
  · exact ⟨_, rfl, by simp⟩
  · exact ⟨_, rfl, rfl⟩

end

/-! ### How the operations end -/

section

variable {g : Dims} {s s' : Ftl} {lba : ℕ} {data : Sector} {ok : Bool}

/-- How a write ends. -/
inductive Wrote (g : Dims) (s : Ftl) (lba : ℕ) (data : Sector) : Bool → Ftl → Prop where
  | outside (hlba : g.flashLBAs ≤ lba) : Wrote g s lba data false s
  /-- No block could be had. -/
  | full (s' : Ftl) (hlba : lba < g.flashLBAs) (hopen : s.ram.openEB = none)
      (hselect : s.selectBestEB g = some (none, s')) :
      Wrote g s lba data false { s' with ram := { s'.ram with openEB := none } }
  /-- The sector goes into the block that is open already. -/
  | goesOn (eb : ℕ) (s' : Ftl) (hlba : lba < g.flashLBAs) (hopen : s.ram.openEB = some eb)
      (hage : (s.writeOpen g eb lba data).ageMetadata g = some s') : Wrote g s lba data true s'
  /-- The sector goes into the first slot of a new block. -/
  | opens (eb : ℕ) (s₁ s' : Ftl) (hlba : lba < g.flashLBAs) (hopen : s.ram.openEB = none)
      (hselect : s.selectBestEB g = some (some eb, s₁))
      (hage : (Ftl.writeOpen g { s₁ with ram := { s₁.ram with openEB := some eb } } eb lba
        data).ageMetadata g = some s') : Wrote g s lba data true s'

theorem write_cases (h : s.write g lba data = some (ok, s')) : Wrote g s lba data ok s' := by
  rw [write] at h
  split_ifs at h with hlba
  · cases h
    exact .outside hlba
  · rcases hopen : s.ram.openEB with _ | eb
    · rw [hopen] at h
      obtain ⟨⟨best, s₁⟩, hselect, h⟩ := Option.bind_eq_some_iff.mp h
      rcases best with _ | eb
      · cases h
        exact .full s₁ (not_le.mp hlba) hopen hselect
      · obtain ⟨s₂, hage, h⟩ := Option.bind_eq_some_iff.mp h
        cases h
        exact .opens eb s₁ _ (not_le.mp hlba) hopen hselect hage
    · rw [hopen] at h
      obtain ⟨⟨best, s₁⟩, hselect, h⟩ := Option.bind_eq_some_iff.mp h
      cases hselect
      obtain ⟨s₂, hage, h⟩ := Option.bind_eq_some_iff.mp h
      cases h
      refine .goesOn eb _ (not_le.mp hlba) hopen ?_
      rwa [← hopen] at hage

/-- How a trim ends. -/
inductive Trimmed (g : Dims) (s : Ftl) (lba : ℕ) : Bool → Ftl → Prop where
  | outside (hlba : g.flashLBAs ≤ lba) : Trimmed g s lba false s
  /-- The sector is not mapped. -/
  | unmapped (hlba : lba < g.flashLBAs) (hnone : s.ram.findLBA g lba = none) :
      Trimmed g s lba true s
  | dropped (eb i : ℕ) (s' : Ftl) (hlba : lba < g.flashLBAs)
      (hsome : s.ram.findLBA g lba = some (eb, i))
      (hage : Ftl.ageMetadata g { s with ram := dropLBA g s.ram lba } = some s') :
      Trimmed g s lba true s'

theorem trim_cases (h : s.trim g lba = some (ok, s')) : Trimmed g s lba ok s' := by
  rw [trim] at h
  split_ifs at h with hlba hval
  · cases h
    exact .outside hlba
  · obtain ⟨s₂, hage, h⟩ := Option.bind_eq_some_iff.mp h
    cases h
    exact .dropped _ _ _ (not_le.mp hlba) (Ram.findLBA_eq_some.mpr ⟨hval, rfl, rfl⟩) hage
  · cases h
    exact .unmapped (not_le.mp hlba) (Ram.findLBA_eq_none.mpr (Bool.eq_false_iff.mpr hval))

end

end Ftl

end Ch32h4.Spiftl
