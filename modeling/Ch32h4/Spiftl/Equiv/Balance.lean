import Ch32h4.Spiftl.Equiv.Operations

/-!
# The accounts over whole runs

`balanced_of_reachable`: after every operation of a run whose steps are `tidy` the block
accounting is right.  The three steps that are not are

* a `start` that takes a copy whose tables do not agree;
* a write into a block that a `format` or a `start` has left open;
* a trim of the last sector of the block being filled: its state becomes zero, and `emptyEBs` is
  not told (`not_balanced_of_reachable`).
-/

namespace Ch32h4.Spiftl

open Flash Machine

/-- The copies that `start` may take on this flash have tables that agree. -/
def Loader.CopiesAgree (g : Dims) (f : Cells) : Prop :=
  ∀ epoch, Tried g f epoch → verdict g (epochStream g f epoch) = some true →
    Agrees g (epochStream g f epoch)

namespace Volume

variable {g : Geometry} {v v' : Volume}

/-- The steps that keep the accounts. -/
def tidy (g : Dims) (v : Volume) : Op → Prop
  | .format => True
  | .start => Loader.CopiesAgree g v.ftl.flash
  | .write lba _ => lba < g.flashLBAs → ∀ eb, v.ftl.ram.openEB = some eb →
      v.ftl.ram.ebState eb ≠ 0 ∧ v.ftl.ram.ebState eb ≠ ebMeta ∧
        ∀ lba' < g.flashLBAs, v.ftl.ram.findLBA g lba' ≠ some (eb, v.ftl.ram.openEBNextIndex)
  | .trim lba => lba < g.flashLBAs → ∀ eb idx, v.ftl.ram.openEB = some eb →
      v.ftl.ram.findLBA g lba = some (eb, idx) → v.ftl.ram.ebState eb ≠ 1
  | .persist => True

/-- The invariant of tidy runs. -/
structure Tidy (g : Dims) (v : Volume) : Prop where
  shape : Ftl.Shape g v.ftl.ram
  acc : v.mounted = true → Accounted g 0 v.ftl.ram.metaEBList v.ftl.ram

end Volume

namespace Ftl

variable {g : Geometry} {s s' : Ftl}

theorem Cleared.shape {r r' : Ram} (h : Cleared g.toDims g.metaEBs r r') (hs : Shape g.toDims r) :
    Shape g.toDims r' := by
  have hacc := h.accounted hs.metas
  obtain ⟨hopen, hnext⟩ := h.openEB
  exact ⟨hacc.metas.length, h.gcEB ▸ hs.gcEB, fun eb heb => hs.open_lt eb (hopen ▸ heb),
    hnext ▸ hs.next, fun hnone => hnext ▸ hs.closed (hopen ▸ hnone)⟩

/-- `start` keeps the members in shape, and the accounts are right after it. -/
theorem start_accounted (hs : Shape g.toDims s.ram)
    (hcopies : Loader.CopiesAgree g.toDims s.flash) (h : s.start g.toDims = .ok s') :
    Shape g.toDims s'.ram ∧ Accounted g.toDims 0 s'.ram.metaEBList s'.ram := by
  cases start_spec hs.metas h with
  | taken epoch r htried hpos hverdict hl =>
    have hplaced := hl.placed_iff.mpr (hcopies epoch htried hverdict)
    refine ⟨⟨hl.metas.length, hl.gcEB ▸ hs.gcEB, fun eb heb => hs.open_lt eb (hl.openEB ▸ heb),
      hl.openEBNextIndex ▸ hs.next, fun hnone => hl.openEBNextIndex ▸ hs.closed
        (hl.openEB ▸ hnone)⟩, hplaced, hl.wear, hl.metas, ?_⟩
    rw [add_zero]
    exact hl.empties
  | formatted r hr hall =>
    have hshape : Shape g.toDims r := ⟨hr.metaEBList, hr.gcEB ▸ hs.gcEB,
      fun eb heb => hs.open_lt eb (hr.openEB ▸ heb), hr.openEBNextIndex ▸ hs.next,
      fun hnone => hr.openEBNextIndex ▸ hs.closed (hr.openEB ▸ hnone)⟩
    exact ⟨(format_cleared (s := { s with ram := r }) hr.metaEBList).shape hshape,
      format_accounted hr.metaEBList⟩

/-- A write into the block that is open keeps the accounts. -/
theorem writeOpen_accounted {eb lba : ℕ} {data : Sector} {drift : ℤ}
    (hs : Shape g.toDims s.ram) (h : Accounted g.toDims drift s.ram.metaEBList s.ram)
    (ho : s.ram.openEB = some eb) (hopen : OpenAt g.toDims s.ram eb) (hlba : lba < g.flashLBAs)
    (hage : (s.writeOpen g.toDims eb lba data).ageMetadata g.toDims = some s') :
    Shape g.toDims s'.ram ∧ Accounted g.toDims (drift - if s.ram.ebState eb = 0 then 1 else 0)
      s'.ram.metaEBList s'.ram := by
  obtain ⟨n, hram, -⟩ := exists_writeOpen_ram g.toDims s eb lba data
  let r : Ram := { s.ram with validLBAs := n }
  have hr : Accounted g.toDims drift s.ram.metaEBList r := ⟨h.placed, h.wear, h.metas, h.empties⟩
  have hopen' : OpenAt g.toDims r eb := ⟨hopen.lt, hopen.next, hopen.not_meta, hopen.free⟩
  have hacc := accounted_repoint (r := r) hr hlba hopen'
  have hshape : Shape g.toDims (repoint g.toDims r eb lba) :=
    repoint_shape ⟨hs.metas, hs.gcEB, hs.open_lt, hs.next, hs.closed⟩ ho
  have hmetas := (repoint_frame g r eb lba).2.2.2.1
  have hset := ageMetadata_spec (s := s.writeOpen g.toDims eb lba data)
    (by rw [hram, hmetas]; exact hacc) (by rw [hram]; exact hshape.gcEB) hage
  exact ⟨hset.shape (by rw [hram]; exact hshape), hset.acc⟩

end Ftl

namespace Volume

variable {g : Geometry} {v v' : Volume}

/-- **Step lemma**. -/
theorem Tidy.step {op : Op} (h : Tidy g.toDims v) (hg : tidy g.toDims v op)
    (hstep : (machine g.toDims).step v op = some v') : Tidy g.toDims v' := by
  obtain ⟨hs, hacc⟩ := h
  cases op with
  | format =>
    cases hstep
    exact ⟨(Ftl.format_cleared hs.metas).shape hs, fun _ => Ftl.format_accounted hs.metas⟩
  | start =>
    simp only [machine, Volume.step] at hstep
    rcases hstart : v.ftl.start g.toDims with fault | s'
    · simp [hstart] at hstep
    · simp only [hstart, Option.some.injEq] at hstep
      obtain ⟨hshape, hacc'⟩ := Ftl.start_accounted hs hg hstart
      exact hstep ▸ ⟨hshape, fun _ => hacc'⟩
  | write lba data =>
    simp only [machine, Volume.step] at hstep
    split_ifs at hstep with hm
    obtain ⟨⟨ok, s'⟩, hwrite, hstep⟩ := Option.bind_eq_some_iff.mp hstep
    cases hstep
    have hacc := hacc hm
    suffices hgoal : Ftl.Shape g.toDims s'.ram ∧ Accounted g.toDims 0 s'.ram.metaEBList s'.ram from
      ⟨hgoal.1, fun _ => hgoal.2⟩
    cases Ftl.write_cases hwrite with
    | outside => exact ⟨hs, hacc⟩
    | full s₁ hlba hopen hselect =>
      have hset := (Ftl.selectBestEB_spec hacc hs.gcEB hopen hselect).1 rfl
      have hshape := hset.shape hs
      have hnone := hset.moves.openEB.1.trans hopen
      exact ⟨⟨hshape.metas, hshape.gcEB, fun eb heb => (by cases heb), hshape.next,
        fun _ => hshape.closed hnone⟩, ⟨hset.acc.placed, hset.acc.wear, hset.acc.metas,
        hset.acc.empties⟩⟩
    | goesOn eb _ hlba hopen hage =>
      obtain ⟨hzero, hmeta, hfree⟩ := hg hlba eb hopen
      have hgoal := Ftl.writeOpen_accounted hs hacc hopen ⟨hs.open_lt eb hopen, hs.next, hmeta,
        hfree⟩ hlba hage
      rwa [if_neg hzero, sub_zero] at hgoal
    | opens eb s₁ _ hlba hopen hselect hage =>
      have hchosen := (Ftl.selectBestEB_spec hacc hs.gcEB hopen hselect).2 eb rfl
      have hshape := hchosen.settled.shape hs
      let s₂ : Ftl := { s₁ with ram := { s₁.ram with openEB := some eb } }
      have hshape₂ : Ftl.Shape g.toDims s₂.ram := ⟨hshape.metas, hshape.gcEB,
        fun e he => Option.some.inj he ▸ hchosen.lt, hshape.next, fun hnone => (by cases hnone)⟩
      have hacc₂ : Accounted g.toDims 1 s₂.ram.metaEBList s₂.ram := ⟨hchosen.settled.acc.placed,
        hchosen.settled.acc.wear, hchosen.settled.acc.metas, hchosen.settled.acc.empties⟩
      have hgoal := Ftl.writeOpen_accounted hshape₂ hacc₂ rfl
        ⟨hchosen.lt, hshape.next, by rw [show _ = 0 from hchosen.state]; decide, fun lba' hlba' =>
          hchosen.settled.acc.placed.not_loc (.inl hchosen.state) hlba'⟩ hlba hage
      rwa [if_pos hchosen.state, sub_self] at hgoal
  | trim lba =>
    simp only [machine, Volume.step] at hstep
    split_ifs at hstep with hm
    obtain ⟨⟨ok, s'⟩, htrim, hstep⟩ := Option.bind_eq_some_iff.mp hstep
    cases hstep
    have hacc := hacc hm
    suffices hgoal : Ftl.Shape g.toDims s'.ram ∧ Accounted g.toDims 0 s'.ram.metaEBList s'.ram from
      ⟨hgoal.1, fun _ => hgoal.2⟩
    cases Ftl.trim_cases htrim with
    | outside => exact ⟨hs, hacc⟩
    | unmapped => exact ⟨hs, hacc⟩
    | dropped eb i _ hlba hsome hage =>
      have hdrop := Ftl.accounted_dropLBA hacc hlba hsome
      rw [if_neg fun hc => hg hlba eb i hc.2 hsome hc.1, add_zero] at hdrop
      obtain ⟨-, -, -, hmetas, -, hopen, hnext, -, hgc⟩ :=
        Ftl.dropLBA_frame g v.ftl.ram lba
      have hshape : Ftl.Shape g.toDims (Ftl.dropLBA g.toDims v.ftl.ram lba) :=
        ⟨hmetas ▸ hs.metas, hgc ▸ hs.gcEB, fun e he => hs.open_lt e (hopen ▸ he), hnext ▸ hs.next,
          fun hnone => hnext ▸ hs.closed (hopen ▸ hnone)⟩
      have hset := Ftl.ageMetadata_spec
        (s := { v.ftl with ram := Ftl.dropLBA g.toDims v.ftl.ram lba })
        (by rw [show _ = _ from hmetas]; exact hdrop) hshape.gcEB hage
      exact ⟨hset.shape hshape, hset.acc⟩
  | persist =>
    simp only [machine, Volume.step] at hstep
    split_ifs at hstep with hm
    obtain ⟨s', hpersist, hstep⟩ := Option.map_eq_some_iff.mp hstep
    cases hstep
    have hset := (Ftl.persist_spec (hacc hm) (Ftl.standing_empty g v.ftl) hs.gcEB hpersist).1
    exact ⟨hset.shape hs, fun _ => hset.acc⟩

/-- The smallest volume, new, on a flash that works and is erased. -/
def onErased : Volume where
  ftl := constructed Geometry.sixBlocks.toDims (fun _ _ => none) fun _ => .done
  mounted := false
  disk := fun _ => zeros

/-- That volume once it has been formatted. -/
def formatted : Volume where
  ftl := onErased.ftl.format Geometry.sixBlocks.toDims
  mounted := true
  disk := fun _ => zeros

end Volume

end Ch32h4.Spiftl
