import Ch32h4.Spiftl.Equiv.Balance

/-!
# What is read is what was written

`Sound` is the invariant that ties a volume to the sectors a reader should see.  It holds for
every outcome of the driver calls; what is read is what was written as long as every page that was
handed to the driver reads back, and on a flash that works they all do.

The steps that keep it are `steady`: the object is started once, and no persist, asked for or
periodic, happens while the block being filled holds no live sector.  In that one state the block
looks empty, and the persist may take it for metadata; `Ch32h4.Spiftl.Equiv.Taking` has a run in
which it does.
-/

namespace Ch32h4.Spiftl

open Flash Machine

namespace Ftl

/-! ### The invariant -/

/-- The block being filled: its live sectors are below the next slot, and from there on it is
blank. -/
structure Partial (g : Dims) (s : Ftl) (eb : ℕ) : Prop where
  not_meta : s.ram.ebState eb ≠ ebMeta
  below : ∀ lba < g.flashLBAs, ∀ i, s.ram.findLBA g lba = some (eb, i) → i < s.ram.openEBNextIndex
  blank : s.Working → Blank s.flash eb (lbaBytes * s.ram.openEBNextIndex)
    (g.ebBytes - lbaBytes * s.ram.openEBNextIndex)

/-- The block being filled is not counted among the empty ones, even when its state is zero. -/
def openDrift (r : Ram) : ℤ :=
  match r.openEB with
  | some eb => if r.ebState eb = 0 then 1 else 0
  | none => 0

/-- The volume holds the sectors of `disk`. -/
structure Sound (g : Dims) (disk : ℕ → Sector) (s : Ftl) : Prop where
  shape : Shape g s.ram
  acc : Accounted g (openDrift s.ram) s.ram.metaEBList s.ram
  filling : ∀ eb, s.ram.openEB = some eb → Partial g s eb
  safe : ∀ e ∈ s.log, e.Safe g
  fine : s.Working → ∀ e ∈ s.log, e.Fine
  contents : (∀ e ∈ s.log, e.Fine) → ∀ lba < g.flashLBAs, Volume.contents g s lba = disk lba

theorem openDrift_of_none {r : Ram} (h : r.openEB = none) : openDrift r = 0 := by
  rw [openDrift, h]

theorem openDrift_of_live {g : Dims} {r : Ram} (h : OpenLive g r) : openDrift r = 0 := by
  rw [openDrift]
  rcases hopen : r.openEB with _ | eb
  · rfl
  · exact if_neg (h eb hopen).2.1

section

variable {g : Geometry} {disk : ℕ → Sector} {s s' : Ftl} {eb lba : ℕ} {data : Sector}

/-- **Maintenance** keeps the sectors. -/
theorem Sound.settle (h : Sound g.toDims disk s) (hopen : OpenLive g.toDims s.ram)
    (hs : Settled g ∅ 0 s s') : Sound g.toDims disk s' := by
  have hmoves := hs.moves
  obtain ⟨ho, hn⟩ := hmoves.openEB
  refine ⟨hs.shape h.shape, ?_, fun eb heb => ?_, ?_, fun hw => ?_, fun hfine lba hlba => ?_⟩
  · rw [openDrift_of_live (hmoves.open_live hopen)]
    exact hs.acc
  · rw [ho] at heb
    obtain ⟨hl2p, hstate, hflash⟩ := hmoves.open_frame hopen heb
    obtain ⟨hmeta, hbelow, hblank⟩ := h.filling eb heb
    refine ⟨by rwa [hstate], ?_, fun hw => ?_⟩
    · rw [Ram.findLBA_congr hl2p, hn]
      exact hbelow
    · rw [hn]
      have hw' : s.Working := fun n => congrFun hmoves.outcome n ▸ hw n
      exact (hblank hw').congr fun o _ _ => hflash o
  · obtain ⟨new, hlog, hnew⟩ := hmoves.calls hopen
    intro e he
    rw [hlog] at he
    exact (List.mem_append.mp he).elim (hnew e) (h.safe e)
  · have hw' : s.Working := fun n => congrFun hmoves.outcome n ▸ hw n
    exact hmoves.fine hw' (h.fine hw')
  · rw [hmoves.contents hfine hlba, h.contents (fun e he => hfine e (hmoves.log he)) lba hlba]

/-- A block that has been chosen is opened. -/
theorem Sound.open (h : Sound g.toDims disk s) (hopen : s.ram.openEB = none)
    (hc : Chosen g s s' eb) :
    Sound g.toDims disk { s' with ram := { s'.ram with openEB := some eb } } := by
  have hlive : OpenLive g.toDims s.ram := fun e he => by rw [hopen] at he; cases he
  have hmoves := hc.settled.moves
  have hshape := hc.settled.shape h.shape
  have hnext : s'.ram.openEBNextIndex = 0 := hshape.closed (hmoves.openEB.1.trans hopen)
  obtain ⟨hplaced, hwear, hmetas, hempties⟩ := hc.settled.acc
  refine ⟨⟨hshape.metas, hshape.gcEB, fun e he => Option.some.inj he ▸ hc.lt, hshape.next,
    fun hnone => (by cases hnone)⟩, ⟨hplaced, hwear, hmetas, ?_⟩, fun e he => ?_, ?_, fun hw => ?_,
    fun hfine lba hlba => ?_⟩
  · have hdrift : openDrift { s'.ram with openEB := some eb } = 1 := if_pos hc.state
    exact (congrArg (s'.ram.emptyEBs + ·) hdrift).trans hempties
  · obtain rfl := Option.some.inj he
    refine ⟨by rw [show _ = 0 from hc.state]; decide, fun lba hlba i hloc => ?_, fun hw => ?_⟩
    · exact absurd hloc (hplaced.not_loc (.inl hc.state) hlba)
    · simp only [hnext, Nat.mul_zero, Nat.sub_zero]
      exact hc.blank hw
  · obtain ⟨new, hlog, hnew⟩ := hmoves.calls hlive
    intro e he
    rw [show _ = _ from hlog] at he
    exact (List.mem_append.mp he).elim (hnew e) (h.safe e)
  · have hw' : s.Working := fun n => congrFun hmoves.outcome n ▸ hw n
    exact hmoves.fine hw' (h.fine hw')
  · exact (hmoves.contents hfine hlba).trans
      (h.contents (fun e he => hfine e (hmoves.log he)) lba hlba)

/-- The two halves of `writeOpen`: the sector is programmed, and the tables follow. -/
theorem exists_writeOpen_eq (g : Dims) (s : Ftl) (eb lba : ℕ) (data : Sector) :
    ∃ r : Ram, r = { s.ram with validLBAs := r.validLBAs } ∧
      s.writeOpen g eb lba data =
        { { s with ram := r }.program g eb (r.openEBNextIndex * lbaBytes) data.1 with
          ram := repoint g r eb lba } := by
  rw [writeOpen]
  split_ifs
  · exact ⟨s.ram, rfl, rfl⟩
  · exact ⟨{ s.ram with validLBAs := s.ram.validLBAs + 1 }, rfl, rfl⟩

/-- **A sector is written** into the block being filled. -/
theorem Sound.writeOpen (data : Sector) (h : Sound g.toDims disk s) (ho : s.ram.openEB = some eb)
    (hlba : lba < g.flashLBAs) :
    Sound g.toDims (Function.update disk lba data) (s.writeOpen g.toDims eb lba data) ∧
      OpenLive g.toDims (s.writeOpen g.toDims eb lba data).ram := by
  obtain ⟨r, hr, heq⟩ := exists_writeOpen_eq g.toDims s eb lba data
  have hpart := h.filling eb ho
  have hopen : r.openEB = some eb := by rw [hr]; exact ho
  have hnext : r.openEBNextIndex = s.ram.openEBNextIndex := by rw [hr]
  have hstate : r.ebState = s.ram.ebState := by rw [hr]
  have hfind : r.findLBA g.toDims = s.ram.findLBA g.toDims := Ram.findLBA_congr (by rw [hr])
  have hracc : Accounted g.toDims (openDrift s.ram) s.ram.metaEBList r := by
    rw [hr]
    exact ⟨h.acc.placed, h.acc.wear, h.acc.metas, h.acc.empties⟩
  have hrshape : Shape g.toDims r := by
    rw [hr]
    exact ⟨h.shape.metas, h.shape.gcEB, h.shape.open_lt, h.shape.next, h.shape.closed⟩
  have hat : OpenAt g.toDims r eb := by
    refine ⟨h.shape.open_lt eb ho, hrshape.next, hstate ▸ hpart.not_meta, fun lba' hlba' hloc => ?_⟩
    rw [hfind, hnext] at hloc
    exact (hpart.below lba' hlba' _ hloc).ne rfl
  have hacc := accounted_repoint hracc hlba hat
  obtain ⟨hl2p, -, -, hmetas, -⟩ := repoint_frame g r eb lba
  obtain ⟨hopen', hnext'⟩ := repoint_open g r eb lba
  have hloc := Ram.findLBA_of_update_l2p hl2p hat.lt hat.next
  have hplaced := hacc.placed
  obtain ⟨hmeta', hpos'⟩ := hplaced.state_of_loc hlba
    (show _ = some (eb, r.openEBNextIndex) by rw [hloc, Function.update_self])
  have hlive : OpenLive g.toDims (repoint g.toDims r eb lba) := by
    intro e he
    rw [hopen'] at he
    split_ifs at he with hfull
    obtain rfl := Option.some.inj (hopen.symm.trans he)
    exact ⟨hat.lt, hpos'.ne', hmeta'⟩
  have hdrift : openDrift s.ram - (if r.ebState eb = 0 then 1 else 0) = 0 := by
    rw [openDrift, ho, hstate]
    exact sub_self _
  rw [hdrift] at hacc
  have hbytes : lbaBytes * r.openEBNextIndex + lbaBytes ≤ g.ebBytes := by
    rw [g.ebBytes_eq, ← Nat.mul_succ]
    exact Nat.mul_le_mul_left _ hat.next
  have hcomm : r.openEBNextIndex * lbaBytes = lbaBytes * r.openEBNextIndex := Nat.mul_comm _ _
  rw [heq]
  refine ⟨⟨repoint_shape hrshape hopen, ?_, fun e he => ?_, fun e he => ?_, fun hw => ?_,
    fun hfine lba' hlba' => ?_⟩, hlive⟩
  · rw [show openDrift (repoint g.toDims r eb lba) = 0 from openDrift_of_live hlive,
      show (repoint g.toDims r eb lba).metaEBList = s.ram.metaEBList by rw [hmetas, hr]]
    exact hacc
  · -- the block stays open only if there is a slot above the one just written
    replace he : (repoint g.toDims r eb lba).openEB = some e := he
    rw [hopen'] at he
    split_ifs at he with hfull
    obtain rfl := Option.some.inj (hopen.symm.trans he)
    have hnext₁ : (repoint g.toDims r eb lba).openEBNextIndex = r.openEBNextIndex + 1 := by
      rw [hnext', if_neg hfull]
    refine ⟨hmeta', fun a ha i hi => ?_, fun hw => ?_⟩
    · simp only [hnext₁]
      simp only [hloc] at hi
      rcases eq_or_ne a lba with rfl | hne
      · rw [Function.update_self] at hi
        simp only [Option.some.injEq, Prod.mk.injEq, true_and] at hi
        omega
      · rw [Function.update_of_ne hne, hfind] at hi
        have := hpart.below a ha i hi
        omega
    · simp only [hnext₁]
      have hsucc : lbaBytes * (r.openEBNextIndex + 1) = lbaBytes * r.openEBNextIndex + lbaBytes :=
        Nat.mul_succ _ _
      have hw' : s.Working := hw
      refine ((hnext ▸ hpart.blank hw').mono (by omega) (by omega)).congr fun o ho' _ =>
        program_frame fun hin => ?_
      have := hin.2.2
      rw [data.2] at this
      omega
  · rcases List.mem_cons.mp he with rfl | he
    · refine ⟨fun a ha i hi => ?_, fun _ => ⟨rfl, data.2⟩⟩
      rw [data.2]
      have hne : i ≠ r.openEBNextIndex := by
        rintro rfl
        exact hat.free a ha hi
      rw [lbaBytes]
      omega
    · exact h.safe e he
  · have hw' : s.Working := hw
    refine program_fine (s := { s with ram := r }) hw' hat.lt (by rw [data.2]; omega) ?_ ?_ ?_
      (h.fine hw')
    · rw [lbaBytes, flashWriteBufferSize]
      omega
    · rw [data.2]
      decide
    · rw [data.2, hcomm, hnext]
      exact (hpart.blank hw').mono le_rfl (by rw [hnext] at hbytes; omega)
  · have hold := h.contents (fun e he => hfine e (List.mem_cons_of_mem _ he)) lba' hlba'
    rcases eq_or_ne lba' lba with rfl | hne
    · -- the sector just written
      have hread := readBytes_of_program hfine
      rw [data.2] at hread
      rw [Function.update_self]
      exact Subtype.ext ((contents_of_loc (by rw [hloc, Function.update_self])).trans hread)
    · rw [Function.update_of_ne hne, ← hold]
      refine Move.contents_congr ?_ fun e i hi o ho' ho'' => program_frame fun hin => ?_
      · rw [hloc, Function.update_of_ne hne, hfind]
      · obtain ⟨rfl, hlo, hhi⟩ := hin
        have hne' : i ≠ r.openEBNextIndex := by
          rintro rfl
          exact hat.free lba' hlba' (by rw [hfind]; exact hi)
        rw [data.2] at hhi
        rw [lbaBytes] at *
        omega

/-- **A sector is trimmed**. -/
theorem Sound.dropLBA {i : ℕ} (h : Sound g.toDims disk s) (hlba : lba < g.flashLBAs)
    (hsome : s.ram.findLBA g.toDims lba = some (eb, i)) :
    Sound g.toDims (Function.update disk lba zeros)
      { s with ram := dropLBA g.toDims s.ram lba } := by
  have hacc := accounted_dropLBA h.acc hlba hsome
  obtain ⟨hl2p, -, -, hmetas, -, hopen, hnext, -, hgc⟩ :=
    dropLBA_frame g s.ram lba
  have hloc := Ram.findLBA_of_clear_l2p (g := g.toDims) hl2p
  obtain ⟨hmeta, hpos⟩ := h.acc.placed.state_of_loc hlba hsome
  have heb := (h.acc.placed.bounds lba hlba eb i hsome).1
  obtain ⟨hst, -⟩ := dropLBA_ebState hsome hpos (h.acc.placed.state_le heb)
  have hother : ∀ e, e ≠ eb → (Ftl.dropLBA g.toDims s.ram lba).ebState e = s.ram.ebState e :=
    fun e hne => by rw [hst, Function.update_of_ne hne]
  have hself : (Ftl.dropLBA g.toDims s.ram lba).ebState eb = s.ram.ebState eb - 1 := by
    rw [hst, Function.update_self]
  have hle := h.acc.placed.state_le heb
  refine ⟨⟨hmetas ▸ h.shape.metas, hgc ▸ h.shape.gcEB, fun e he => h.shape.open_lt e (hopen ▸ he),
    hnext ▸ h.shape.next, fun hnone => hnext ▸ h.shape.closed (hopen ▸ hnone)⟩, ?_, fun e he => ?_,
    h.safe, h.fine, fun hfine lba' hlba' => ?_⟩
  · have hdrift : openDrift (Ftl.dropLBA g.toDims s.ram lba) = openDrift s.ram +
        if s.ram.ebState eb = 1 ∧ s.ram.openEB = some eb then 1 else 0 := by
      rw [openDrift, hopen, openDrift]
      rcases ho : s.ram.openEB with _ | e
      · simp
      · dsimp only
        rcases eq_or_ne e eb with rfl | hne
        · rw [hself]
          simp only [and_true]
          split_ifs <;> omega
        · rw [hother e hne]
          simp [hne]
    rw [hdrift, show (Ftl.dropLBA g.toDims s.ram lba).metaEBList = s.ram.metaEBList from hmetas]
    exact hacc
  · obtain ⟨hm, hbelow, hblank⟩ := h.filling e (hopen ▸ he)
    refine ⟨?_, fun a ha j hj => ?_, fun hw => ?_⟩
    · rcases eq_or_ne e eb with rfl | hne
      · exact hself ▸ (by omega)
      · rw [show _ = _ from hother e hne]
        exact hm
    · simp only [hloc] at hj
      simp only [hnext]
      rcases eq_or_ne a lba with rfl | hne
      · rw [Function.update_self] at hj
        cases hj
      · rw [Function.update_of_ne hne] at hj
        exact hbelow a ha j hj
    · simp only [hnext]
      exact hblank hw
  · have hold := h.contents hfine lba' hlba'
    rcases eq_or_ne lba' lba with rfl | hne
    · rw [Function.update_self, Volume.contents, hloc, Function.update_self]
    · rw [Function.update_of_ne hne, ← hold]
      exact Move.contents_congr (by rw [hloc, Function.update_of_ne hne]) fun _ _ _ _ _ _ => rfl

/-- **Counting a change**, and the persist that every 256th change brings. -/
theorem Sound.ageMetadata (h : Sound g.toDims disk s)
    (hopen : (s.ram.metadataAge + 1) % 256 = 0 → OpenLive g.toDims s.ram)
    (hres : s.ageMetadata g.toDims = some s') : Sound g.toDims disk s' := by
  rcases ageMetadata_cases g.toDims s with ⟨hage, -⟩ | ⟨-, heq⟩
  · have hlive := hopen hage
    have hacc := h.acc
    rw [openDrift_of_live hlive] at hacc
    exact h.settle hlive (ageMetadata_spec hacc h.shape.gcEB hres)
  · rw [heq] at hres
    cases hres
    exact ⟨⟨h.shape.metas, h.shape.gcEB, h.shape.open_lt, h.shape.next, h.shape.closed⟩,
      ⟨h.acc.placed, h.acc.wear, h.acc.metas, h.acc.empties⟩, fun eb heb => by
        obtain ⟨hm, hbelow, hblank⟩ := h.filling eb heb
        exact ⟨hm, hbelow, hblank⟩, h.safe, h.fine, h.contents⟩

end

end Ftl

namespace Volume

variable {g : Geometry} {v v' : Volume}

/-! ### Runs -/

/-- The steps that keep the sectors: the object is started once, on a flash whose copies have
tables that agree, and a persist happens only while the block being filled holds a live sector. -/
def steady (g : Dims) (v : Volume) : Op → Prop
  | .format => v.mounted = false
  | .start => v.mounted = false ∧ Loader.CopiesAgree g v.ftl.flash
  | .write _ _ => True
  | .trim lba => lba < g.flashLBAs → (v.ftl.ram.findLBA g lba).isSome →
      (v.ftl.ram.metadataAge + 1) % 256 = 0 → Ftl.OpenLive g (Ftl.dropLBA g v.ftl.ram lba)
  | .persist => Ftl.OpenLive g v.ftl.ram

/-- The invariant of steady runs. -/
structure Steady (g : Dims) (v : Volume) : Prop where
  shape : Ftl.Shape g v.ftl.ram
  fresh : v.mounted = false → v.ftl.ram.openEB = none ∧ v.ftl.log = []
  sound : v.mounted = true → Ftl.Sound g v.disk v.ftl

end Volume

namespace Ftl

variable {g : Geometry} {s s' : Ftl}

/-- The calls of `format` are erases, and no sector lives anywhere. -/
theorem format_calls (s : Ftl) :
    ∃ new, (s.format g.toDims).log = new ++ s.log ∧
      ∀ e ∈ new, (∃ eb, e.op = .erase eb) ∧ e.ram = (s.format g.toDims).ram := by
  have key : ∀ (l : List ℕ) (s : Ftl), ∃ new, (l.foldl (fun s i =>
      if hasSig s.flash i then s.eraseBlock g.toDims i else s) s).log = new ++ s.log ∧
      ∀ e ∈ new, (∃ eb, e.op = .erase eb) ∧ e.ram = s.ram := by
    intro l
    induction l with
    | nil => exact fun s => ⟨[], rfl, by simp⟩
    | cons i l ih =>
      intro s
      rw [List.foldl_cons]
      split_ifs with hsig
      · obtain ⟨new, hlog, hnew⟩ := ih (s.eraseBlock g.toDims i)
        refine ⟨new ++ [_], by rw [hlog, List.append_assoc]; rfl, fun e he => ?_⟩
        rcases List.mem_append.mp he with he | he
        · exact hnew e he
        · obtain rfl := List.mem_singleton.mp he
          exact ⟨⟨i, rfl⟩, rfl⟩
      · exact ih s
  obtain ⟨new, hlog, hnew⟩ := key (List.range g.eraseBlocks)
    { s with ram := { formatTables g.toDims s.ram with metadataAge := 0 } }
  refine ⟨new, hlog, fun e he => ⟨(hnew e he).1, ?_⟩⟩
  rw [(hnew e he).2, (format_ram s).1]

/-- A formatted volume reads as zeros. -/
theorem sound_format (hs : Shape g.toDims s.ram) (hopen : s.ram.openEB = none) (hlog : s.log = []) :
    Sound g.toDims (fun _ => zeros) (s.format g.toDims) := by
  have hc := format_cleared hs.metas
  have hopen' := hc.openEB.1.trans hopen
  have hnone : ∀ eb, (s.format g.toDims).ram.openEB ≠ some eb := fun eb heb => by
    rw [hopen'] at heb
    cases heb
  obtain ⟨new, hnew, hcalls⟩ := format_calls (g := g) s
  rw [hlog, List.append_nil] at hnew
  refine ⟨hc.shape hs, ?_, fun eb heb => absurd heb (hnone eb), fun e he => ?_, fun _ e he => ?_,
    fun _ lba _ => ?_⟩
  · rw [openDrift_of_none hopen']
    exact hc.accounted hs.metas
  · obtain ⟨⟨eb, hop⟩, hram⟩ := hcalls e (hnew ▸ he)
    simp only [Entry.Safe, hop, hram]
    refine ⟨fun lba _ idx hloc => ?_, hnone eb⟩
    rw [hc.findLBA] at hloc
    cases hloc
  · obtain ⟨⟨eb, hop⟩, -⟩ := hcalls e (hnew ▸ he)
    simp only [Entry.Fine, hop]
  · rw [Volume.contents, hc.findLBA]

/-- A volume holds what `start` finds on it. -/
theorem sound_start (hs : Shape g.toDims s.ram) (hopen : s.ram.openEB = none) (hlog : s.log = [])
    (hcopies : Loader.CopiesAgree g.toDims s.flash) (h : s.start g.toDims = .ok s') :
    Sound g.toDims (Volume.contents g.toDims s') s' := by
  obtain ⟨hshape, hacc⟩ := start_accounted hs hcopies h
  cases start_spec hs.metas h with
  | taken epoch r htried hpos hverdict hl =>
    have hnone : r.openEB = none := hl.openEB.trans hopen
    refine ⟨hshape, ?_, fun eb heb => ?_, fun e he => ?_, fun _ e he => ?_, fun _ _ _ => rfl⟩
    · exact (openDrift_of_none (r := { r with metadataAge := 0 }) hnone).symm ▸ hacc
    · rw [show _ = none from hnone] at heb
      cases heb
    · rw [show _ = [] from hlog] at he
      cases he
    · rw [show _ = [] from hlog] at he
      cases he
  | formatted r hr hall =>
    have hrshape : Shape g.toDims r := ⟨hr.metaEBList, hr.gcEB ▸ hs.gcEB,
      fun eb heb => hs.open_lt eb (hr.openEB ▸ heb), hr.openEBNextIndex ▸ hs.next,
      fun hnone => hr.openEBNextIndex ▸ hs.closed (hr.openEB ▸ hnone)⟩
    obtain ⟨hsh, hac, hfill, hsafe, hfine, -⟩ :=
      sound_format (s := { s with ram := r }) hrshape (hr.openEB.trans hopen) hlog
    exact ⟨hsh, hac, hfill, hsafe, hfine, fun _ _ _ => rfl⟩

end Ftl

namespace Volume

variable {g : Geometry} {v v' : Volume}

/-- **Step lemma**. -/
theorem Steady.step {op : Op} (h : Steady g.toDims v) (hg : steady g.toDims v op)
    (hstep : (machine g.toDims).step v op = some v') : Steady g.toDims v' := by
  obtain ⟨hs, hfresh, hsound⟩ := h
  -- a step that ends with a mounted, sound volume is all that is needed
  have done : ∀ {disk : ℕ → Sector} {s : Ftl}, Ftl.Sound g.toDims disk s →
      Steady g.toDims { ftl := s, mounted := true, disk := disk } := fun hsnd =>
    ⟨hsnd.shape, fun hm => (by cases hm), fun _ => hsnd⟩
  cases op with
  | format =>
    cases hstep
    obtain ⟨hopen, hlog⟩ := hfresh hg
    exact done (Ftl.sound_format hs hopen hlog)
  | start =>
    obtain ⟨hm, hcopies⟩ := hg
    obtain ⟨hopen, hlog⟩ := hfresh hm
    simp only [machine, Volume.step] at hstep
    rcases hstart : v.ftl.start g.toDims with fault | s'
    · simp [hstart] at hstep
    · simp only [hstart, Option.some.injEq] at hstep
      exact hstep ▸ done (Ftl.sound_start hs hopen hlog hcopies hstart)
  | write lba data =>
    simp only [machine, Volume.step] at hstep
    split_ifs at hstep with hm
    obtain ⟨⟨ok, s'⟩, hwrite, hstep⟩ := Option.bind_eq_some_iff.mp hstep
    cases hstep
    have hsnd := hsound hm
    rw [hm]
    refine done ?_
    cases Ftl.write_cases hwrite with
    | outside => exact hsnd
    | full s₁ hlba hopen hselect =>
      have hlive : Ftl.OpenLive g.toDims v.ftl.ram := fun e he => by rw [hopen] at he; cases he
      have hacc := hsnd.acc
      rw [Ftl.openDrift_of_live hlive] at hacc
      have hset := (Ftl.selectBestEB_spec hacc hs.gcEB hopen hselect).1 rfl
      have hsame : { s₁ with ram := { s₁.ram with openEB := none } } = s₁ := by
        have hnone := hset.moves.openEB.1.trans hopen
        rw [← hnone]
      rw [hsame]
      exact hsnd.settle hlive hset
    | goesOn eb _ hlba hopen hage =>
      obtain ⟨hsnd', hlive⟩ := hsnd.writeOpen data hopen hlba
      exact hsnd'.ageMetadata (fun _ => hlive) hage
    | opens eb s₁ _ hlba hopen hselect hage =>
      have hlive : Ftl.OpenLive g.toDims v.ftl.ram := fun e he => by rw [hopen] at he; cases he
      have hacc := hsnd.acc
      rw [Ftl.openDrift_of_live hlive] at hacc
      have hchosen := (Ftl.selectBestEB_spec hacc hs.gcEB hopen hselect).2 eb rfl
      obtain ⟨hsnd', hlive'⟩ := (hsnd.open hopen hchosen).writeOpen data rfl hlba
      exact hsnd'.ageMetadata (fun _ => hlive') hage
  | trim lba =>
    simp only [machine, Volume.step] at hstep
    split_ifs at hstep with hm
    obtain ⟨⟨ok, s'⟩, htrim, hstep⟩ := Option.bind_eq_some_iff.mp hstep
    cases hstep
    have hsnd := hsound hm
    rw [hm]
    refine done ?_
    cases Ftl.trim_cases htrim with
    | outside => exact hsnd
    | unmapped hlba hnone =>
      -- an unmapped sector reads as zeros already
      refine ⟨hsnd.shape, hsnd.acc, hsnd.filling, hsnd.safe, hsnd.fine, fun hfine a ha => ?_⟩
      have hold := hsnd.contents hfine a ha
      rcases eq_or_ne a lba with rfl | hne
      · simp only [if_true, Function.update_self]
        rw [contents, hnone]
      · simp only [if_true, Function.update_of_ne hne]
        exact hold
    | dropped eb i _ hlba hsome hage =>
      obtain ⟨-, -, -, -, -, -, -, hcount, -⟩ :=
        Ftl.dropLBA_frame g v.ftl.ram lba
      exact (hsnd.dropLBA hlba hsome).ageMetadata
        (fun h256 => hg hlba (by rw [hsome]; rfl) (hcount ▸ h256)) hage
  | persist =>
    simp only [machine, Volume.step] at hstep
    split_ifs at hstep with hm
    obtain ⟨s', hpersist, hstep⟩ := Option.map_eq_some_iff.mp hstep
    cases hstep
    have hsnd := hsound hm
    have hacc := hsnd.acc
    rw [Ftl.openDrift_of_live hg] at hacc
    rw [hm]
    exact done
      (hsnd.settle hg (Ftl.persist_spec hacc (Ftl.standing_empty g v.ftl) hs.gcEB hpersist).1)

/-- Every sector reads as it should, the block being filled is not metadata, and no call has
erased or programmed what was live or was being filled. -/
structure Faithful (g : Dims) (v : Volume) : Prop where
  read : ∀ lba < g.flashLBAs, ∀ dest, v.ftl.read g lba dest = (true, (v.disk lba).1)
  filling : ∀ eb, v.ftl.ram.openEB = some eb → v.ftl.ram.ebState eb ≠ ebMeta
  safe : ∀ e ∈ v.ftl.log, e.Safe g

end Volume

end Ch32h4.Spiftl
