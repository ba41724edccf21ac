import Ch32h4.Spiftl.Equiv.Moves

/-!
# Collecting garbage

`garbageCollect`, `metaAgeRewrite` and `selectBestEB` are sequences of moves that keep the
accounts.  The destination of a collection is a block of its own while it fills: `Filling` says
that its slots are used from the bottom up, that the slots above are blank, and that it is an
empty block that `emptyEBs` has stopped counting until its first sector arrives.

Every function of this kind leads from accounts that are right to a `Settled` state: the accounts
are right again, the data moved only by moves, and the same sectors are mapped.
-/

namespace Ch32h4.Spiftl

open Flash

namespace Ftl

/-! ### Erasing a block -/

section

variable (r : Ram) (eb : ℕ)

theorem wearEB_frame : (wearEB r eb).l2p = r.l2p ∧ (wearEB r eb).ebState = r.ebState ∧
    (wearEB r eb).emptyEBs = r.emptyEBs ∧ (wearEB r eb).openEB = r.openEB ∧
    (wearEB r eb).openEBNextIndex = r.openEBNextIndex ∧
    (wearEB r eb).metaEBList = r.metaEBList := by
  rw [wearEB]
  split_ifs <;> exact ⟨rfl, rfl, rfl, rfl, rfl, rfl⟩

theorem wearEB_l2p : (wearEB r eb).l2p = r.l2p := (wearEB_frame r eb).1

theorem wearEB_ebState : (wearEB r eb).ebState = r.ebState := (wearEB_frame r eb).2.1

theorem wearEB_findLBA (g : Dims) : (wearEB r eb).findLBA g = r.findLBA g :=
  Ram.findLBA_congr (wearEB_l2p r eb)

end

section

variable {g : Geometry} {K : Set ℕ} {drift : ℤ} {l : List (Option ℕ)} {s : Ftl} {eb : ℕ}

theorem eraseEB_ebState (s : Ftl) (eb : ℕ) :
    (s.eraseEB g.toDims eb).ram.ebState = Function.update s.ram.ebState eb 0 := by
  rw [eraseEB, Ram.setEBState_ebState _ (by decide), wearEB_ebState, eraseBlock_ram]

/-- A block that is empty or metadata, and on no account, is idle. -/
theorem Idle.of_state (h : Placed g.toDims (s.ram.findLBA g.toDims) s.ram.ebState)
    (heb : eb < g.eraseBlocks) (hst : s.ram.ebState eb = 0 ∨ s.ram.ebState eb = ebMeta) :
    Idle g.toDims s.ram eb :=
  ⟨heb, hst, fun _ hlba _ => h.not_loc hst hlba⟩

/-- `eraseEB` of an idle block is two moves. -/
theorem moves_eraseEB (h : Idle g.toDims s.ram eb) (hk : eb ∉ K) :
    Moves g.toDims K s (s.eraseEB g.toDims eb) := by
  refine .tail (.single (.erase s eb h hk)) (.tables _ _ ?_ ?_ ?_ fun e hne => ?_)
  · exact wearEB_l2p _ _
  · exact (wearEB_frame _ _).2.2.2.1
  · exact (wearEB_frame _ _).2.2.2.2.1
  · rcases eq_or_ne e eb with rfl | he
    · exact h.state
    · refine absurd ?_ hne
      rw [Ram.setEBState_ebState _ (by decide), Function.update_of_ne he, wearEB_ebState]

/-- Erasing an empty block only wears it. -/
theorem accounted_eraseEB (h : Accounted g.toDims drift l s.ram) (heb : eb < g.eraseBlocks)
    (hst : s.ram.ebState eb = 0) :
    Accounted g.toDims drift l (s.eraseEB g.toDims eb).ram := by
  have hsame : (s.eraseEB g.toDims eb).ram.ebState = s.ram.ebState := by
    rw [eraseEB_ebState, ← hst, Function.update_eq_self]
  have hloc : (s.eraseEB g.toDims eb).ram.findLBA g.toDims = s.ram.findLBA g.toDims :=
    wearEB_findLBA _ _ _
  have hempty : (s.eraseEB g.toDims eb).ram.emptyEBs = s.ram.emptyEBs := (wearEB_frame _ _).2.2.1
  exact ⟨hloc ▸ hsame ▸ h.placed, h.wear.wearEB heb, hsame ▸ h.metas, by
    rw [hsame, hempty]; exact h.empties⟩

/-- The block `lowestEmptyEB` returns is empty. -/
theorem lowestEmptyEB_spec {r : Ram} {g : Dims} (h : r.lowestEmptyEB g = some eb) :
    eb < g.eraseBlocks ∧ r.ebState eb = 0 := by
  refine List.foldlRecOn (motive := fun lowest : ℕ × Option ℕ => ∀ e, lowest.2 = some e →
    e < g.eraseBlocks ∧ r.ebState e = 0) _ _ (fun e he => by cases he) ?_ eb h
  intro lowest hlowest i hi e he
  split_ifs at he with hc
  · obtain rfl := Option.some.inj he
    exact ⟨List.mem_range.mp hi, hc.2⟩
  · exact hlowest e he

end

/-! ### Moving one sector -/

section

variable {g : Geometry} {r : Ram} {src dest lba idx : ℕ}

theorem moveLBA_frame (g : Geometry) (r : Ram) (src dest lba idx : ℕ) :
    (moveLBA g.toDims r src dest lba idx).l2p =
      Function.update r.l2p lba (g.makeL2P idx dest) ∧
    (moveLBA g.toDims r src dest lba idx).peCount = r.peCount ∧
    (moveLBA g.toDims r src dest lba idx).highestPECount = r.highestPECount ∧
    (moveLBA g.toDims r src dest lba idx).openEB = r.openEB ∧
    (moveLBA g.toDims r src dest lba idx).openEBNextIndex = r.openEBNextIndex ∧
    (moveLBA g.toDims r src dest lba idx).metaEBList = r.metaEBList ∧
    (moveLBA g.toDims r src dest lba idx).validLBAs = r.validLBAs ∧
    (moveLBA g.toDims r src dest lba idx).gcEB = r.gcEB := by
  simp only [moveLBA]
  split_ifs <;> exact ⟨rfl, rfl, rfl, rfl, rfl, rfl, rfl, rfl⟩

theorem moveLBA_ebState (lba idx : ℕ) (hne : src ≠ dest) (hpos : 0 < r.ebState src)
    (hle : r.ebState src ≤ ebMeta) (hdest : r.ebState dest < ebMeta) :
    (moveLBA g.toDims r src dest lba idx).ebState =
      Function.update (Function.update r.ebState src (r.ebState src - 1)) dest
        (r.ebState dest + 1) := by
  have hclear := r.clearLBAValid_ebState hpos hle
  have hstate : ∀ r' : Ram, r'.ebState = (r.clearLBAValid src).ebState →
      (r'.setEBState dest (r'.ebState dest + 1)).ebState =
        Function.update (Function.update r.ebState src (r.ebState src - 1)) dest
          (r.ebState dest + 1) := by
    intro r' hr'
    have hval : r'.ebState dest = r.ebState dest := by
      rw [hr', hclear, Function.update_of_ne hne.symm]
    have hlt : r.ebState dest + 1 < 256 := by rw [ebMeta] at hdest; omega
    rw [hval, Ram.setEBState_ebState _ hlt, hr', hclear]
  simp only [moveLBA]
  split_ifs <;> exact hstate _ rfl

theorem moveLBA_emptyEBs (hpos : 0 < r.ebState src) (hle : r.ebState src ≤ ebMeta) :
    (moveLBA g.toDims r src dest lba idx).emptyEBs =
      r.emptyEBs + if r.ebState src = 1 then 1 else 0 := by
  have hiff : (r.clearLBAValid src).ebState src = 0 ↔ r.ebState src = 1 := by
    rw [r.clearLBAValid_ebState hpos hle, Function.update_self]
    omega
  simp only [moveLBA]
  by_cases hone : r.ebState src = 1
  · rw [if_pos (hiff.mpr hone), if_pos hone]
    rfl
  · rw [if_neg (mt hiff.mp hone), if_neg hone, add_zero]
    rfl

end

/-! ### The destination -/

/-- The destination of a collection, filled up to slot `idx`. -/
structure Filling (g : Geometry) (l : List (Option ℕ)) (dest idx : ℕ) (s : Ftl) : Prop where
  acc : Accounted g.toDims (if idx = 0 then 1 else 0) l s.ram
  lt : dest < g.eraseBlocks
  count : s.ram.ebState dest = idx
  le : idx ≤ 8
  below : ∀ lba < g.flashLBAs, ∀ i, s.ram.findLBA g.toDims lba = some (dest, i) → i < idx
  blank : s.Working → Blank s.flash dest (lbaBytes * idx) (g.ebBytes - lbaBytes * idx)
  not_open : s.ram.openEB = none

/-- What maintenance leaves as it is: which sectors are mapped, and how many. -/
structure Kept (r r' : Ram) : Prop where
  validLBAs : r'.validLBAs = r.validLBAs
  mapped : ∀ lba, l2pVal (r'.l2p lba) = l2pVal (r.l2p lba)

theorem Kept.refl (r : Ram) : Kept r r := ⟨rfl, fun _ => rfl⟩

theorem Kept.of_l2p {r r' : Ram} (hl2p : r'.l2p = r.l2p) (hvalid : r'.validLBAs = r.validLBAs) :
    Kept r r' :=
  ⟨hvalid, fun _ => by rw [hl2p]⟩

theorem Kept.trans {r r' r'' : Ram} (h : Kept r r') (h' : Kept r' r'') : Kept r r'' :=
  ⟨h'.validLBAs.trans h.validLBAs, fun lba => (h'.mapped lba).trans (h.mapped lba)⟩

/-- What moving sectors from `src` to `dest`, from slot `idx` up to `idx'`, does to the tables. -/
structure Moved (src dest idx idx' : ℕ) (r r' : Ram) : Prop extends Kept r r' where
  le : idx ≤ idx'
  sum : r'.ebState src + idx' = r.ebState src + idx
  other : ∀ eb, eb ≠ src → eb ≠ dest → r'.ebState eb = r.ebState eb
  peCount : r'.peCount = r.peCount
  highestPECount : r'.highestPECount = r.highestPECount
  metaEBList : r'.metaEBList = r.metaEBList
  gcEB : r'.gcEB = r.gcEB

theorem Moved.refl (src dest idx : ℕ) (r : Ram) : Moved src dest idx idx r r :=
  ⟨.refl r, le_rfl, rfl, fun _ _ _ => rfl, rfl, rfl, rfl, rfl⟩

theorem Moved.trans {src dest idx idx' idx'' : ℕ} {r r' r'' : Ram}
    (h : Moved src dest idx idx' r r') (h' : Moved src dest idx' idx'' r' r'') :
    Moved src dest idx idx'' r r'' :=
  ⟨h.toKept.trans h'.toKept, h.le.trans h'.le, h'.sum.trans h.sum,
    fun eb h₁ h₂ => (h'.other eb h₁ h₂).trans (h.other eb h₁ h₂),
    h'.peCount.trans h.peCount, h'.highestPECount.trans h.highestPECount,
    h'.metaEBList.trans h.metaEBList, h'.gcEB.trans h.gcEB⟩

section

variable {g : Geometry} {K : Set ℕ} {l : List (Option ℕ)} {src dest idx lba : ℕ} {s : Ftl}

/-- The accounts after one sector has moved. -/
theorem accounted_moveLBA {r : Ram} {i : ℕ}
    (h : Accounted g.toDims (if idx = 0 then 1 else 0) l r)
    (hlba : lba < g.flashLBAs) (hloc : r.findLBA g.toDims lba = some (src, i))
    (hne : src ≠ dest) (hdest : dest < g.eraseBlocks) (hidx : idx < g.slotsPerEB)
    (hcount : r.ebState dest = idx)
    (hfree : ∀ lba' < g.flashLBAs, r.findLBA g.toDims lba' ≠ some (dest, idx)) :
    Accounted g.toDims 0 l (moveLBA g.toDims r src dest lba idx) := by
  obtain ⟨hmeta, hpos⟩ := h.placed.state_of_loc hlba hloc
  have hsrc := (h.placed.bounds lba hlba src i hloc).1
  have hle := h.placed.state_le hsrc
  have hidx' : r.ebState dest < ebMeta := hcount ▸ hidx.trans g.slots_lt
  obtain ⟨hl2p, hpe, hhigh, -⟩ := moveLBA_frame g r src dest lba idx
  have hst := moveLBA_ebState (g := g) lba idx hne hpos hle hidx'
  have hloc' := Ram.findLBA_of_update_l2p hl2p hdest hidx
  have hsrc' : Function.update r.ebState src (r.ebState src - 1) dest = idx := by
    rw [Function.update_of_ne hne.symm, hcount]
  refine ⟨?_, ?_, ?_, ?_⟩
  · -- the sector gives up its slot and takes the new one
    have hdrop := h.placed.drop hlba hloc
    have hplace := hdrop.place hlba (Function.update_self ..) hdest hidx
      (by rw [hsrc', ← hcount]; exact hidx'.ne) fun lba' hlba' heq => ?_
    · rw [Function.update_idem, hsrc'] at hplace
      rw [hloc', hst, hcount]
      exact hplace
    · rcases eq_or_ne lba' lba with rfl | hl
      · rw [Function.update_self] at heq
        cases heq
      · rw [Function.update_of_ne hl] at heq
        exact hfree lba' hlba' heq
  · rw [hpe, hhigh]
    exact h.wear
  · refine h.metas.congr fun e he => ?_
    rw [hst]
    rcases eq_or_ne e dest with rfl | hed
    · rw [Function.update_self]
      have := g.slots_lt
      omega
    · rw [Function.update_of_ne hed]
      rcases eq_or_ne e src with rfl | hes
      · rw [Function.update_self]
        omega
      · rw [Function.update_of_ne hes]
  · rw [hst, hcount, moveLBA_emptyEBs hpos hle, add_zero]
    have hempties := h.empties
    have hafter : emptyCount g.toDims (Function.update r.ebState src (r.ebState src - 1)) =
        emptyCount g.toDims r.ebState + if r.ebState src = 1 then 1 else 0 := by
      split_ifs with hone
      · rw [hone]
        exact emptyCount_gain hsrc (by omega)
      · exact emptyCount_same (by omega)
    have hfill : emptyCount g.toDims (Function.update
          (Function.update r.ebState src (r.ebState src - 1)) dest (idx + 1)) +
        (if idx = 0 then 1 else 0) =
        emptyCount g.toDims (Function.update r.ebState src (r.ebState src - 1)) := by
      split_ifs with hzero
      · exact emptyCount_loss hdest (by rw [hsrc', hzero]) (by omega)
      · exact emptyCount_same (by rw [hsrc']; omega)
    split_ifs at * <;> omega

/-- One round of `collectValidLBAs`. -/
theorem Filling.collectLBA (h : Filling g l dest idx s) (hk : dest ∉ K) (hne : src ≠ dest)
    (hlba : lba < g.flashLBAs) :
    ∃ idx' s', collectLBA g.toDims src dest (idx, s) lba = (idx', s') ∧
      Filling g l dest idx' s' ∧ Moves g.toDims K s s' ∧ Moved src dest idx idx' s.ram s'.ram ∧
      (idx' < 8 → ∀ i, s'.ram.findLBA g.toDims lba ≠ some (src, i)) ∧
      ∀ a i, s'.ram.findLBA g.toDims a = some (src, i) →
        s.ram.findLBA g.toDims a = some (src, i) := by
  by_cases hc : idx < 8 ∧ g.l2pEb (s.ram.l2p lba) = src ∧ l2pVal (s.ram.l2p lba) = true
  swap
  · refine ⟨idx, s, by rw [Ftl.collectLBA, if_neg hc], h, .refl, .refl .., fun hlt i hi => ?_,
      fun _ _ hi => hi⟩
    obtain ⟨hval, heb, -⟩ := Ram.findLBA_eq_some.mp hi
    exact hc ⟨hlt, heb, hval⟩
  obtain ⟨hlt, heb, hval⟩ := hc
  have hloc : s.ram.findLBA g.toDims lba = some (src, g.l2pIdx (s.ram.l2p lba)) :=
    Ram.findLBA_eq_some.mpr ⟨hval, heb, rfl⟩
  have hidx : idx < g.slotsPerEB := hlt.trans_le g.eight_le
  have hfree : ∀ lba' < g.flashLBAs, s.ram.findLBA g.toDims lba' ≠ some (dest, idx) :=
    fun lba' hlba' heq => (h.below lba' hlba' idx heq).ne rfl
  obtain ⟨hmeta, hpos⟩ := h.acc.placed.state_of_loc hlba hloc
  have hsrc := (h.acc.placed.bounds lba hlba src _ hloc).1
  have hle := h.acc.placed.state_le hsrc
  have hdest' : s.ram.ebState dest < ebMeta := h.count ▸ hidx.trans g.slots_lt
  have hst := moveLBA_ebState (g := g) lba idx hne hpos hle hdest'
  obtain ⟨hl2p, hpe, hhigh, hopen, hnext, hmetas, hvalid, hgc⟩ := moveLBA_frame g s.ram src dest
    lba idx
  have hloc' := Ram.findLBA_of_update_l2p hl2p h.lt hidx
  have hbytes : lbaBytes * idx + lbaBytes ≤ g.ebBytes := by
    rw [g.ebBytes_eq, ← Nat.mul_succ]
    exact Nat.mul_le_mul_left _ hidx
  have hsucc : lbaBytes * (idx + 1) = lbaBytes * idx + lbaBytes := Nat.mul_succ _ _
  refine ⟨idx + 1, _, by rw [Ftl.collectLBA, if_pos ⟨hlt, heb, hval⟩], ⟨?_, h.lt, ?_, hlt, ?_, ?_, ?_⟩,
    .single (.copy s lba src _ dest idx _ h.not_open hlba hloc h.lt hidx hfree
      (fun hs => (h.blank hs).mono le_rfl (by omega)) hloc' (hopen.trans h.not_open) hnext hk),
    ⟨⟨hvalid, fun a => ?_⟩, Nat.le_succ idx, ?_, fun e h₁ h₂ => ?_, hpe, hhigh, hmetas, hgc⟩,
    fun _ i hi => ?_, fun a i hi => ?_⟩
  · exact accounted_moveLBA h.acc hlba hloc hne h.lt hidx h.count hfree
  · exact (congrFun hst dest).trans (by rw [Function.update_self, h.count])
  · intro a ha i hi
    rw [hloc'] at hi
    rcases eq_or_ne a lba with rfl | hal
    · rw [Function.update_self] at hi
      simp only [Option.some.injEq, Prod.mk.injEq, true_and] at hi
      omega
    · rw [Function.update_of_ne hal] at hi
      exact (h.below a ha i hi).trans (Nat.lt_succ_self _)
  · intro hs
    have hs' : s.Working := by
      have := (copyPages_outcome g.toDims s src (lbaBytes * g.l2pIdx (s.ram.l2p lba)) dest
        (lbaBytes * idx) (lbaBytes / flashWriteBufferSize))
      exact fun n => (congrFun this n) ▸ hs n
    refine ((h.blank hs').mono (by omega) (by omega)).congr fun o ho _ => ?_
    have hout : ¬ InRange dest (lbaBytes * idx)
        (lbaBytes / flashWriteBufferSize * flashWriteBufferSize) dest o := by
      rw [lbaBytes_pages]
      rintro ⟨-, -, hhi⟩
      omega
    exact copyPages_frame hout
  · exact hopen.trans h.not_open
  · rw [hl2p]
    rcases eq_or_ne a lba with rfl | hal
    · rw [Function.update_self, Geometry.l2pVal_makeL2P, hval]
    · rw [Function.update_of_ne hal]
  · have := congrFun hst src
    rw [Function.update_of_ne hne, Function.update_self] at this
    simp only [this]
    omega
  · exact (congrFun hst e).trans (by rw [Function.update_of_ne h₂, Function.update_of_ne h₁])
  · rw [hloc', Function.update_self] at hi
    simp only [Option.some.injEq, Prod.mk.injEq] at hi
    exact hne hi.1.symm
  · rw [hloc'] at hi
    rcases eq_or_ne a lba with rfl | hal
    · rw [Function.update_self] at hi
      simp only [Option.some.injEq, Prod.mk.injEq] at hi
      exact absurd hi.1.symm hne
    · rwa [Function.update_of_ne hal] at hi

/-- `collectValidLBAs` over the entries of a list. -/
theorem Filling.foldl_collectLBA (h : Filling g l dest idx s) (hk : dest ∉ K) (hne : src ≠ dest)
    (ls : List ℕ) (hls : ∀ lba ∈ ls, lba < g.flashLBAs) :
    ∃ idx' s', ls.foldl (Ftl.collectLBA g.toDims src dest) (idx, s) = (idx', s') ∧
      Filling g l dest idx' s' ∧ Moves g.toDims K s s' ∧ Moved src dest idx idx' s.ram s'.ram ∧
      (idx' < 8 → ∀ lba ∈ ls, ∀ i, s'.ram.findLBA g.toDims lba ≠ some (src, i)) ∧
      ∀ a i, s'.ram.findLBA g.toDims a = some (src, i) →
        s.ram.findLBA g.toDims a = some (src, i) := by
  induction ls generalizing idx s with
  | nil => exact ⟨idx, s, rfl, h, .refl, .refl .., by simp, fun _ _ hi => hi⟩
  | cons lba ls ih =>
    obtain ⟨idx₁, s₁, heq₁, hfill₁, hmoves₁, hmoved₁, hgone₁, hback₁⟩ :=
      h.collectLBA hk hne (hls lba List.mem_cons_self)
    obtain ⟨idx₂, s₂, heq₂, hfill₂, hmoves₂, hmoved₂, hgone₂, hback₂⟩ :=
      ih hfill₁ fun a ha => hls a (List.mem_cons_of_mem _ ha)
    refine ⟨idx₂, s₂, by rw [List.foldl_cons, heq₁, heq₂], hfill₂, hmoves₁.trans hmoves₂,
      hmoved₁.trans hmoved₂, fun hlt a ha i hi => ?_, fun a i hi => hback₁ a i (hback₂ a i hi)⟩
    rcases List.mem_cons.mp ha with rfl | ha
    · exact hgone₁ (hmoved₂.le.trans_lt hlt) i (hback₂ a i hi)
    · exact hgone₂ hlt a ha i hi

/-- `collectValidLBAs` fills the destination up to its eighth slot, or empties the source. -/
theorem Filling.collectValidLBAs (h : Filling g l dest idx s) (hk : dest ∉ K)
    (hne : src ≠ dest) :
    ∃ idx' s', s.collectValidLBAs g.toDims src dest idx = (idx', s') ∧
      Filling g l dest idx' s' ∧ Moves g.toDims K s s' ∧ Moved src dest idx idx' s.ram s'.ram ∧
      (idx' < 8 → liveIn g.toDims (s'.ram.findLBA g.toDims) src = 0) := by
  obtain ⟨idx', s', heq, hfill, hmoves, hmoved, hgone, -⟩ := h.foldl_collectLBA hk hne
    (List.range g.flashLBAs) fun lba hlba => List.mem_range.mp hlba
  refine ⟨idx', s', heq, hfill, hmoves, hmoved, fun hlt => ?_⟩
  by_contra hpos
  obtain ⟨lba, hlba, i, hloc⟩ := liveIn_pos.mp (Nat.pos_of_ne_zero hpos)
  exact hgone hlt lba (List.mem_range.mpr hlba) i hloc

end

/-! ### The source -/

section

variable {g : Geometry} {r : Ram} {dest eb e : ℕ}

/-- The block the scan stops at. -/
theorem scanSource_spec (left : ℕ) {found : Bool} (heb : eb < g.eraseBlocks)
    (h : scanSource g.toDims r dest left eb = (found, e)) :
    e < g.eraseBlocks ∧ (found = true → r.ebState e ≠ ebMeta ∧ e ≠ dest) := by
  induction left generalizing eb with
  | zero =>
    unfold scanSource at h
    split_ifs at h with hc
    · cases h
      exact ⟨Nat.mod_lt _ g.eraseBlocks_pos, by simp⟩
    · cases h
      simpa [Ram.ebIsMeta, heb] using hc
  | succ left ih =>
    unfold scanSource at h
    split_ifs at h with hc
    · exact ih (Nat.mod_lt _ g.eraseBlocks_pos) h
    · cases h
      simpa [Ram.ebIsMeta, heb] using hc

/-- A scan that gives up has seen nothing but metadata and the destination. -/
theorem scanSource_complete (left : ℕ)
    (h : (scanSource g.toDims r dest left eb).1 = false) (heb : eb < g.eraseBlocks) :
    ∀ k ≤ left,
      r.ebState ((eb + k) % g.eraseBlocks) = ebMeta ∨ (eb + k) % g.eraseBlocks = dest := by
  induction left generalizing eb with
  | zero =>
    intro k hk
    obtain rfl := Nat.le_zero.mp hk
    unfold scanSource at h
    split_ifs at h with hc
    rw [Nat.add_zero, Nat.mod_eq_of_lt heb]
    simpa [Ram.ebIsMeta] using hc
  | succ left ih =>
    intro k hk
    unfold scanSource at h
    split_ifs at h with hc
    rcases k with _ | k
    · rw [Nat.add_zero, Nat.mod_eq_of_lt heb]
      simpa [Ram.ebIsMeta] using hc
    · have := ih h (Nat.mod_lt _ g.eraseBlocks_pos) k (by omega)
      rwa [Nat.mod_add_mod, Nat.add_assoc, Nat.add_comm 1 k] at this

/-- There are more blocks than metadata blocks and a destination. -/
theorem exists_not_meta {l : List (Option ℕ)} (h : MetaList g.toDims r.ebState l) (dest : ℕ) :
    ∃ e < g.eraseBlocks, r.ebState e ≠ ebMeta ∧ e ≠ dest := by
  by_contra hnone
  have hsub : Finset.range g.eraseBlocks ⊆
      insert dest ((Finset.range g.eraseBlocks).filter fun e => r.ebState e = ebMeta) := by
    intro e he
    by_cases hd : e = dest
    · exact hd ▸ Finset.mem_insert_self _ _
    · refine Finset.mem_insert_of_mem (Finset.mem_filter.mpr ⟨he, ?_⟩)
      by_contra hm
      exact hnone ⟨e, Finset.mem_range.mp he, hm, hd⟩
  have hcard := (Finset.card_le_card hsub).trans (Finset.card_insert_le _ _)
  have hmetas := h.tally_le
  rw [Finset.card_range] at hcard
  rw [tally] at hmetas
  have := g.reserve_le
  omega

/-- The scan of `garbageCollect` finds a block. -/
theorem scanSource_found (dest : ℕ) {l : List (Option ℕ)} (h : MetaList g.toDims r.ebState l)
    (heb : eb < g.eraseBlocks) :
    (scanSource g.toDims r dest g.eraseBlocks eb).1 = true := by
  obtain ⟨e, he, hmeta, hdest⟩ := exists_not_meta h dest
  by_contra hfalse
  have hall := scanSource_complete g.eraseBlocks (Bool.eq_false_iff.mpr hfalse) heb
  rcases le_or_gt eb e with hle | hgt
  · have := hall (e - eb) (by omega)
    rw [Nat.add_sub_cancel' hle, Nat.mod_eq_of_lt he] at this
    exact this.elim hmeta hdest
  · have := hall (e + g.eraseBlocks - eb) (by omega)
    rw [Nat.add_sub_cancel' (by omega), Nat.add_mod_right, Nat.mod_eq_of_lt he] at this
    exact this.elim hmeta hdest

/-- The block the search settles on, with its score. -/
theorem pickSource_spec {score : ℤ} (heb : eb < g.eraseBlocks) (hne : eb ≠ dest)
    (h : pickSource g.toDims r dest eb = (e, score)) :
    e < g.eraseBlocks ∧ e ≠ dest ∧ score = r.gcScore g.toDims e ∧
      r.gcScore g.toDims eb ≤ score := by
  have key : (pickSource g.toDims r dest eb).1 < g.eraseBlocks ∧
      (pickSource g.toDims r dest eb).1 ≠ dest ∧
      (pickSource g.toDims r dest eb).2 = r.gcScore g.toDims (pickSource g.toDims r dest eb).1 ∧
      r.gcScore g.toDims eb ≤ (pickSource g.toDims r dest eb).2 := by
    refine List.foldlRecOn (motive := fun best : ℕ × ℤ => best.1 < g.eraseBlocks ∧
      best.1 ≠ dest ∧ best.2 = r.gcScore g.toDims best.1 ∧ r.gcScore g.toDims eb ≤ best.2)
      _ _ ⟨heb, hne, rfl, le_rfl⟩ fun best hbest i _ => ?_
    dsimp only
    split_ifs with hc
    · exact ⟨Nat.mod_lt _ g.eraseBlocks_pos, hc.2.2, rfl, hbest.2.2.2.trans hc.2.1.le⟩
    · exact hbest
  rwa [h] at key

/-- A block with a positive score holds a live sector. -/
theorem pos_of_gcScore {g : Dims} (h : 0 < r.gcScore g e) :
    r.ebState e ≠ ebMeta ∧ 0 < r.ebState e := by
  by_contra hc
  have : r.ebState e = ebMeta ∨ r.ebState e = 0 := by omega
  rw [Ram.gcScore, if_pos this] at h
  exact h.false

theorem setEBState_self (h : r.ebState e < 256) : r.setEBState e (r.ebState e) = r := by
  rw [Ram.setEBState, Nat.mod_eq_of_lt h, Function.update_eq_self]

end

/-! ### The collector -/

section

variable {g : Geometry} {K : Set ℕ} {l : List (Option ℕ)} {dest idx : ℕ} {s s' : Ftl}

/-- One round of a collection: the source it picks, and the state it leaves. -/
theorem Filling.round (h : Filling g l dest idx s) (hk : dest ∉ K)
    (hgc : s.ram.gcEB < g.eraseBlocks) {n : ℕ} {score score' : ℤ} (hroom : idx < g.slotsPerEB)
    (hres : collectRounds g.toDims dest (n + 1) score s = some (score', s')) :
    ∃ src idx₁ s₁, src < g.eraseBlocks ∧ src ≠ dest ∧ s.ram.ebState src ≠ ebMeta ∧
      0 < s.ram.ebState src ∧ 0 < s.ram.gcScore g.toDims src ∧ Filling g l dest idx₁ s₁ ∧
      Moves g.toDims K s s₁ ∧ Moved src dest idx idx₁ { s.ram with gcEB := src } s₁.ram ∧
      (idx₁ < 8 → liveIn g.toDims (s₁.ram.findLBA g.toDims) src = 0) ∧
      collectRounds g.toDims dest n (s.ram.gcScore g.toDims src) s₁ = some (score', s') := by
  have hfound := scanSource_found dest h.acc.metas hgc
  have hroom' : s.ram.ebState dest < g.slotsPerEB := h.count ▸ hroom
  rw [collectRounds, if_pos hroom'] at hres
  rcases hscan : scanSource g.toDims s.ram dest g.eraseBlocks s.ram.gcEB with ⟨found, eb⟩
  rcases hpick : pickSource g.toDims s.ram dest eb with ⟨src, sc⟩
  obtain ⟨heb, hclear⟩ := scanSource_spec _ hgc hscan
  rw [hscan] at hfound
  obtain rfl : found = true := hfound
  obtain ⟨hsrc, hne, rfl, -⟩ := pickSource_spec heb (hclear rfl).2 hpick
  simp only [hscan, hpick, if_true] at hres
  split_ifs at hres with hscore
  have hpos := pos_of_gcScore hscore.1
  have hfill : Filling g l dest idx { s with ram := { s.ram with gcEB := src } } :=
    ⟨⟨h.acc.placed, h.acc.wear, h.acc.metas, h.acc.empties⟩, h.lt, h.count, h.le, h.below, h.blank,
      h.not_open⟩
  obtain ⟨idx₁, s₁, hcollect, hfill₁, hmoves, hmoved, hdone⟩ := hfill.collectValidLBAs hk hne
  rw [h.count, hcollect] at hres
  have hself : s₁.ram.setEBState dest idx₁ = s₁.ram := by
    have hlt : s₁.ram.ebState dest < 256 := by rw [hfill₁.count]; have := hfill₁.le; omega
    exact hfill₁.count ▸ setEBState_self hlt
  simp only [hself] at hres
  exact ⟨src, idx₁, s₁, hsrc, hne, hpos.1, hpos.2, hscore.1, hfill₁,
    .head (.tables s { s.ram with gcEB := src } rfl rfl rfl fun _ hx => absurd rfl hx) hmoves,
    hmoved, hdone, hres⟩

/-- The rounds of a collection, with `n` of them to go. -/
theorem collectRounds_spec (n : ℕ) {score score' : ℤ} (h : Filling g l dest idx s)
    (hk : dest ∉ K) (hgc : s.ram.gcEB < g.eraseBlocks) (hscore : 0 ≤ score)
    (hres : collectRounds g.toDims dest n score s = some (score', s')) :
    ∃ idx', Filling g l dest idx' s' ∧ Moves g.toDims K s s' ∧ Kept s.ram s'.ram ∧
      s'.ram.metaEBList = s.ram.metaEBList ∧ s'.ram.gcEB < g.eraseBlocks ∧ 0 ≤ score' ∧
      idx ≤ idx' ∧ (0 < n → 0 < idx') := by
  induction n generalizing idx s score with
  | zero =>
    rw [collectRounds] at hres
    cases hres
    exact ⟨idx, h, .refl, .refl _, rfl, hgc, hscore, le_rfl, fun hn => absurd hn (lt_irrefl _)⟩
  | succ n ih =>
    by_cases hroom : idx < g.slotsPerEB
    · obtain ⟨src, idx₁, s₁, hsrc, -, hmeta, hpos, hsc, hfill, hmoves, hmoved, hdone, hres⟩ :=
        h.round hk hgc hroom hres
      have hgc₁ : s₁.ram.gcEB < g.eraseBlocks := hmoved.gcEB ▸ hsrc
      obtain ⟨idx', hfill', hmoves', hkept', hmetas', hgc', hscore', hle, -⟩ :=
        ih hfill hgc₁ hsc.le hres
      have hkept : Kept s.ram s₁.ram := ⟨hmoved.validLBAs, hmoved.mapped⟩
      refine ⟨idx', hfill', hmoves.trans hmoves', hkept.trans hkept',
        hmetas'.trans hmoved.metaEBList, hgc', hscore', hmoved.le.trans hle, fun _ => ?_⟩
      -- the first round moves at least one sector
      by_contra hzero
      have hzero₁ : idx₁ = 0 := by omega
      have hidx : idx = 0 := by have := hmoved.le; omega
      have hsum := hmoved.sum
      have hstate : s₁.ram.ebState src ≠ ebMeta := by
        rw [hzero₁, hidx] at hsum
        exact fun hm => hmeta (hsum.symm.trans hm)
      have hcount := hfill.acc.placed.state_eq hsrc hstate
      rw [hdone (by omega)] at hcount
      simp only at hsum
      omega
    · have hroom' : ¬ s.ram.ebState dest < g.slotsPerEB := h.count ▸ hroom
      rw [collectRounds, if_neg hroom'] at hres
      cases hres
      have := g.eight_le
      exact ⟨idx, h, .refl, .refl _, rfl, hgc, hscore, le_rfl, fun _ => by omega⟩

/-- What maintenance leads to that keeps away from the blocks of `K`. -/
structure Settled (g : Geometry) (K : Set ℕ) (drift : ℤ) (s s' : Ftl) : Prop where
  acc : Accounted g.toDims drift s'.ram.metaEBList s'.ram
  moves : Moves g.toDims K s s'
  kept : Kept s.ram s'.ram
  gcEB : s'.ram.gcEB < g.eraseBlocks

theorem Settled.trans {drift : ℤ} {s₁ s₂ s₃ : Ftl} (h : Settled g K drift s₁ s₂)
    (h' : Settled g K drift s₂ s₃) : Settled g K drift s₁ s₃ :=
  ⟨h'.acc, h.moves.trans h'.moves, h.kept.trans h'.kept, h'.gcEB⟩

/-- The destination of a collection once it has been erased. -/
theorem filling_eraseEB (h : Accounted g.toDims 0 l s.ram) (hopen : s.ram.openEB = none)
    (hdest : s.ram.lowestEmptyEB g.toDims = some dest) :
    Filling g l dest 0 { s.eraseEB g.toDims dest with
      ram := { (s.eraseEB g.toDims dest).ram with
        emptyEBs := (s.eraseEB g.toDims dest).ram.emptyEBs - 1 } } := by
  obtain ⟨hlt, hzero⟩ := lowestEmptyEB_spec hdest
  have hacc := accounted_eraseEB h hlt hzero
  have hstate : (s.eraseEB g.toDims dest).ram.ebState dest = 0 := by
    rw [eraseEB_ebState, Function.update_self]
  refine ⟨⟨hacc.placed, hacc.wear, hacc.metas, ?_⟩, hlt, hstate, by omega, fun lba hlba i hi => ?_,
    fun hs => ?_, ?_⟩
  · have := hacc.empties
    simp only [if_true]
    omega
  · exact absurd hi (hacc.placed.not_loc (.inl hstate) hlba)
  · exact blank_of_eraseBlock (s := s) hs hlt _ _
  · exact (wearEB_frame _ _).2.2.2.1.trans hopen

/-- **`garbageCollect` keeps the accounts and the data.** -/
theorem garbageCollect_spec {score : ℤ} (h : Accounted g.toDims 0 s.ram.metaEBList s.ram)
    (hK : ∀ b ∈ K, s.ram.ebState b = ebMeta) (hgc : s.ram.gcEB < g.eraseBlocks)
    (hopen : s.ram.openEB = none) (hres : s.garbageCollect g.toDims = some (score, s')) :
    Settled g K 0 s s' ∧ 0 ≤ score ∧ s'.ram.metaEBList = s.ram.metaEBList := by
  obtain ⟨dest, hdest, hres⟩ := Option.bind_eq_some_iff.mp hres
  have hfill := filling_eraseEB h hopen hdest
  obtain ⟨hlt, hzero⟩ := lowestEmptyEB_spec hdest
  have hk : dest ∉ K := fun hb => by
    have := hK dest hb
    rw [hzero] at this
    exact absurd this (by decide)
  have hgc₁ : (s.eraseEB g.toDims dest).ram.gcEB = s.ram.gcEB := by
    simp only [eraseEB, wearEB]
    split_ifs <;> rfl
  have hvalid : (s.eraseEB g.toDims dest).ram.validLBAs = s.ram.validLBAs := by
    simp only [eraseEB, wearEB]
    split_ifs <;> rfl
  have hmetas₁ : (s.eraseEB g.toDims dest).ram.metaEBList = s.ram.metaEBList :=
    (wearEB_frame _ _).2.2.2.2.2
  obtain ⟨idx', hfill', hmoves', hkept', hmetas', hgc', hscore', -, hpos⟩ :=
    collectRounds_spec _ hfill hk (hgc₁ ▸ hgc) le_rfl hres
  have hacc' := hfill'.acc
  rw [if_neg (by have := hpos (by have := g.eight_le; omega); omega)] at hacc'
  have hmoves : Moves g.toDims K s (s.eraseEB g.toDims dest) :=
    moves_eraseEB (.of_state h.placed hlt (.inl hzero)) hk
  have hkept : Kept s.ram (s.eraseEB g.toDims dest).ram := .of_l2p (wearEB_l2p _ _) hvalid
  exact ⟨⟨(hmetas'.trans hmetas₁).symm ▸ hacc', hmoves.trans (.head (.tables _
    { (s.eraseEB g.toDims dest).ram with
      emptyEBs := (s.eraseEB g.toDims dest).ram.emptyEBs - 1 } rfl rfl rfl
    fun _ hx => absurd rfl hx) hmoves'), ⟨hkept'.validLBAs.trans hkept.validLBAs,
      fun lba => (hkept'.mapped lba).trans (hkept.mapped lba)⟩, hgc'⟩, hscore', hmetas'.trans hmetas₁⟩

end

end Ftl

end Ch32h4.Spiftl
