import Ch32h4.Spiftl.Equiv.Checking
import Ch32h4.Spiftl.Equiv.Copies
import Ch32h4.Spiftl.Equiv.Loading

/-!
# Mounting a volume

`start` tries the epochs it finds from the highest down; `Tried` are the epochs it comes to.  It
ends well exactly when what it comes to is `Mountable`: an epoch other than 0 that is turned down,
or that is taken and whose tables agree.  `format` needs no condition (`format_accounted`).

The two ways of not ending are an epoch 0, which the search never removes, and an epoch whose
stream ends too early, at which the reader takes the front of an empty list.
-/

namespace Ch32h4.Spiftl

open Flash

namespace Loader

variable {g : Geometry} {f : Cells}

/-! ### The search -/

/-- A block on the flash carries the epoch. -/
def OnFlash (g : Dims) (f : Cells) (epoch : ℕ) : Prop :=
  ∃ eb < g.eraseBlocks, isCopy g f eb = true ∧ epochOf f eb = epoch

/-- The stream in the blocks of an epoch. -/
def epochStream (g : Dims) (f : Cells) (epoch : ℕ) : List UInt8 :=
  streamOf g f (blocksOf g f epoch (populateMetadataMap g f))

/-- The search comes to the epoch: it is on the flash, and those above it are turned down. -/
def Tried (g : Dims) (f : Cells) (epoch : ℕ) : Prop :=
  OnFlash g f epoch ∧
    ∀ e, epoch < e → OnFlash g f e → verdict g (epochStream g f e) = some false

theorem mem_populateMetadataMap {x : ℕ × ℕ} :
    x ∈ populateMetadataMap g.toDims f ↔
      x.2 < g.eraseBlocks ∧ isCopy g.toDims f x.2 = true ∧ epochOf f x.2 = x.1 := by
  rw [populateMetadataMap, List.mem_filterMap]
  constructor
  · rintro ⟨i, hi, hx⟩
    split_ifs at hx with hcopy
    cases hx
    exact ⟨List.mem_range.mp hi, hcopy, rfl⟩
  · rintro ⟨hlt, hcopy, hepoch⟩
    exact ⟨x.2, List.mem_range.mpr hlt, by rw [if_pos hcopy, hepoch]⟩

theorem onFlash_iff {epoch : ℕ} :
    OnFlash g.toDims f epoch ↔ ∃ x ∈ populateMetadataMap g.toDims f, x.1 = epoch := by
  constructor
  · rintro ⟨eb, hlt, hcopy, hepoch⟩
    exact ⟨(epoch, eb), mem_populateMetadataMap.mpr ⟨hlt, hcopy, hepoch⟩, rfl⟩
  · rintro ⟨x, hx, rfl⟩
    obtain ⟨hlt, hcopy, hepoch⟩ := mem_populateMetadataMap.mp hx
    exact ⟨x.2, hlt, hcopy, hepoch⟩

theorem highestEpoch_spec {map : List (ℕ × ℕ)} (hne : map ≠ []) :
    (∃ x ∈ map, x.1 = highestEpoch map) ∧ ∀ x ∈ map, x.1 ≤ highestEpoch map := by
  have key : ∀ (l : List (ℕ × ℕ)) (e : ℕ),
      (l.foldl (fun epoch x => if epoch < x.1 then x.1 else epoch) e = e ∨
        ∃ x ∈ l, x.1 = l.foldl (fun epoch x => if epoch < x.1 then x.1 else epoch) e) ∧
      e ≤ l.foldl (fun epoch x => if epoch < x.1 then x.1 else epoch) e ∧
      ∀ x ∈ l, x.1 ≤ l.foldl (fun epoch x => if epoch < x.1 then x.1 else epoch) e := by
    intro l
    induction l with
    | nil => exact fun e => ⟨.inl rfl, le_rfl, fun _ hx => by cases hx⟩
    | cons y l ih =>
      intro e
      obtain ⟨hatt, hge, hle⟩ := ih (if e < y.1 then y.1 else e)
      have hy : e ≤ (if e < y.1 then y.1 else e) ∧ y.1 ≤ if e < y.1 then y.1 else e := by
        split_ifs <;> omega
      rw [List.foldl_cons]
      refine ⟨?_, hy.1.trans hge, fun x hx => ?_⟩
      · rcases hatt with hatt | ⟨x, hx, hatt⟩
        · rw [hatt]
          split_ifs with hlt
          · exact .inr ⟨y, List.mem_cons_self, rfl⟩
          · exact .inl rfl
        · exact .inr ⟨x, List.mem_cons_of_mem _ hx, hatt⟩
      · rcases List.mem_cons.mp hx with rfl | hx
        · exact hy.2.trans hge
        · exact hle x hx
  obtain ⟨hatt, -, hle⟩ := key map 0
  refine ⟨?_, hle⟩
  rcases hatt with hzero | hatt
  · obtain ⟨x, l, rfl⟩ := List.exists_cons_of_ne_nil hne
    refine ⟨x, List.mem_cons_self, Nat.le_antisymm (hle x List.mem_cons_self) ?_⟩
    change List.foldl _ 0 _ ≤ _
    rw [hzero]
    exact Nat.zero_le _
  · exact hatt

/-- Leaving out epochs from `bound` on does not change the blocks of a lower epoch. -/
theorem blocksOf_filter {epoch bound : ℕ} (h : epoch < bound) (map : List (ℕ × ℕ)) :
    blocksOf g.toDims f epoch (map.filter fun x => x.1 < bound) = blocksOf g.toDims f epoch map := by
  have hfilter : (map.filter fun x => x.1 < bound).filter (fun x => x.1 = epoch) =
      map.filter fun x => x.1 = epoch := by
    rw [List.filter_filter]
    refine List.filter_congr fun x _ => ?_
    by_cases hx : x.1 = epoch
    · simp [hx, h]
    · simp [hx]
  rw [blocksOf, blocksOf, hfilter]

theorem Untouched.trans {r r' r'' : Ram} (h : Untouched g.toDims r r')
    (h' : Untouched g.toDims r' r'') : Untouched g.toDims r r'' :=
  ⟨h'.metaEBList, h'.openEB.trans h.openEB, h'.openEBNextIndex.trans h.openEBNextIndex,
    h'.gcEB.trans h.gcEB, h'.validLBAs.trans h.validLBAs, h'.metadataEpoch.trans h.metadataEpoch⟩

/-- How the search for a copy ends. -/
inductive Search (g : Dims) (f : Cells) (r : Ram) : Except LoadFault (Bool × Ram) → Prop where
  /-- An epoch is taken. -/
  | taken (epoch : ℕ) (r' : Ram) (htried : Tried g f epoch) (hpos : epoch ≠ 0)
      (hverdict : verdict g (epochStream g f epoch) = some true)
      (hloaded : Loaded g (epochStream g f epoch) epoch r r') : Search g f r (.ok (true, r'))
  /-- All epochs are turned down. -/
  | none (r' : Ram) (hall : ∀ e, OnFlash g f e → e ≠ 0 ∧ verdict g (epochStream g f e) = some false)
      (hr : Untouched g r r') : Search g f r (.ok (false, r'))
  /-- The stream of an epoch ends too early. -/
  | short (epoch : ℕ) (htried : Tried g f epoch) (hpos : epoch ≠ 0)
      (hverdict : verdict g (epochStream g f epoch) = Option.none) :
      Search g f r (.error .frontOfEmpty)
  /-- The search comes to epoch 0. -/
  | stuck (htried : Tried g f 0) : Search g f r (.error .outOfFuel)

theorem Search.of_untouched {r r₁ : Ram} {out : Except LoadFault (Bool × Ram)}
    (h : Untouched g.toDims r r₁) (hs : Search g.toDims f r₁ out) : Search g.toDims f r out := by
  cases hs with
  | taken epoch r' htried hpos hverdict hl =>
    exact .taken epoch r' htried hpos hverdict ⟨hl.state, hl.entry, hl.count, hl.wear,
      hl.list, hl.metas, hl.empties, hl.valid, hl.offset, hl.metadataEpoch, hl.openEB.trans h.openEB,
      hl.openEBNextIndex.trans h.openEBNextIndex, hl.gcEB.trans h.gcEB⟩
  | none r' hall hr => exact .none r' hall (h.trans hr)
  | short epoch htried hpos hverdict => exact .short epoch htried hpos hverdict
  | stuck htried => exact .stuck htried

/-- A map whose highest epoch is 0 is gone round for ever. -/
theorem loadHighestEpochMetadata_stuck {map : List (ℕ × ℕ)} (hne : map ≠ [])
    (hzero : highestEpoch map = 0) (fuel : ℕ) (r : Ram) :
    loadHighestEpochMetadata g.toDims f fuel map r = .error .outOfFuel := by
  obtain ⟨x, l, rfl⟩ := List.exists_cons_of_ne_nil hne
  induction fuel with
  | zero => rfl
  | succ fuel ih =>
    rw [loadHighestEpochMetadata]
    have hload : doLoadHighestEpochMetadata g.toDims f (x :: l) r = .ok (false, x :: l, r) := by
      rw [doLoadHighestEpochMetadata, if_pos hzero]
    rw [hload]
    exact ih

/-- The search from a bound on the epoch down. -/
theorem search_below {bound fuel : ℕ} {r : Ram} (hr : r.metaEBList.length = g.metaEBs)
    (habove : ∀ e, bound ≤ e → OnFlash g.toDims f e → e ≠ 0 ∧
      verdict g.toDims (epochStream g.toDims f e) = some false)
    (hfuel : ((populateMetadataMap g.toDims f).filter fun x => x.1 < bound).length < fuel) :
    Search g.toDims f r (loadHighestEpochMetadata g.toDims f fuel
      ((populateMetadataMap g.toDims f).filter fun x => x.1 < bound) r) := by
  induction fuel generalizing bound r with
  | zero => exact absurd hfuel (Nat.not_lt_zero _)
  | succ fuel ih =>
    generalize hmap : (populateMetadataMap g.toDims f).filter (fun x => x.1 < bound) = map at *
    rcases map with _ | ⟨x, l⟩
    · refine .none r (fun e he => ?_) ⟨hr, rfl, rfl, rfl, rfl, rfl⟩
      refine habove e ?_ he
      by_contra hlt
      obtain ⟨x, hx, rfl⟩ := onFlash_iff.mp he
      have : x ∈ ([] : List (ℕ × ℕ)) :=
        hmap ▸ List.mem_filter.mpr ⟨hx, decide_eq_true (not_le.mp hlt)⟩
      cases this
    · obtain ⟨⟨y, hy, hyhigh⟩, hle⟩ := highestEpoch_spec (List.cons_ne_nil x l)
      generalize hepoch : highestEpoch (x :: l) = epoch at *
      have hy' := hy
      rw [← hmap] at hy'
      obtain ⟨hyon, hybound⟩ := List.mem_filter.mp hy'
      have hlt : epoch < bound := hyhigh ▸ of_decide_eq_true hybound
      have htried : Tried g.toDims f epoch := by
        refine ⟨onFlash_iff.mpr ⟨y, hyon, hyhigh⟩, fun e he hon => ?_⟩
        refine (habove e ?_ hon).2
        by_contra hb
        obtain ⟨z, hz, rfl⟩ := onFlash_iff.mp hon
        have hmem : z ∈ x :: l := hmap ▸ List.mem_filter.mpr ⟨hz, decide_eq_true (not_le.mp hb)⟩
        exact absurd (hle z hmem) (not_le.mpr he)
      by_cases hzero : epoch = 0
      · subst hzero
        rw [loadHighestEpochMetadata_stuck (List.cons_ne_nil x l) hepoch]
        exact .stuck htried
      have hblocks : blocksOf g.toDims f epoch (x :: l) =
          blocksOf g.toDims f epoch (populateMetadataMap g.toDims f) := by
        rw [← hmap, blocksOf_filter hlt]
      have hload : doLoadHighestEpochMetadata g.toDims f (x :: l) r =
          (loadCopy g.toDims f epoch
            (blocksOf g.toDims f epoch (populateMetadataMap g.toDims f)) r).bind fun p =>
            .ok (p.1, (x :: l).filter (fun z => z.1 ≠ epoch), p.2) := by
        rw [doLoadHighestEpochMetadata, hepoch, if_neg hzero, hblocks]
        rfl
      rw [loadHighestEpochMetadata, hload]
      rcases loadCopy_spec (f := f) epoch
          (blocksOf g.toDims f epoch (populateMetadataMap g.toDims f)) r hr with
        ⟨hv, hres⟩ | ⟨hv, r', hres, hr'⟩ | ⟨hv, r', hres, hr'⟩
      · rw [hres]
        exact .short epoch htried hzero hv
      · rw [hres]
        have hrest : (x :: l).filter (fun z => z.1 ≠ epoch) =
            (populateMetadataMap g.toDims f).filter fun z => z.1 < epoch := by
          rw [← hmap, List.filter_filter]
          refine List.filter_congr fun z hz => ?_
          by_cases hzb : z.1 < bound
          · have hmem : z ∈ x :: l := hmap ▸ List.mem_filter.mpr ⟨hz, decide_eq_true hzb⟩
            have := hle z hmem
            by_cases hze : z.1 = epoch
            · simp [hze]
            · simp [hze, hzb, Nat.lt_of_le_of_ne this hze]
          · have : ¬ z.1 < epoch := fun h => hzb (h.trans hlt)
            simp [hzb, this]
        have hshorter : ((populateMetadataMap g.toDims f).filter fun z => z.1 < epoch).length <
            (x :: l).length := by
          rw [← hrest]
          refine List.length_filter_lt_length_iff_exists.mpr ⟨y, hy, ?_⟩
          simp [hyhigh]
        have habove' : ∀ e, epoch ≤ e → OnFlash g.toDims f e → e ≠ 0 ∧
            verdict g.toDims (epochStream g.toDims f e) = some false := by
          intro e he hon
          rcases Nat.eq_or_lt_of_le he with rfl | hgt
          · exact ⟨hzero, hv⟩
          · exact ⟨by omega, htried.2 e hgt hon⟩
        have hmore := ih hr'.metaEBList habove' (by omega)
        rw [← hrest] at hmore
        exact .of_untouched hr' hmore
      · rw [hres]
        exact .taken epoch r' htried hzero hv hr'

/-- **How a load ends**, on any fuel that exceeds the number of blocks. -/
theorem search_spec {fuel : ℕ} (hfuel : g.eraseBlocks < fuel) {r : Ram}
    (hr : r.metaEBList.length = g.metaEBs) :
    Search g.toDims f r (loadHighestEpochMetadata g.toDims f fuel
      (populateMetadataMap g.toDims f) r) := by
  obtain ⟨bound, hbound⟩ : ∃ bound, ∀ x ∈ populateMetadataMap g.toDims f, x.1 < bound := by
    refine ⟨highestEpoch (populateMetadataMap g.toDims f) + 1, fun x hx => ?_⟩
    exact Nat.lt_succ_of_le ((highestEpoch_spec (List.ne_nil_of_mem hx)).2 x hx)
  have hall : (populateMetadataMap g.toDims f).filter (fun x => x.1 < bound) =
      populateMetadataMap g.toDims f :=
    List.filter_eq_self.mpr fun x hx => decide_eq_true (hbound x hx)
  have hlen : (populateMetadataMap g.toDims f).length < fuel := by
    refine lt_of_le_of_lt ((List.length_filterMap_le _ _).trans ?_) hfuel
    rw [List.length_range]
  have habove : ∀ e, bound ≤ e → OnFlash g.toDims f e → e ≠ 0 ∧
      verdict g.toDims (epochStream g.toDims f e) = some false := by
    intro e he hon
    obtain ⟨x, hx, rfl⟩ := onFlash_iff.mp hon
    exact absurd (hbound x hx) (not_lt.mpr he)
  have key := search_below hr habove (by rwa [hall])
  rwa [hall] at key

/-- The tables of a copy are as its stream says. -/
theorem Loaded.placed_iff {bs : List UInt8} {epoch : ℕ} {r₀ r : Ram}
    (h : Loaded g.toDims bs epoch r₀ r) :
    Placed g.toDims (r.findLBA g.toDims) r.ebState ↔ Agrees g.toDims bs := by
  have hloc : ∀ lba < g.flashLBAs, r.findLBA g.toDims lba = copyPlaces g.toDims bs lba :=
    fun lba hlba => by rw [Ram.findLBA, copyPlaces, h.entry lba hlba]
  exact ⟨fun hp => hp.congr (fun lba hlba => (hloc lba hlba).symm) fun eb heb => (h.state eb heb).symm,
    fun hp => Placed.congr hp hloc h.state⟩

end Loader

/-! ### Formatting -/

namespace Ftl

variable {g : Geometry} {s : Ftl} {r r' : Ram}

/-- The tables with the first `k` blocks made metadata. -/
structure Cleared (g : Dims) (k : ℕ) (r r' : Ram) : Prop where
  l2p : r'.l2p = fun _ => 0
  peCount : r'.peCount = fun _ => 0
  highestPECount : r'.highestPECount = 0
  ebState : r'.ebState = fun eb => if eb < k then ebMeta else 0
  metaEBList : r'.metaEBList = (List.range k).map some ++ r.metaEBList.drop k
  emptyEBs : r'.emptyEBs = g.eraseBlocks - k
  openEB : r'.openEB = r.openEB ∧ r'.openEBNextIndex = r.openEBNextIndex
  gcEB : r'.gcEB = r.gcEB

/-- One more block becomes metadata. -/
theorem Cleared.succ {k : ℕ} (h : Cleared g.toDims k r r') (hk : k < r.metaEBList.length) :
    Cleared g.toDims (k + 1) r { ({ r' with emptyEBs := r'.emptyEBs - 1 }.setEBMeta k) with
      metaEBList := r'.metaEBList.set k (some k) } := by
  refine ⟨h.l2p, h.peCount, h.highestPECount, ?_, ?_, ?_, h.openEB, h.gcEB⟩
  · refine (Ram.setEBMeta_ebState _).trans ?_
    funext eb
    rcases eq_or_ne eb k with rfl | hne
    · simp
    · simp only [Function.update_of_ne hne, h.ebState]
      by_cases hlt : eb < k
      · rw [if_pos hlt, if_pos (by omega)]
      · rw [if_neg hlt, if_neg (by omega)]
  · have hlen : ((List.range k).map (some : ℕ → Option ℕ)).length = k := by simp
    rw [h.metaEBList, List.set_append_right _ _ hlen.le, hlen, Nat.sub_self, List.range_succ,
      List.map_append, List.append_assoc, List.drop_eq_getElem_cons hk, List.set_cons_zero]
    rfl
  · change r'.emptyEBs - 1 = _
    rw [h.emptyEBs]
    push_cast
    ring

theorem formatTables_spec (h : r.metaEBList.length = g.metaEBs) :
    Cleared g.toDims g.metaEBs r (formatTables g.toDims r) := by
  have key : ∀ k ≤ g.metaEBs, Cleared g.toDims k r ((List.range k).foldl (fun r i =>
      { ({ r with emptyEBs := r.emptyEBs - 1 }.setEBMeta i) with
        metaEBList := r.metaEBList.set i (some i) })
      { r with
        l2p := fun _ => 0
        peCount := fun _ => 0
        ebState := fun _ => 0
        peCountOffset := 0
        highestPECount := 0
        emptyEBs := g.eraseBlocks }) := by
    intro k
    induction k with
    | zero => exact fun _ => ⟨rfl, rfl, rfl, by simp, by simp, by simp, ⟨rfl, rfl⟩, rfl⟩
    | succ k ih =>
      intro hk
      rw [List.range_succ, List.foldl_append]
      exact (ih (by omega)).succ (by omega)
  exact key _ le_rfl

theorem Cleared.findLBA {k : ℕ} (h : Cleared g.toDims k r r') (lba : ℕ) :
    r'.findLBA g.toDims lba = none := by
  rw [Ram.findLBA_eq_none, h.l2p, l2pVal_zero]

/-- The accounts of cleared tables. -/
theorem Cleared.accounted (h : Cleared g.toDims g.metaEBs r r')
    (hr : r.metaEBList.length = g.metaEBs) : Accounted g.toDims 0 r'.metaEBList r' := by
  have hreserve := g.reserve_le
  have hlist : r'.metaEBList = (List.range g.metaEBs).map some := by
    rw [h.metaEBList, ← hr, List.drop_length, List.append_nil]
  have hlive : ∀ eb, liveIn g.toDims (r'.findLBA g.toDims) eb = 0 := by
    intro eb
    by_contra hpos
    obtain ⟨lba, -, idx, hloc⟩ := liveIn_pos.mp (Nat.pos_of_ne_zero hpos)
    rw [h.findLBA] at hloc
    cases hloc
  refine ⟨⟨fun lba _ eb idx hloc => ?_, fun lba _ lba' _ x hloc => ?_, fun eb heb => ?_⟩,
    ⟨fun eb _ => ?_, fun eb _ => ?_, ?_⟩, ⟨?_, fun eb heb => ?_, fun eb heb => ?_⟩, ?_⟩
  · rw [h.findLBA] at hloc
    cases hloc
  · rw [h.findLBA] at hloc
    cases hloc
  · rw [hlive, h.ebState]
    dsimp only
    split_ifs with hlt
    · exact .inr ⟨rfl, rfl⟩
    · exact .inl rfl
  · rw [h.peCount]
    norm_num
  · rw [h.peCount, h.highestPECount]
    rfl
  · exact ⟨0, g.eraseBlocks_pos, by rw [h.peCount, h.highestPECount]; rfl⟩
  · rw [hlist, List.length_map, List.length_range]
  · rw [hlist] at heb
    have : eb < g.metaEBs := by simpa using heb
    omega
  · have hstate := congrFun h.ebState eb
    rw [hlist, List.count_map_of_injective _ _ (Option.some_injective _)]
    by_cases hlt : eb < g.metaEBs
    · rw [if_pos (hstate.trans (if_pos hlt))]
      exact List.count_eq_one_of_mem List.nodup_range (List.mem_range.mpr hlt)
    · rw [if_neg (by rw [hstate, if_neg hlt]; decide)]
      exact List.count_eq_zero.mpr fun hin => hlt (List.mem_range.mp hin)
  · -- the blocks from `metaEBs` on are the empty ones
    have hcount : ∀ n, g.metaEBs ≤ n →
        tally (Finset.range n) r'.ebState (· = 0) + g.metaEBs = n := by
      intro n hn
      induction n, hn using Nat.le_induction with
      | base =>
        have : tally (Finset.range g.metaEBs) r'.ebState (· = 0) = 0 := by
          refine tally_eq_zero.mpr fun eb heb => ?_
          rw [h.ebState]
          simp [Finset.mem_range.mp heb, ebMeta]
        omega
      | succ n hn ih =>
        have hzero : r'.ebState n = 0 := (congrFun h.ebState n).trans (if_neg (not_lt.mpr hn))
        rw [tally_range_succ, if_pos hzero]
        omega
    have := hcount g.eraseBlocks (by omega)
    rw [h.emptyEBs, emptyCount]
    omega

/-- The erases of `format`. -/
theorem format_ram (s : Ftl) :
    (s.format g.toDims).ram = { formatTables g.toDims s.ram with metadataAge := 0 } ∧
      (s.format g.toDims).outcome = s.outcome := by
  have key : ∀ (l : List ℕ) (s : Ftl), (l.foldl (fun s i =>
      if hasSig s.flash i then s.eraseBlock g.toDims i else s) s).ram = s.ram ∧
      (l.foldl (fun s i =>
        if hasSig s.flash i then s.eraseBlock g.toDims i else s) s).outcome = s.outcome := by
    intro l
    induction l with
    | nil => exact fun s => ⟨rfl, rfl⟩
    | cons i l ih =>
      intro s
      rw [List.foldl_cons]
      split_ifs with hsig
      · exact ih (s.eraseBlock g.toDims i)
      · exact ih s
  exact key _ _

theorem format_cleared (h : s.ram.metaEBList.length = g.metaEBs) :
    Cleared g.toDims g.metaEBs s.ram (s.format g.toDims).ram := by
  have hc := formatTables_spec h
  rw [(format_ram s).1]
  exact ⟨hc.l2p, hc.peCount, hc.highestPECount, hc.ebState, hc.metaEBList, hc.emptyEBs, hc.openEB,
    hc.gcEB⟩

/-- **A formatted volume has its accounts right.** -/
theorem format_accounted (h : s.ram.metaEBList.length = g.metaEBs) :
    Accounted g.toDims 0 (s.format g.toDims).ram.metaEBList (s.format g.toDims).ram :=
  (format_cleared h).accounted h

/-! ### Starting -/

/-- How `start` ends when it does. -/
inductive Started (g : Dims) (s : Ftl) : Ftl → Prop where
  /-- A copy is taken. -/
  | taken (epoch : ℕ) (r : Ram) (htried : Loader.Tried g s.flash epoch) (hpos : epoch ≠ 0)
      (hverdict : Loader.verdict g (Loader.epochStream g s.flash epoch) = some true)
      (hloaded : Loader.Loaded g (Loader.epochStream g s.flash epoch) epoch s.ram r) :
      Started g s { s with ram := { r with metadataAge := 0 } }
  /-- The volume is formatted. -/
  | formatted (r : Ram) (hr : Loader.Untouched g s.ram r)
      (hall : ∀ e, Loader.OnFlash g s.flash e → e ≠ 0 ∧
        Loader.verdict g (Loader.epochStream g s.flash e) = some false) :
      Started g s ({ s with ram := r }.format g)

theorem start_spec {s' : Ftl} (hs : s.ram.metaEBList.length = g.metaEBs)
    (h : s.start g.toDims = .ok s') : Started g.toDims s s' := by
  have hsearch := Loader.search_spec (f := s.flash) (Nat.lt_succ_self g.eraseBlocks) hs
  rw [start] at h
  generalize Loader.loadHighestEpochMetadata g.toDims s.flash (g.eraseBlocks + 1)
    (Loader.populateMetadataMap g.toDims s.flash) s.ram = out at h hsearch
  cases hsearch with
  | taken epoch r htried hpos hverdict hloaded =>
    cases h
    exact .taken epoch r htried hpos hverdict hloaded
  | none r hall hr =>
    cases h
    exact .formatted r hr hall
  | short => cases h
  | stuck => cases h

end Ftl

end Ch32h4.Spiftl
