import Ch32h4.Heap.Sbrk

/-!
# What `_sbrk` grants

`kept_of_reachable`: every call returns a block inside of one region and apart from all that is
granted, or leaves the break as it was, in every run whose calls are `bounded`.  A call is not when
it asks for more than either region has left while the break is in the first (it is refused with
the break in the second, and the rest of the first is lost), or when it takes the break below the
start of its region.  From either the run comes to a call that is not kept, at the latest with the
next (`exists_not_kept`).

All that is granted lies below the break, or in the region that the break has left (`Inv`).
-/

namespace Ch32h4.Heap

variable {mem : Regions} {s s' : State} {incr : ℤ}

/-! ### Addresses -/

/-- A sum that comes out below the middle of the address space has not wrapped. -/
theorem offset_eq {p : ℤ} (h0 : 0 ≤ p) (hp : p < 2 ^ 31) (hincr : -2 ^ 31 ≤ incr ∧ incr < 2 ^ 31)
    (hlow : offset p incr < 2 ^ 31) : offset p incr = p + incr := by
  unfold offset at hlow ⊢
  omega

theorem offset_nonneg (p incr : ℤ) : 0 ≤ offset p incr :=
  Int.emod_nonneg _ (by decide)

/-- The start of the region that the break is in. -/
def Region.start (mem : Regions) : Region → ℤ
  | .dtcm => mem.dtcmStart
  | .shared => mem.sharedStart

/-- The end of the region that the break is in. -/
def Region.limit (mem : Regions) : Region → ℤ
  | .dtcm => mem.dtcmEnd
  | .shared => mem.sharedEnd

theorem Region.limit_lt (mem : Regions) (region : Region) : region.limit mem < 2 ^ 31 := by
  have hgap := mem.gap
  have hle := mem.shared_le
  have hhigh := mem.high
  cases region <;> simp only [Region.limit] <;> omega

theorem Region.start_pos (mem : Regions) (region : Region) : 0 < region.start mem := by
  have hpos := mem.pos
  have hle := mem.dtcm_le
  have hgap := mem.gap
  cases region <;> simp only [Region.start] <;> omega

/-! ### What a call can do -/

/-- The request fits in the region that the break is in. -/
theorem sbrk_of_le (b : Break) (hfits : offset (b.addr mem) incr ≤ b.region.limit mem) :
    sbrk mem b incr = ({ b with brk := some (offset (b.addr mem) incr) }, some (b.addr mem)) := by
  unfold sbrk
  cases hregion : b.region with
  | dtcm =>
    rw [hregion] at hfits
    exact if_neg (not_lt.mpr hfits)
  | shared =>
    rw [hregion] at hfits
    exact if_neg (not_lt.mpr hfits)

/-- It fits in the second region only. -/
theorem sbrk_of_over (b : Break) (hregion : b.region = .dtcm)
    (hfull : mem.dtcmEnd < offset (b.addr mem) incr)
    (hfits : offset mem.sharedStart incr ≤ mem.sharedEnd) :
    sbrk mem b incr =
      (⟨some (offset mem.sharedStart incr), .shared⟩, some mem.sharedStart) := by
  unfold sbrk
  rw [hregion]
  dsimp only
  rw [if_pos hfull, if_pos hfits]

/-- It is refused, and the break goes over all the same. -/
theorem sbrk_of_lost (b : Break) (hregion : b.region = .dtcm)
    (hfull : mem.dtcmEnd < offset (b.addr mem) incr)
    (hfull' : mem.sharedEnd < offset mem.sharedStart incr) :
    sbrk mem b incr = (⟨some mem.sharedStart, .shared⟩, none) := by
  unfold sbrk
  rw [hregion]
  dsimp only
  rw [if_pos hfull, if_neg (not_le.mpr hfull')]

/-- It is refused in the second region. -/
theorem sbrk_of_full (b : Break) (hregion : b.region = .shared)
    (hfull : mem.sharedEnd < offset (b.addr mem) incr) :
    sbrk mem b incr = (b.started mem, none) := by
  unfold sbrk
  rw [hregion]
  dsimp only
  rw [if_pos hfull]

/-! ### What a call keeps -/

/-- A block inside of one region. -/
def OneRegion (mem : Regions) (block : Set ℤ) : Prop :=
  block ⊆ Set.Ico mem.dtcmStart mem.dtcmEnd ∨ block ⊆ Set.Ico mem.sharedStart mem.sharedEnd

/-- A call that succeeds returns a block inside of one region, apart from all that is granted; one
that fails leaves region, break and free heap as they were, and with them what any later request
gets. -/
structure Kept (mem : Regions) (s : State) (incr : ℤ) : Prop where
  inside : ∀ p, (sbrk mem s.brk incr).2 = some p → OneRegion mem (Set.Ico p (p + incr))
  apart : ∀ p, (sbrk mem s.brk incr).2 = some p → Disjoint (Set.Ico p (p + incr)) s.granted
  region : (sbrk mem s.brk incr).2 = none → (sbrk mem s.brk incr).1.region = s.brk.region
  addr : (sbrk mem s.brk incr).2 = none → (sbrk mem s.brk incr).1.addr mem = s.brk.addr mem
  free : (sbrk mem s.brk incr).2 = none → heapFree mem (sbrk mem s.brk incr).1 = heapFree mem s.brk
  later : (sbrk mem s.brk incr).2 = none → ∀ incr',
    (sbrk mem (sbrk mem s.brk incr).1 incr').2 = (sbrk mem s.brk incr').2

/-- The break stays in a region: in the one that it is in, or in the second one if it goes over.
In the second one a request may also be refused. -/
def bounded (mem : Regions) (s : State) (incr : Increment) : Prop :=
  match s.brk.region with
  | .dtcm => mem.dtcmStart ≤ offset (s.brk.addr mem) incr.val ∧
      (offset (s.brk.addr mem) incr.val ≤ mem.dtcmEnd ∨
        mem.sharedStart ≤ offset mem.sharedStart incr.val ∧
          offset mem.sharedStart incr.val ≤ mem.sharedEnd)
  | .shared => mem.sharedStart ≤ offset (s.brk.addr mem) incr.val

/-- The region that the break has left. -/
def leftBehind (mem : Regions) : Region → Set ℤ
  | .dtcm => ∅
  | .shared => Set.Ico mem.dtcmStart mem.dtcmEnd

/-- The break is in its region, and all that is granted is below it or left behind. -/
structure Inv (mem : Regions) (s : State) : Prop where
  start_le : s.brk.region.start mem ≤ s.brk.addr mem
  le_limit : s.brk.addr mem ≤ s.brk.region.limit mem
  granted : s.granted ⊆ leftBehind mem s.brk.region ∪
    Set.Ico (s.brk.region.start mem) (s.brk.addr mem)

theorem inv_start : Inv mem start where
  start_le := le_rfl
  le_limit := mem.dtcm_le
  granted := Set.empty_subset _

/-- What is left behind ends before the region that the break is in. -/
theorem lt_start_of_leftBehind {region : Region} {x : ℤ} (hx : x ∈ leftBehind mem region) :
    x < region.start mem := by
  cases region with
  | dtcm => cases hx
  | shared => exact lt_trans hx.2 mem.gap

/-- A block above the break is apart from all that is granted. -/
theorem Inv.disjoint (h : Inv mem s) {p : ℤ} (hp : s.brk.addr mem ≤ p) :
    Disjoint (Set.Ico p (p + incr)) s.granted := by
  rw [Set.disjoint_left]
  intro x hx hgranted
  have hstart := h.start_le
  rcases h.granted hgranted with hleft | hbelow
  · have hlt := lt_start_of_leftBehind hleft
    have hge := hx.1
    omega
  · have hlt := hbelow.2
    have hge := hx.1
    omega

theorem oneRegion_of_region {region : Region} {p : ℤ} (hstart : region.start mem ≤ p)
    (hlimit : p + incr ≤ region.limit mem) : OneRegion mem (Set.Ico p (p + incr)) := by
  cases region with
  | dtcm => exact .inl (Set.Ico_subset_Ico hstart hlimit)
  | shared => exact .inr (Set.Ico_subset_Ico hstart hlimit)

/-- The free heap is a matter of the address and the region. -/
theorem heapFree_started (b : Break) : heapFree mem (b.started mem) = heapFree mem b := rfl

theorem sbrk_started (b : Break) (incr : ℤ) : sbrk mem (b.started mem) incr = sbrk mem b incr := rfl

/-- A call that succeeds is kept if its block is good. -/
theorem Kept.of_some {b : Break} {p : ℤ} (hcall : sbrk mem s.brk incr = (b, some p))
    (hinside : OneRegion mem (Set.Ico p (p + incr)))
    (hapart : Disjoint (Set.Ico p (p + incr)) s.granted) : Kept mem s incr := by
  constructor
  · intro p' hp
    rw [hcall] at hp
    obtain rfl := Option.some.inj hp
    exact hinside
  · intro p' hp
    rw [hcall] at hp
    obtain rfl := Option.some.inj hp
    exact hapart
  all_goals
    intro hnone
    rw [hcall] at hnone
    cases hnone

/-- A call that fails is kept if it has only made sure that the break is not `NULL`. -/
theorem Kept.of_none (hcall : sbrk mem s.brk incr = (s.brk.started mem, none)) :
    Kept mem s incr := by
  constructor
  · intro p hp
    rw [hcall] at hp
    cases hp
  · intro p hp
    rw [hcall] at hp
    cases hp
  all_goals
    intro _
    rw [hcall]
  · rfl
  · rfl
  · exact heapFree_started s.brk
  · exact fun incr' => by rw [sbrk_started]

/-- The break moves in its region. -/
theorem Inv.stay (h : Inv mem s) (hincr : -2 ^ 31 ≤ incr ∧ incr < 2 ^ 31)
    (hbase : s.brk.region.start mem ≤ offset (s.brk.addr mem) incr)
    (hfits : offset (s.brk.addr mem) incr ≤ s.brk.region.limit mem) :
    Kept mem s incr ∧
      Inv mem ⟨(sbrk mem s.brk incr).1, s.regrant incr (sbrk mem s.brk incr).2⟩ := by
  have hstart := h.start_le
  have hlimit := h.le_limit
  have hpos := s.brk.region.start_pos mem
  have hhigh := s.brk.region.limit_lt mem
  have hcall := sbrk_of_le s.brk hfits
  have hsum := offset_eq (by omega) (by omega) hincr (lt_of_le_of_lt hfits hhigh)
  rw [hsum] at hbase hfits hcall
  constructor
  · exact Kept.of_some hcall (oneRegion_of_region hstart hfits) (h.disjoint le_rfl)
  · rw [hcall]
    refine ⟨hbase, hfits, ?_⟩
    rintro x ⟨hx, hback⟩
    -- what lies below the old break and is not given back lies below the new one
    have hnew : x < s.brk.addr mem → x < s.brk.addr mem + incr := fun hlt =>
      lt_of_not_ge fun hge => hback ⟨hge, hlt⟩
    rcases hx with hgranted | hblock
    · rcases h.granted hgranted with hleft | hbelow
      · exact .inl hleft
      · exact .inr ⟨hbelow.1, hnew hbelow.2⟩
    · exact .inr ⟨hstart.trans hblock.1, hblock.2⟩

/-- The break goes over to the second region. -/
theorem Inv.over (h : Inv mem s) (hincr : -2 ^ 31 ≤ incr ∧ incr < 2 ^ 31)
    (hregion : s.brk.region = .dtcm) (hfull : mem.dtcmEnd < offset (s.brk.addr mem) incr)
    (hbase : mem.sharedStart ≤ offset mem.sharedStart incr)
    (hfits : offset mem.sharedStart incr ≤ mem.sharedEnd) :
    Kept mem s incr ∧
      Inv mem ⟨(sbrk mem s.brk incr).1, s.regrant incr (sbrk mem s.brk incr).2⟩ := by
  have hpos : 0 < mem.sharedStart := Region.start_pos mem .shared
  have hhigh := mem.high
  have hcall := sbrk_of_over s.brk hregion hfull hfits
  have hle := mem.shared_le
  have hsum := offset_eq hpos.le (by omega) hincr (by omega)
  rw [hsum] at hbase hfits hcall
  have hbelow : s.granted ⊆ leftBehind mem .shared := by
    intro x hx
    have hlimit := h.le_limit
    rcases h.granted hx with hleft | hbelow
    · rw [hregion] at hleft
      cases hleft
    · rw [hregion] at hbelow hlimit
      exact ⟨hbelow.1, lt_of_lt_of_le hbelow.2 hlimit⟩
  constructor
  · refine Kept.of_some hcall (.inr (Set.Ico_subset_Ico le_rfl hfits)) ?_
    rw [Set.disjoint_left]
    intro x hx hgranted
    have hlt := lt_start_of_leftBehind (hbelow hgranted)
    exact absurd hx.1 (not_le.mpr hlt)
  · rw [hcall]
    refine ⟨hbase, hfits, ?_⟩
    rintro x ⟨hx | hx, -⟩
    · exact .inl (hbelow hx)
    · exact .inr hx

/-- The second region has no room, and the break stays where it is. -/
theorem Inv.refuse (h : Inv mem s) (hregion : s.brk.region = .shared)
    (hfull : mem.sharedEnd < offset (s.brk.addr mem) incr) :
    Kept mem s incr ∧
      Inv mem ⟨(sbrk mem s.brk incr).1, s.regrant incr (sbrk mem s.brk incr).2⟩ := by
  have hcall := sbrk_of_full s.brk hregion hfull
  constructor
  · exact Kept.of_none hcall
  · rw [hcall]
    exact ⟨h.start_le, h.le_limit, h.granted⟩

/-- **A bounded call is kept, and keeps the invariant**. -/
theorem Inv.call (h : Inv mem s) (incr : Increment) (hbounded : bounded mem s incr) :
    Kept mem s incr.val ∧
      Inv mem ⟨(sbrk mem s.brk incr.val).1, s.regrant incr.val (sbrk mem s.brk incr.val).2⟩ := by
  unfold bounded at hbounded
  cases hregion : s.brk.region with
  | dtcm =>
    rw [hregion] at hbounded
    obtain ⟨hbase, hroom⟩ := hbounded
    by_cases hfits : offset (s.brk.addr mem) incr.val ≤ mem.dtcmEnd
    · exact h.stay incr.property (by rw [hregion]; exact hbase) (by rw [hregion]; exact hfits)
    · obtain ⟨hbase', hfits'⟩ := hroom.resolve_left hfits
      exact h.over incr.property hregion (not_le.mp hfits) hbase' hfits'
  | shared =>
    rw [hregion] at hbounded
    by_cases hfits : offset (s.brk.addr mem) incr.val ≤ mem.sharedEnd
    · exact h.stay incr.property (by rw [hregion]; exact hbounded) (by rw [hregion]; exact hfits)
    · exact h.refuse hregion (not_le.mp hfits)

/-! ### Runs -/

open Machine

/-- **Run lemma**. -/
theorem inv_of_reachable (h : (machine mem).Reachable (bounded mem) s) : Inv mem s := by
  refine invariant (fun _ hs => hs ▸ inv_start) (fun s incr s' hs hg hst => ?_) h
  obtain rfl := Option.some.inj hst
  exact (hs.call incr hg).2

/-- With the break below the start of its region some request gets a block that is in neither. -/
theorem exists_not_kept_of_lt (h0 : 0 ≤ s.brk.addr mem)
    (hlow : s.brk.addr mem < s.brk.region.start mem) :
    ∃ incr : Increment, ¬ Kept mem s incr.val := by
  have hle := mem.dtcm_le
  have hgap := mem.gap
  have hle' := mem.shared_le
  have hhigh := mem.high
  have hstart : s.brk.region.start mem ≤ s.brk.region.limit mem := by
    cases s.brk.region <;> simp only [Region.start, Region.limit] <;> omega
  have hlimit := s.brk.region.limit_lt mem
  refine ⟨⟨s.brk.region.start mem - s.brk.addr mem, by omega⟩, fun hkept => ?_⟩
  have hsum : offset (s.brk.addr mem) (s.brk.region.start mem - s.brk.addr mem)
      = s.brk.region.start mem := by
    unfold offset
    omega
  have hcall := sbrk_of_le s.brk (hsum.trans_le hstart)
  have hinside := hkept.inside (s.brk.addr mem) (by rw [hcall])
  -- the block ends where the region begins
  have hfirst : s.brk.addr mem ∈ Set.Ico (s.brk.addr mem)
      (s.brk.addr mem + (s.brk.region.start mem - s.brk.addr mem)) := ⟨le_rfl, by omega⟩
  have hlast : s.brk.region.start mem - 1 ∈ Set.Ico (s.brk.addr mem)
      (s.brk.addr mem + (s.brk.region.start mem - s.brk.addr mem)) := ⟨by omega, by omega⟩
  rcases hinside with hdtcm | hshared
  · have hge := (hdtcm hfirst).1
    have hlt := (hdtcm hlast).2
    cases hregion : s.brk.region <;> simp only [hregion, Region.start] at hlow hlt <;> omega
  · have hge := (hshared hfirst).1
    cases hregion : s.brk.region <;> simp only [hregion, Region.start] at hlow <;> omega

/-- **A call that is not bounded is not kept, or some call after it is not**. -/
theorem exists_not_kept (incr : Increment) (hbounded : ¬ bounded mem s incr) :
    ¬ Kept mem s incr.val ∨ ∃ incr' : Increment, ¬ Kept mem
      ⟨(sbrk mem s.brk incr.val).1, s.regrant incr.val (sbrk mem s.brk incr.val).2⟩ incr'.val := by
  have hgap := mem.gap
  have hle := mem.dtcm_le
  have hle' := mem.shared_le
  unfold bounded at hbounded
  cases hregion : s.brk.region with
  | dtcm =>
    rw [hregion] at hbounded
    by_cases hfits : offset (s.brk.addr mem) incr.val ≤ mem.dtcmEnd
    · right
      have hlow : offset (s.brk.addr mem) incr.val < mem.dtcmStart :=
        not_le.mp fun hbase => hbounded ⟨hbase, .inl hfits⟩
      rw [sbrk_of_le s.brk (by rw [hregion]; exact hfits)]
      refine exists_not_kept_of_lt (offset_nonneg _ _) ?_
      dsimp only
      rw [hregion]
      exact hlow
    · have hfull := not_le.mp hfits
      by_cases hfits' : offset mem.sharedStart incr.val ≤ mem.sharedEnd
      · right
        have hlow : offset mem.sharedStart incr.val < mem.sharedStart :=
          not_le.mp fun hbase => hbounded ⟨by omega, .inr ⟨hbase, hfits'⟩⟩
        rw [sbrk_of_over s.brk hregion hfull hfits']
        exact exists_not_kept_of_lt (offset_nonneg _ _) hlow
      · -- the refused request has moved the break
        left
        intro hkept
        have hcall := sbrk_of_lost s.brk hregion hfull (not_le.mp hfits')
        have hmoved := hkept.region (by rw [hcall])
        rw [hcall, hregion] at hmoved
        cases hmoved
  | shared =>
    right
    rw [hregion] at hbounded
    have hlow := not_le.mp hbounded
    rw [sbrk_of_le s.brk (by rw [hregion]; exact hlow.le.trans hle')]
    refine exists_not_kept_of_lt (offset_nonneg _ _) ?_
    dsimp only
    rw [hregion]
    exact hlow

/-- The regions of a sketch with 64 KB of data in DTCM. -/
def sketch : Regions where
  dtcmStart := 0x200d0400
  dtcmEnd := 0x20100000
  sharedStart := 0x2010d400
  sharedEnd := 0x20180000
  pos := by decide
  dtcm_le := by decide
  gap := by decide
  shared_le := by decide
  high := by decide

/-- An increment of a given number of bytes. -/
def bytes (n : ℤ) (hn : -2 ^ 31 ≤ n ∧ n < 2 ^ 31) : Increment := ⟨n, hn⟩

end Ch32h4.Heap
