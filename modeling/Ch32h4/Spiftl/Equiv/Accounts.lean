import Ch32h4.Spiftl.Collector
import Ch32h4.Tally
import Mathlib.Tactic.Linarith

/-!
# The accounts of a volume

What the incrementally kept numbers of a volume stand for, one predicate for each table:

* `Placed`: the entries of `l2p` name slots of the geometry, no two the same slot, and `ebState`
  of a block is the number of sectors that live in it, or the sentinel when none does;
* `WearOk`: `highestPECount` is the maximum of `peCount`;
* `MetaList`: `metaEBList` lists the blocks whose state is the sentinel, each once;
* `emptyCount`: the number `emptyEBs` should be.

Each of the single changes the code makes to these tables has one lemma here; the loops are in the
modules that follow.
-/

namespace Ch32h4.Spiftl

open Finset (range)

/-- Where each sector lives. -/
abbrev Places := ℕ → Option (ℕ × ℕ)

/-- The number of sectors that live in a block. -/
def liveIn (g : Dims) (loc : Places) (eb : ℕ) : ℕ :=
  tally (range g.flashLBAs) loc fun x => x.map Prod.fst = some eb

/-- The number of blocks whose state is zero. -/
def emptyCount (g : Dims) (st : ℕ → ℕ) : ℕ := tally (range g.eraseBlocks) st (· = 0)

/-- The state of a block counts the sectors that live in it, or marks it as metadata. -/
structure Placed (g : Dims) (loc : Places) (st : ℕ → ℕ) : Prop where
  bounds : ∀ lba < g.flashLBAs, ∀ eb idx, loc lba = some (eb, idx) →
    eb < g.eraseBlocks ∧ idx < g.slotsPerEB
  inj : ∀ lba < g.flashLBAs, ∀ lba' < g.flashLBAs, ∀ x, loc lba = some x → loc lba' = some x →
    lba = lba'
  count : ∀ eb < g.eraseBlocks, st eb = liveIn g loc eb ∨ (st eb = ebMeta ∧ liveIn g loc eb = 0)

/-- The maximum kept beside the erase counts, which are bytes. -/
structure WearOk (g : Dims) (pe : ℕ → ℕ) (highest : ℤ) : Prop where
  byte : ∀ eb < g.eraseBlocks, pe eb < 256
  le : ∀ eb < g.eraseBlocks, (pe eb : ℤ) ≤ highest
  attained : ∃ eb < g.eraseBlocks, (pe eb : ℤ) = highest

/-- The list of the metadata blocks. -/
structure MetaList (g : Dims) (st : ℕ → ℕ) (l : List (Option ℕ)) : Prop where
  length : l.length = g.metaEBs
  lt : ∀ eb, some eb ∈ l → eb < g.eraseBlocks
  listed : ∀ eb < g.eraseBlocks, l.count (some eb) = if st eb = ebMeta then 1 else 0

/-! ### Counting live sectors -/

section

variable {g : Dims} {loc : Places} {lba : ℕ}

theorem liveIn_pos {eb : ℕ} :
    0 < liveIn g loc eb ↔ ∃ lba < g.flashLBAs, ∃ idx, loc lba = some (eb, idx) := by
  rw [liveIn, tally_pos]
  constructor
  · rintro ⟨lba, hlba, hmap⟩
    obtain ⟨⟨c, idx⟩, hloc, rfl⟩ := Option.map_eq_some_iff.mp hmap
    exact ⟨lba, Finset.mem_range.mp hlba, idx, hloc⟩
  · rintro ⟨lba, hlba, idx, hloc⟩
    exact ⟨lba, Finset.mem_range.mpr hlba, by rw [hloc]; rfl⟩

/-- A sector without a place gets one. -/
theorem liveIn_place (hlba : lba < g.flashLBAs) (hnone : loc lba = none) (eb idx : ℕ) :
    liveIn g (Function.update loc lba (some (eb, idx))) eb = liveIn g loc eb + 1 :=
  tally_update_gain (Finset.mem_range.mpr hlba) (by simp [hnone]) rfl

theorem liveIn_place_of_ne (hnone : loc lba = none) {eb e : ℕ} (idx : ℕ) (hne : e ≠ eb) :
    liveIn g (Function.update loc lba (some (eb, idx))) e = liveIn g loc e :=
  tally_update_same (by simp [hnone, hne.symm])

/-- A sector gives up its place. -/
theorem liveIn_drop (hlba : lba < g.flashLBAs) {eb idx : ℕ} (hsome : loc lba = some (eb, idx)) :
    liveIn g (Function.update loc lba none) eb + 1 = liveIn g loc eb :=
  tally_update_loss (Finset.mem_range.mpr hlba) (by rw [hsome]; rfl) (by simp)

theorem liveIn_drop_of_ne {eb idx e : ℕ} (hsome : loc lba = some (eb, idx)) (hne : e ≠ eb) :
    liveIn g (Function.update loc lba none) e = liveIn g loc e :=
  tally_update_same (by simp [hsome, hne.symm])

end

/-! ### Places -/

namespace Placed

variable {g : Geometry} {loc : Places} {st : ℕ → ℕ}

/-- A block holds no more live sectors than it has slots. -/
theorem liveIn_le (h : Placed g.toDims loc st) (eb : ℕ) : liveIn g.toDims loc eb ≤ g.slotsPerEB :=
  tally_le_of_slots eb
    (fun lba hlba c n hloc => (h.bounds lba (Finset.mem_range.mp hlba) c n hloc).2)
    fun lba hlba lba' hlba' => h.inj lba (Finset.mem_range.mp hlba) lba' (Finset.mem_range.mp hlba')

theorem liveIn_lt_ebMeta (h : Placed g.toDims loc st) (eb : ℕ) : liveIn g.toDims loc eb < ebMeta :=
  (h.liveIn_le eb).trans_lt g.slots_lt

theorem state_eq (h : Placed g.toDims loc st) {eb : ℕ} (heb : eb < g.eraseBlocks)
    (hst : st eb ≠ ebMeta) : st eb = liveIn g.toDims loc eb :=
  (h.count eb heb).resolve_right fun hm => hst hm.1

theorem state_le (h : Placed g.toDims loc st) {eb : ℕ} (heb : eb < g.eraseBlocks) :
    st eb ≤ ebMeta := by
  rcases h.count eb heb with hc | ⟨hm, -⟩
  · exact hc ▸ (h.liveIn_lt_ebMeta eb).le
  · exact hm.le

theorem liveIn_of_meta (h : Placed g.toDims loc st) {eb : ℕ} (heb : eb < g.eraseBlocks)
    (hst : st eb = ebMeta) : liveIn g.toDims loc eb = 0 := by
  rcases h.count eb heb with hc | ⟨-, hzero⟩
  · exact absurd (hc ▸ hst) (h.liveIn_lt_ebMeta eb).ne
  · exact hzero

/-- The block of a live sector is not metadata and not empty. -/
theorem state_of_loc (h : Placed g.toDims loc st) {lba eb idx : ℕ} (hlba : lba < g.flashLBAs)
    (hloc : loc lba = some (eb, idx)) : st eb ≠ ebMeta ∧ 0 < st eb := by
  have heb := (h.bounds lba hlba eb idx hloc).1
  have hpos : 0 < liveIn g.toDims loc eb := liveIn_pos.mpr ⟨lba, hlba, idx, hloc⟩
  have hne : st eb ≠ ebMeta := fun hm => hpos.ne' (h.liveIn_of_meta heb hm)
  exact ⟨hne, h.state_eq heb hne ▸ hpos⟩

/-- No sector lives in a block that is empty or metadata. -/
theorem not_loc (h : Placed g.toDims loc st) {eb : ℕ} (hst : st eb = 0 ∨ st eb = ebMeta)
    {lba idx : ℕ} (hlba : lba < g.flashLBAs) : loc lba ≠ some (eb, idx) := by
  intro hloc
  obtain ⟨hne, hpos⟩ := h.state_of_loc hlba hloc
  rcases hst with hzero | hmeta
  · exact hpos.ne' hzero
  · exact hne hmeta

/-- Only the places of the sectors and the states of the blocks of the geometry matter. -/
theorem congr (h : Placed g.toDims loc st) {loc' : Places} {st' : ℕ → ℕ}
    (hloc : ∀ lba < g.flashLBAs, loc' lba = loc lba) (hst : ∀ eb < g.eraseBlocks, st' eb = st eb) :
    Placed g.toDims loc' st' := by
  refine ⟨fun lba hlba => hloc lba hlba ▸ h.bounds lba hlba, fun lba hlba lba' hlba' => ?_,
    fun eb heb => ?_⟩
  · rw [hloc lba hlba, hloc lba' hlba']
    exact h.inj lba hlba lba' hlba'
  · have hlive : liveIn g.toDims loc' eb = liveIn g.toDims loc eb :=
      tally_congr fun lba hlba => by rw [hloc lba (Finset.mem_range.mp hlba)]
    rw [hst eb heb, hlive]
    exact h.count eb heb

/-- An empty block becomes metadata. -/
theorem toMeta (h : Placed g.toDims loc st) {eb : ℕ} (hst : st eb = 0) :
    Placed g.toDims loc (Function.update st eb ebMeta) := by
  refine ⟨h.bounds, h.inj, fun e he => ?_⟩
  rcases eq_or_ne e eb with rfl | hne
  · have hzero : st e = liveIn g.toDims loc e := h.state_eq he (by rw [hst]; decide)
    rw [Function.update_self]
    exact .inr ⟨rfl, hzero ▸ hst⟩
  · rw [Function.update_of_ne hne]
    exact h.count e he

/-- A metadata block becomes empty. -/
theorem toEmpty (h : Placed g.toDims loc st) {eb : ℕ} (hst : st eb = ebMeta) :
    Placed g.toDims loc (Function.update st eb 0) := by
  refine ⟨h.bounds, h.inj, fun e he => ?_⟩
  rcases eq_or_ne e eb with rfl | hne
  · rw [Function.update_self]
    exact .inl (h.liveIn_of_meta he hst).symm
  · rw [Function.update_of_ne hne]
    exact h.count e he

/-- A sector moves into a free slot. -/
theorem place (h : Placed g.toDims loc st) {lba eb idx : ℕ} (hlba : lba < g.flashLBAs)
    (hnone : loc lba = none) (heb : eb < g.eraseBlocks) (hidx : idx < g.slotsPerEB)
    (hst : st eb ≠ ebMeta) (hfree : ∀ lba' < g.flashLBAs, loc lba' ≠ some (eb, idx)) :
    Placed g.toDims (Function.update loc lba (some (eb, idx)))
      (Function.update st eb (st eb + 1)) := by
  refine ⟨fun lba' hlba' e i hloc => ?_, fun a ha b hb x hax hbx => ?_, fun e he => ?_⟩
  · rcases eq_or_ne lba' lba with rfl | hne
    · rw [Function.update_self, Option.some.injEq, Prod.mk.injEq] at hloc
      exact ⟨hloc.1 ▸ heb, hloc.2 ▸ hidx⟩
    · rw [Function.update_of_ne hne] at hloc
      exact h.bounds lba' hlba' e i hloc
  · rcases eq_or_ne a lba with ha' | hna <;> rcases eq_or_ne b lba with hb' | hnb
    · exact ha'.trans hb'.symm
    · rw [ha', Function.update_self] at hax
      rw [Function.update_of_ne hnb, ← hax] at hbx
      exact absurd hbx (hfree b hb)
    · rw [hb', Function.update_self] at hbx
      rw [Function.update_of_ne hna, ← hbx] at hax
      exact absurd hax (hfree a ha)
    · rw [Function.update_of_ne hna] at hax
      rw [Function.update_of_ne hnb] at hbx
      exact h.inj a ha b hb x hax hbx
  · rcases eq_or_ne e eb with rfl | hne
    · rw [Function.update_self, liveIn_place hlba hnone]
      exact .inl (congrArg (· + 1) (h.state_eq he hst))
    · rw [Function.update_of_ne hne, liveIn_place_of_ne hnone idx hne]
      exact h.count e he

/-- A sector gives up its slot. -/
theorem drop (h : Placed g.toDims loc st) {lba eb idx : ℕ} (hlba : lba < g.flashLBAs)
    (hloc : loc lba = some (eb, idx)) :
    Placed g.toDims (Function.update loc lba none) (Function.update st eb (st eb - 1)) := by
  have hother : ∀ {a : ℕ} {x}, Function.update loc lba none a = some x → loc a = some x := by
    intro a x hax
    rcases eq_or_ne a lba with rfl | hne
    · rw [Function.update_self] at hax
      cases hax
    · rwa [Function.update_of_ne hne] at hax
  refine ⟨fun a ha e i hax => h.bounds a ha e i (hother hax),
    fun a ha b hb x hax hbx => h.inj a ha b hb x (hother hax) (hother hbx), fun e he => ?_⟩
  rcases eq_or_ne e eb with rfl | hne
  · have hcount := h.state_eq he (h.state_of_loc hlba hloc).1
    have hdrop := liveIn_drop hlba hloc
    rw [Function.update_self]
    exact .inl (by omega)
  · rw [Function.update_of_ne hne, liveIn_drop_of_ne hloc hne]
    exact h.count e he

end Placed

/-! ### Empty blocks -/

section

variable {g : Dims} {st : ℕ → ℕ} {eb v : ℕ}

theorem emptyCount_same (h : v = 0 ↔ st eb = 0) :
    emptyCount g (Function.update st eb v) = emptyCount g st :=
  tally_update_same h

theorem emptyCount_gain (heb : eb < g.eraseBlocks) (hold : st eb ≠ 0) :
    emptyCount g (Function.update st eb 0) = emptyCount g st + 1 :=
  tally_update_gain (Finset.mem_range.mpr heb) hold rfl

theorem emptyCount_loss (heb : eb < g.eraseBlocks) (hold : st eb = 0) (hnew : v ≠ 0) :
    emptyCount g (Function.update st eb v) + 1 = emptyCount g st :=
  tally_update_loss (Finset.mem_range.mpr heb) hold hnew

end

/-! ### The list of metadata blocks -/

namespace MetaList

variable {g : Dims} {st : ℕ → ℕ} {pre l : List (Option ℕ)} {eb : ℕ}

/-- The list depends only on which blocks are metadata. -/
theorem congr (h : MetaList g st l) {st' : ℕ → ℕ}
    (hst : ∀ eb < g.eraseBlocks, st' eb = ebMeta ↔ st eb = ebMeta) : MetaList g st' l :=
  ⟨h.length, h.lt, fun eb heb => by rw [h.listed eb heb]; simp only [hst eb heb]⟩

theorem mem_iff (h : MetaList g st l) (heb : eb < g.eraseBlocks) :
    some eb ∈ l ↔ st eb = ebMeta := by
  rw [← List.count_pos_iff, h.listed eb heb]
  split_ifs with hm <;> simp [hm]

theorem state_of_mem (h : MetaList g st l) (hmem : some eb ∈ l) : st eb = ebMeta :=
  (h.mem_iff (h.lt eb hmem)).mp hmem

/-- An entry is taken off the list. -/
theorem remove (h : MetaList g st (pre ++ some eb :: l)) :
    MetaList g (Function.update st eb 0) (pre ++ none :: l) := by
  have heb : eb < g.eraseBlocks := h.lt eb (by simp)
  have hmeta : st eb = ebMeta := h.state_of_mem (by simp)
  refine ⟨by simpa using h.length, fun e he => h.lt e ?_, fun e he => ?_⟩
  · simp only [List.mem_append, List.mem_cons, reduceCtorEq, false_or] at he ⊢
    exact he.imp_right .inr
  · have hlisted := h.listed e he
    simp only [List.count_append, List.count_cons] at hlisted ⊢
    rcases eq_or_ne e eb with rfl | hne
    · simp [hmeta] at hlisted
      simp [ebMeta]
      omega
    · simp [hne.symm] at hlisted
      simpa [Function.update_of_ne hne] using hlisted

/-- An empty block is put on the list. -/
theorem insert (h : MetaList g st (pre ++ none :: l)) (heb : eb < g.eraseBlocks)
    (hst : st eb = 0) : MetaList g (Function.update st eb ebMeta) (pre ++ some eb :: l) := by
  refine ⟨by simpa using h.length, fun e he => ?_, fun e he => ?_⟩
  · simp only [List.mem_append, List.mem_cons, Option.some.injEq] at he
    rcases he with he | rfl | he
    · exact h.lt e (by simp [he])
    · exact heb
    · exact h.lt e (by simp [he])
  · have hlisted := h.listed e he
    simp only [List.count_append, List.count_cons] at hlisted ⊢
    rcases eq_or_ne e eb with rfl | hne
    · simp [hst, ebMeta] at hlisted
      simp [hlisted]
    · simp at hlisted
      simpa [Function.update_of_ne hne, hne.symm] using hlisted

/-- There are at most `metaEBs` metadata blocks. -/
theorem tally_le (h : MetaList g st l) :
    tally (range g.eraseBlocks) st (· = ebMeta) ≤ g.metaEBs := by
  rw [← h.length]
  refine le_trans ?_ l.toFinset_card_le
  refine Finset.card_le_card_of_injOn some (fun eb heb => ?_) (Option.some_injective _).injOn
  obtain ⟨hlt, hmeta⟩ := Finset.mem_filter.mp heb
  exact List.mem_toFinset.mpr ((h.mem_iff (Finset.mem_range.mp hlt)).mpr hmeta)

end MetaList

/-! ### Erase counts -/

theorem Ftl.resetWear_peCount (r : Ram) (eb : ℕ) :
    (Ftl.resetWear r).peCount eb = r.peCount eb - maxPEDiff := by
  simp only [Ftl.resetWear]
  split_ifs <;> omega

namespace WearOk

variable {g : Dims} {r : Ram} {eb : ℕ}

theorem resetWear (h : WearOk g r.peCount r.highestPECount) (heb : eb < g.eraseBlocks)
    (hpe : 250 < r.peCount eb) :
    WearOk g (Ftl.resetWear r).peCount (Ftl.resetWear r).highestPECount := by
  have hhigh := h.le eb heb
  have hval : (Ftl.resetWear r).highestPECount = r.highestPECount - 64 := rfl
  refine ⟨fun e he => ?_, fun e he => ?_, ?_⟩
  · have := h.byte e he
    rw [Ftl.resetWear_peCount]
    omega
  · have := h.le e he
    rw [Ftl.resetWear_peCount, hval, maxPEDiff]
    omega
  · obtain ⟨e, he, heq⟩ := h.attained
    refine ⟨e, he, ?_⟩
    rw [Ftl.resetWear_peCount, hval, maxPEDiff]
    omega

theorem bumpWear (h : WearOk g r.peCount r.highestPECount) (heb : eb < g.eraseBlocks)
    (hpe : r.peCount eb ≤ 250) :
    WearOk g (Ftl.bumpWear r eb).peCount (Ftl.bumpWear r eb).highestPECount := by
  have hmod : (r.peCount eb + 1) % 256 = r.peCount eb + 1 := Nat.mod_eq_of_lt (by omega)
  have hstep : (Ftl.bumpWear r eb).highestPECount = max r.highestPECount (r.peCount eb + 1) := by
    simp only [Ftl.bumpWear, hmod]
    push_cast
    split_ifs with hlt <;> omega
  have hother : ∀ e, e ≠ eb → (Ftl.bumpWear r eb).peCount e = r.peCount e := fun e hne => by
    simp [Ftl.bumpWear, hne]
  have hself : (Ftl.bumpWear r eb).peCount eb = r.peCount eb + 1 := by
    simp [Ftl.bumpWear, hmod]
  rw [hstep]
  refine ⟨fun e he => ?_, fun e he => ?_, ?_⟩
  · rcases eq_or_ne e eb with rfl | hne
    · omega
    · exact (hother e hne).symm ▸ h.byte e he
  · rcases eq_or_ne e eb with rfl | hne
    · rw [hself]
      push_cast
      exact le_max_right _ _
    · rw [hother e hne]
      exact (h.le e he).trans (le_max_left _ _)
  · -- the maximum is attained where it was, unless the block overtakes it
    rcases le_or_gt (r.peCount eb + 1 : ℤ) r.highestPECount with hle | hgt
    · obtain ⟨e, he, heq⟩ := h.attained
      refine ⟨e, he, ?_⟩
      rw [max_eq_left hle, hother e, heq]
      rintro rfl
      omega
    · exact ⟨eb, heb, by rw [hself, max_eq_right hgt.le]; push_cast; rfl⟩

/-- `eraseEB` keeps the maximum right. -/
theorem wearEB (h : WearOk g r.peCount r.highestPECount) (heb : eb < g.eraseBlocks) :
    WearOk g (Ftl.wearEB r eb).peCount (Ftl.wearEB r eb).highestPECount := by
  rw [Ftl.wearEB]
  split_ifs with hpe
  · refine (h.resetWear heb hpe).bumpWear heb ?_
    have := h.byte eb heb
    rw [Ftl.resetWear_peCount, maxPEDiff]
    omega
  · exact h.bumpWear heb (by omega)

end WearOk

/-! ### The tables together -/

/-- The accounts are right, with the metadata blocks as listed in `l`, and up to `drift` empty
blocks that `emptyEBs` does not count. -/
structure Accounted (g : Dims) (drift : ℤ) (l : List (Option ℕ)) (r : Ram) : Prop where
  placed : Placed g (r.findLBA g) r.ebState
  wear : WearOk g r.peCount r.highestPECount
  metas : MetaList g r.ebState l
  empties : r.emptyEBs + drift = emptyCount g r.ebState

namespace Ram

variable (r : Ram) {eb v : ℕ}

theorem setEBState_ebState (hv : v < 256) :
    (r.setEBState eb v).ebState = Function.update r.ebState eb v := by
  rw [setEBState, Nat.mod_eq_of_lt hv]

@[simp] theorem setEBState_findLBA (g : Dims) : (r.setEBState eb v).findLBA g = r.findLBA g := rfl

@[simp] theorem setEBMeta_findLBA (g : Dims) : (r.setEBMeta eb).findLBA g = r.findLBA g := rfl

theorem setEBMeta_ebState : (r.setEBMeta eb).ebState = Function.update r.ebState eb ebMeta :=
  r.setEBState_ebState (by decide)

theorem clearLBAValid_ebState (h : 0 < r.ebState eb) (h' : r.ebState eb ≤ ebMeta) :
    (r.clearLBAValid eb).ebState = Function.update r.ebState eb (r.ebState eb - 1) := by
  have hmod : (r.ebState eb + 255) % 256 = r.ebState eb - 1 := by
    rw [ebMeta] at h'
    omega
  rw [clearLBAValid, setEBState, hmod]

theorem setLBAValid_ebState (h : r.ebState eb < ebMeta) :
    (r.setLBAValid eb).ebState = Function.update r.ebState eb (r.ebState eb + 1) :=
  r.setEBState_ebState (by rw [ebMeta] at h; omega)

/-- A table with one entry changed, read through `findLBA`. -/
theorem findLBA_of_update_l2p {g : Geometry} {r r' : Ram} {lba idx : ℕ}
    (hr : r'.l2p = Function.update r.l2p lba (g.makeL2P idx eb)) (heb : eb < g.eraseBlocks)
    (hidx : idx < g.slotsPerEB) :
    r'.findLBA g.toDims = Function.update (r.findLBA g.toDims) lba (some (eb, idx)) := by
  have heb' := heb.trans_le g.blocks_le
  have hidx' := hidx.trans_le g.slots_le
  funext a
  rcases eq_or_ne a lba with rfl | hne
  · simp [findLBA, hr, g.l2pEb_makeL2P hidx' heb', g.l2pIdx_makeL2P hidx' heb']
  · simp [findLBA, hr, Function.update_of_ne hne]

theorem findLBA_of_clear_l2p {g : Dims} {r r' : Ram} {lba : ℕ}
    (hr : r'.l2p = Function.update r.l2p lba 0) :
    r'.findLBA g = Function.update (r.findLBA g) lba none := by
  funext a
  rcases eq_or_ne a lba with rfl | hne
  · simp [findLBA, hr]
  · simp [findLBA, hr, Function.update_of_ne hne]

theorem findLBA_congr {g : Dims} {r r' : Ram} (h : r'.l2p = r.l2p) :
    r'.findLBA g = r.findLBA g := by
  funext a
  rw [findLBA, findLBA, h]

theorem findLBA_eq_some {g : Dims} {r : Ram} {lba idx : ℕ} :
    r.findLBA g lba = some (eb, idx) ↔
      l2pVal (r.l2p lba) = true ∧ g.l2pEb (r.l2p lba) = eb ∧ g.l2pIdx (r.l2p lba) = idx := by
  rw [findLBA]
  split_ifs with h <;> simp [h]

theorem findLBA_eq_none {g : Dims} {r : Ram} {lba : ℕ} :
    r.findLBA g lba = none ↔ l2pVal (r.l2p lba) = false := by
  rw [findLBA]
  split_ifs with h <;> simp [h]

end Ram

/-! ### Single changes -/

section

variable {g : Geometry} {l : List (Option ℕ)} {r : Ram} {drift : ℤ} {lba eb idx : ℕ} (r' : Ram)

/-- A sector takes a free slot: its block is empty no more. -/
theorem accounted_place (h : Accounted g.toDims drift l r) (hlba : lba < g.flashLBAs)
    (hnone : r.findLBA g.toDims lba = none) (heb : eb < g.eraseBlocks) (hidx : idx < g.slotsPerEB)
    (hmeta : r.ebState eb ≠ ebMeta)
    (hfree : ∀ lba' < g.flashLBAs, r.findLBA g.toDims lba' ≠ some (eb, idx))
    (hloc : r'.findLBA g.toDims = Function.update (r.findLBA g.toDims) lba (some (eb, idx)))
    (hst : r'.ebState = Function.update r.ebState eb (r.ebState eb + 1))
    (hwear : r'.peCount = r.peCount ∧ r'.highestPECount = r.highestPECount)
    (hempty : r'.emptyEBs = r.emptyEBs) :
    Accounted g.toDims (drift - if r.ebState eb = 0 then 1 else 0) l r' := by
  have hplaced := h.placed.place hlba hnone heb hidx hmeta hfree
  refine ⟨by rwa [hloc, hst], by rw [hwear.1, hwear.2]; exact h.wear, ?_, ?_⟩
  · refine h.metas.congr fun e he => ?_
    rw [hst]
    rcases eq_or_ne e eb with rfl | hne
    · have hlt := hplaced.liveIn_lt_ebMeta e
      have hcount := h.placed.state_eq he hmeta
      rw [liveIn_place hlba hnone] at hlt
      rw [Function.update_self]
      omega
    · rw [Function.update_of_ne hne]
  · have hempties := h.empties
    rw [hst, hempty]
    split_ifs with hzero
    · have := emptyCount_loss (v := r.ebState eb + 1) heb hzero (Nat.succ_ne_zero _)
      omega
    · have : emptyCount g.toDims (Function.update r.ebState eb (r.ebState eb + 1)) =
          emptyCount g.toDims r.ebState := emptyCount_same (by omega)
      omega

/-- A sector gives up its slot: its block may be empty now, and `emptyEBs` counts it or not. -/
theorem accounted_drop (h : Accounted g.toDims drift l r) (hlba : lba < g.flashLBAs)
    (hsome : r.findLBA g.toDims lba = some (eb, idx)) {counted : ℤ}
    (hloc : r'.findLBA g.toDims = Function.update (r.findLBA g.toDims) lba none)
    (hst : r'.ebState = Function.update r.ebState eb (r.ebState eb - 1))
    (hwear : r'.peCount = r.peCount ∧ r'.highestPECount = r.highestPECount)
    (hempty : r'.emptyEBs = r.emptyEBs + counted) :
    Accounted g.toDims (drift + (if r.ebState eb = 1 then 1 else 0) - counted) l r' := by
  obtain ⟨hmeta, hpos⟩ := h.placed.state_of_loc hlba hsome
  have heb := (h.placed.bounds lba hlba eb idx hsome).1
  have hplaced := h.placed.drop hlba hsome
  refine ⟨by rwa [hloc, hst], by rw [hwear.1, hwear.2]; exact h.wear, ?_, ?_⟩
  · refine h.metas.congr fun e he => ?_
    rw [hst]
    rcases eq_or_ne e eb with rfl | hne
    · have := h.placed.state_le he
      rw [Function.update_self]
      omega
    · rw [Function.update_of_ne hne]
  · have hempties := h.empties
    rw [hst, hempty]
    split_ifs with hone
    · have hgain := emptyCount_gain heb hpos.ne'
      rw [hone, Nat.sub_self]
      omega
    · have : emptyCount g.toDims (Function.update r.ebState eb (r.ebState eb - 1)) =
          emptyCount g.toDims r.ebState := emptyCount_same (by omega)
      omega

end

end Ch32h4.Spiftl
