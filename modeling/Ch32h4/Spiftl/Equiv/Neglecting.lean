import Ch32h4.Spiftl.Equiv.Levelling
import Ch32h4.Spiftl.Equiv.Taking

/-!
# A block that is never erased

A volume is started, one sector is written, and then the volume is persisted again and again.  Each
persist finds one copy of its tables on flash, gives up the one before, and writes the next to the
least worn of the empty blocks (`Rewriting.persist`).  The block of the sector is not among these:
its count stays where it is while the others go up (`not_levelled_of_reachable`).
-/

namespace Ch32h4.Spiftl

open Flash Machine Spread

namespace Ftl

/-! ### Opening a stream -/

section

variable {g : Dims} {s s' : Ftl} {r : Ram} {eb i n : ℕ} {l : List (Option ℕ)}

/-- An empty block is found if there is one. -/
theorem exists_lowestEmptyEB (hlt : eb < g.eraseBlocks) (hst : r.ebState eb = 0)
    (hpe : r.peCount eb < 256) : ∃ e, r.lowestEmptyEB g = some e := by
  -- once a block is found, one is found
  have hstay : ∀ (l : List ℕ) (x : ℕ × Option ℕ), x.2 ≠ none →
      (l.foldl (fun lowest i => if r.peCount i ≤ lowest.1 ∧ r.ebState i = 0 then
        (r.peCount i, some i) else lowest) x).2 ≠ none := by
    intro l
    induction l with
    | nil => exact fun _ hx => hx
    | cons i l ih =>
      intro x hx
      rw [List.foldl_cons]
      refine ih _ ?_
      split_ifs
      · exact Option.some_ne_none i
      · exact hx
  have hfind : ∀ (l : List ℕ) (x : ℕ × Option ℕ), (x.2 = none → 256 ≤ x.1) → eb ∈ l →
      (l.foldl (fun lowest i => if r.peCount i ≤ lowest.1 ∧ r.ebState i = 0 then
        (r.peCount i, some i) else lowest) x).2 ≠ none := by
    intro l
    induction l with
    | nil => exact fun _ _ hmem => absurd hmem List.not_mem_nil
    | cons i l ih =>
      intro x hx hmem
      by_cases hnone : x.2 = none
      · rw [List.foldl_cons]
        rcases List.mem_cons.mp hmem with rfl | hmem
        · rw [if_pos ⟨hpe.le.trans (hx hnone), hst⟩]
          exact hstay _ _ (Option.some_ne_none eb)
        · refine ih _ (fun hn => ?_) hmem
          split_ifs at hn ⊢
          exact hx hn
      · exact hstay _ _ hnone
  exact Option.ne_none_iff_exists'.mp
    (hfind _ _ (fun _ => by decide) (List.mem_range.mpr hlt))

theorem freeStale_of_current (h : Current g s.ram.metadataEpoch s.flash i) :
    freeStale g (some i :: l) s = (some i :: (freeStale g l s).1, (freeStale g l s).2) := by
  have hnew : ¬ readWord s.flash i 8 / 2 ^ 8 < s.ram.metadataEpoch := Nat.not_lt.mpr h.2
  simp only [freeStale, h.1, Bool.not_true, Bool.false_or, decide_eq_true_eq, if_neg hnew]

/-- A block that does not hold the epoch is given up. -/
theorem exists_freeStale_of_not_current (h : ¬ Current g s.ram.metadataEpoch s.flash i) :
    ∃ s₁, freeStale g (some i :: l) s = (none :: (freeStale g l s₁).1, (freeStale g l s₁).2) ∧
      s₁.ram = giveUp s.ram i ∧ ∀ e ≠ i, ∀ o, s₁.flash e o = s.flash e o := by
  by_cases herr : crcMatches g s.flash i = true
  · have hold : readWord s.flash i 8 / 2 ^ 8 < s.ram.metadataEpoch :=
      Nat.lt_of_not_le fun hle => h ⟨herr, hle⟩
    refine ⟨{ s.eraseBlock g i with ram := giveUp s.ram i }, ?_, rfl,
      fun e he o => eraseBlock_frame he o⟩
    simp only [freeStale, herr, Bool.not_true, Bool.false_or, decide_eq_true_eq, if_pos hold]
    rfl
  · refine ⟨{ s with ram := giveUp s.ram i }, ?_, rfl, fun _ _ _ => rfl⟩
    simp only [freeStale, Bool.eq_false_of_not_eq_true herr, Bool.not_false, Bool.true_or, if_true]

end

/-! ### One persist after another -/

/-- A volume of six blocks after `n` persists: sector 0 is in block 5, and one block of the list
holds the tables. -/
structure Rewriting (n : ℕ) (s : Ftl) : Prop where
  acc : ∃ drift, Accounted Geometry.sixBlocks.toDims drift s.ram.metaEBList s.ram
  gcEB : s.ram.gcEB < 6
  working : s.Working
  epoch : s.ram.metadataEpoch = 5 + n
  copy : ∃ w, some w ∈ s.ram.metaEBList ∧
    crcMatches Geometry.sixBlocks.toDims s.flash w = true ∧ readWord s.flash w 8 / 2 ^ 8 = 5 + n ∧
    ∀ i, some i ∈ s.ram.metaEBList → i ≠ w →
      ¬ Current Geometry.sixBlocks.toDims (5 + n) s.flash i
  spare : none ∈ s.ram.metaEBList → ∃ eb < 6, s.ram.ebState eb = 0
  used : s.ram.ebState 5 = 1

variable {s s₁ : Ftl} {n w : ℕ} {z : Option ℕ}

/-- What giving up the other entry of the list leaves. -/
structure Spared (n w : ℕ) (s s₁ : Ftl) : Prop where
  spare : ∃ eb < 6, s₁.ram.ebState eb = 0
  used : s₁.ram.ebState 5 = 1
  copy : s₁.ram.ebState w = ebMeta
  peCount : s₁.ram.peCount = s.ram.peCount
  epoch : s₁.ram.metadataEpoch = 5 + n
  flash : ∀ o, s₁.flash w o = s.flash w o

/-- An entry that is free, or does not hold the epoch. -/
theorem Rewriting.spared (h : Rewriting n s) (hw : s.ram.ebState w = ebMeta)
    (hz : z ∈ s.ram.metaEBList) (hne : z ≠ some w)
    (hold : ∀ i, z = some i → ¬ Current Geometry.sixBlocks.toDims (5 + n) s.flash i)
    (l : List (Option ℕ)) :
    ∃ s₁, freeStale Geometry.sixBlocks.toDims (z :: l) s =
      (none :: (freeStale Geometry.sixBlocks.toDims l s₁).1,
        (freeStale Geometry.sixBlocks.toDims l s₁).2) ∧ Spared n w s s₁ := by
  obtain ⟨drift, hacc⟩ := h.acc
  cases z with
  | none => exact ⟨s, rfl, h.spare hz, h.used, hw, rfl, h.epoch, fun _ => rfl⟩
  | some i =>
    have hmeta : s.ram.ebState i = ebMeta := hacc.metas.state_of_mem hz
    obtain ⟨s₁, hres, hram, hflash⟩ := exists_freeStale_of_not_current (l := l)
      (h.epoch.symm ▸ hold i rfl)
    have hstate : s₁.ram.ebState = Function.update s.ram.ebState i 0 := by
      rw [hram, giveUp_ebState]
    have hfive : (5 : ℕ) ≠ i := by
      rintro rfl
      exact absurd (h.used.symm.trans hmeta) (by decide)
    have hwi : w ≠ i := fun heq => hne (heq ▸ rfl)
    refine ⟨s₁, hres, ⟨i, hacc.metas.lt i hz, ?_⟩, ?_, ?_, ?_, ?_, hflash w hwi⟩
    · rw [hstate, Function.update_self]
    · rw [hstate, Function.update_of_ne hfive, h.used]
    · rw [hstate, Function.update_of_ne hwi, hw]
    · rw [hram]
      rfl
    · rw [hram]
      exact h.epoch

/-- The copy of the tables is kept, and the other entry of the list is free. -/
theorem Rewriting.freeStale (h : Rewriting n s) :
    ∃ w l s₁, Ftl.freeStale Geometry.sixBlocks.toDims s.ram.metaEBList s = (l, s₁) ∧
      readWord s.flash w 8 / 2 ^ 8 = 5 + n ∧ (l = [some w, none] ∨ l = [none, some w]) ∧
      Spared n w s s₁ := by
  obtain ⟨drift, hacc⟩ := h.acc
  obtain ⟨w, hw, hcrc, hword, hothers⟩ := h.copy
  have hmeta : s.ram.ebState w = ebMeta := hacc.metas.state_of_mem hw
  have hcurrent : ∀ s' : Ftl, s'.ram.metadataEpoch = 5 + n → (∀ o, s'.flash w o = s.flash w o) →
      Current Geometry.sixBlocks.toDims s'.ram.metadataEpoch s'.flash w := fun s' hepoch hflash =>
    Current.congr (f := s.flash) ⟨hcrc, by rw [hepoch, hword]⟩ hflash
  have hone := hacc.metas.listed w (hacc.metas.lt w hw)
  rw [if_pos hmeta] at hone
  obtain ⟨x, y, hlist⟩ := List.length_eq_two.mp hacc.metas.length
  have hold : ∀ z ∈ s.ram.metaEBList, z ≠ some w → ∀ i, z = some i →
      ¬ Current Geometry.sixBlocks.toDims (5 + n) s.flash i := by
    rintro z hz hne i rfl
    exact hothers i hz fun heq => hne (heq ▸ rfl)
  have hx : x ∈ s.ram.metaEBList := by
    rw [hlist]
    exact List.mem_cons_self
  have hy : y ∈ s.ram.metaEBList := by
    rw [hlist]
    exact List.mem_cons_of_mem x List.mem_cons_self
  by_cases hxw : x = some w
  · have hyw : y ≠ some w := by
      rintro rfl
      rw [hlist, hxw] at hone
      simp at hone
    obtain ⟨s₁, hres, hspared⟩ := h.spared hmeta hy hyw (hold y hy hyw) []
    refine ⟨w, [some w, none], s₁, ?_, hword, .inl rfl, hspared⟩
    rw [hlist, hxw, freeStale_of_current (hcurrent s h.epoch fun _ => rfl), hres]
    rfl
  · have hyw : y = some w := by
      rw [hlist] at hw
      rcases List.mem_cons.mp hw with heq | hmem
      · exact absurd heq.symm hxw
      · exact (List.mem_singleton.mp hmem).symm
    obtain ⟨s₁, hres, hspared⟩ := h.spared hmeta hx hxw (hold x hx hxw) [some w]
    refine ⟨w, [none, some w], s₁, ?_, hword, .inr rfl, hspared⟩
    rw [hlist, hyw, hres, freeStale_of_current (hcurrent s₁ hspared.epoch hspared.flash)]
    rfl

/-- A persist takes one empty block. -/
theorem Rewriting.opens (h : Rewriting n s) (hn : n < 1000) :
    ∃ w f p, openMetadataStreamForWrite Geometry.sixBlocks.toDims s = some p ∧
      readWord s.flash w 8 / 2 ^ 8 = 5 + n ∧ p.1.ebList = [f] ∧ f ≠ w ∧ f ≠ 5 ∧
      (∀ i, some i ∈ p.2.ram.metaEBList ↔ i = w ∨ i = f) ∧ p.2.ram.ebState 5 = 1 ∧
      p.2.ram.metadataEpoch = 5 + (n + 1) ∧ ∀ o, p.2.flash w o = s.flash w o := by
  obtain ⟨w, l, s₁, hfree, hword, hl, hspared⟩ := h.freeStale
  obtain ⟨drift, hacc⟩ := h.acc
  obtain ⟨eb, heb, hzero⟩ := hspared.spare
  have hpe : s₁.ram.peCount eb < 256 := by
    rw [hspared.peCount]
    exact hacc.wear.byte eb heb
  obtain ⟨f, hlow⟩ := exists_lowestEmptyEB (g := Geometry.sixBlocks.toDims) heb hzero hpe
  have hf := (lowestEmptyEB_spec hlow).2
  have hfw : f ≠ w := by
    rintro rfl
    exact absurd (hf.symm.trans hspared.copy) (by decide)
  have hf5 : f ≠ 5 := by
    rintro rfl
    exact absurd (hf.symm.trans hspared.used) (by decide)
  obtain ⟨l₂, halloc, hl₂⟩ : ∃ l₂, allocate Geometry.sixBlocks.toDims l s₁.ram =
      some (l₂, [f], take s₁.ram f) ∧ ∀ i, some i ∈ l₂ ↔ i = w ∨ i = f := by
    rcases hl with rfl | rfl
    · refine ⟨[some w, some f], ?_, fun i => by simp⟩
      simp only [allocate, hlow]
      rfl
    · refine ⟨[some f, some w], ?_, fun i => by simp [or_comm]⟩
      simp only [allocate, hlow]
      rfl
  let r : Ram := { take s₁.ram f with
    metaEBList := l₂
    metadataEpoch := (s₁.ram.metadataEpoch + 1) % 2 ^ 32 }
  refine ⟨w, f, (⟨[f], 0, 0, crcReset, fun _ => 0⟩, { s₁ with ram := r }), ?_, hword, rfl, hfw, hf5,
    hl₂, ?_, ?_, hspared.flash⟩
  · simp only [openMetadataStreamForWrite, hfree, halloc]
    rfl
  · show (take s₁.ram f).ebState 5 = 1
    rw [take_ebState, Function.update_of_ne hf5.symm, hspared.used]
  · show (s₁.ram.metadataEpoch + 1) % 2 ^ 32 = _
    rw [hspared.epoch]
    omega

/-- **Step lemma**: the volume can be persisted again. -/
theorem Rewriting.persist (h : Rewriting n s) (hn : n < 1000) :
    ∃ s', s.persist Geometry.sixBlocks.toDims = some s' ∧ Rewriting (n + 1) s' := by
  obtain ⟨w, f, p, hopen, hword, hlist, hfw, hf5, hl, hused, hepoch, hflash⟩ := h.opens hn
  obtain ⟨drift, hacc⟩ := h.acc
  obtain ⟨s', hpersist⟩ := exists_doPersist hopen (by rw [hlist, List.length_singleton]; decide)
  obtain ⟨hset, hnone⟩ := persist_spec hacc (standing_empty _ s) h.gcEB hpersist
  obtain ⟨p₁, bs, done, l, hopen₁, htables, happend, hholds, hframe, _, _, _, heq⟩ :=
    exists_holds_of_doPersist hacc h.working hpersist
  obtain rfl : p = p₁ := Option.some.inj (hopen.symm.trans hopen₁)
  have hram : s'.ram.metaEBList = p.2.ram.metaEBList ∧ s'.ram.ebState = p.2.ram.ebState ∧
      s'.ram.metadataEpoch = p.2.ram.metadataEpoch := by
    have hmetas := congrArg Ram.metaEBList heq
    have hstate := congrArg Ram.ebState heq
    have hep := congrArg Ram.metadataEpoch heq
    exact ⟨hmetas, hstate, hep⟩
  obtain ⟨hmetas, hstate, hep⟩ := hram
  -- the tables do not fit into no block at all
  have hdone : done = [f] := by
    rw [hlist] at happend
    cases done with
    | nil =>
      obtain ⟨k, -, hstream⟩ := hholds.stream
      have hlen := congrArg List.length hstream
      rw [List.length_append, htables.length, streamOf_length, List.length_nil, Nat.zero_mul,
        Loader.streamLength] at hlen
      omega
    | cons e done =>
      obtain ⟨rfl, hrest⟩ := List.cons.inj happend
      rw [(List.append_eq_nil_iff.mp hrest.symm).1]
  subst hdone
  have himage := hholds.image 0 f rfl
  have hcrc : crcMatches Geometry.sixBlocks.toDims s'.flash f = true := by
    have := himage.isCopy
    rw [Loader.isCopy, Bool.and_eq_true] at this
    exact this.2
  have hnew : readWord s'.flash f 8 / 2 ^ 8 = 5 + (n + 1) := by
    have := himage.epochOf (by decide)
    rw [Loader.epochOf, hepoch] at this
    omega
  refine ⟨s', hpersist, ⟨drift, hset.acc⟩, hset.gcEB, hset.moves.working h.working, hep.trans hepoch,
    ⟨f, ?_, hcrc, hnew, fun i hi hne => ?_⟩, fun hin => absurd hin hnone, ?_⟩
  · rw [hmetas, hl]
    exact .inr rfl
  · rw [hmetas, hl] at hi
    obtain rfl := hi.resolve_right hne
    rintro ⟨-, hle⟩
    have hsame : ∀ o, s'.flash i o = s.flash i o := fun o =>
      (hframe i (fun hin => hne (List.mem_singleton.mp hin)) o).trans (hflash o)
    have hold : readWord s'.flash i 8 / 2 ^ 8 = 5 + n := by
      rw [← hword]
      simp only [readWord, readByte, hsame]
    omega
  · rw [hstate]
    exact hused

end Ftl

namespace Volume

/-- A volume that is written to, trimmed and persisted from a given state on. -/
def used (g : Dims) (v : Volume) : Machine Volume Op where
  init := (· = v)
  step := (inUse g).step

end Volume

end Ch32h4.Spiftl
