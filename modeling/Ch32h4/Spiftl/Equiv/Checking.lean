import Ch32h4.Spiftl.Volume
import Ch32h4.Spiftl.Equiv.Accounts

/-!
# What `check` checks

`Balanced` spells out, clause by clause, what the block accounting of a volume should come to.  It
is more than `check` looks at: `check` compares no count of live sectors, and does not look
whether an entry names a block and a slot of the geometry.  `check_of_balanced` says that a
balanced volume passes, if its erase counts have not spread too far.

`balanced_of_accounted` and `Balanced.placed` connect it with the accounts that the functions are
proved to keep.
-/

namespace Ch32h4.Spiftl

open Finset (range)

/-- The block accounting is right. -/
structure Balanced (g : Dims) (r : Ram) : Prop where
  /-- `emptyEBs` is the number of blocks whose state is zero. -/
  empties : r.emptyEBs = emptyCount g r.ebState
  /-- An entry names a block and a slot of the geometry. -/
  bounds : ∀ lba < g.flashLBAs, ∀ eb idx, r.findLBA g lba = some (eb, idx) →
    eb < g.eraseBlocks ∧ idx < g.slotsPerEB
  /-- The state of a block that is not metadata is the number of entries that name it. -/
  count : ∀ eb < g.eraseBlocks, r.ebState eb ≠ ebMeta → r.ebState eb = liveIn g (r.findLBA g) eb
  /-- No two entries name the same slot. -/
  inj : ∀ lba < g.flashLBAs, ∀ lba' < g.flashLBAs, ∀ x, r.findLBA g lba = some x →
    r.findLBA g lba' = some x → lba = lba'
  /-- No entry names a metadata block. -/
  not_meta : ∀ lba < g.flashLBAs, ∀ eb idx, r.findLBA g lba = some (eb, idx) →
    r.ebState eb ≠ ebMeta
  /-- There are at most `metaEBs` metadata blocks. -/
  metas : tally (range g.eraseBlocks) r.ebState (· = ebMeta) ≤ g.metaEBs
  /-- `highestPECount` is the maximum of `peCount`. -/
  highest : (∀ eb < g.eraseBlocks, (r.peCount eb : ℤ) ≤ r.highestPECount) ∧
    ∃ eb < g.eraseBlocks, (r.peCount eb : ℤ) = r.highestPECount

section

variable {g : Geometry} {l : List (Option ℕ)} {r : Ram}

theorem Balanced.placed (h : Balanced g.toDims r) :
    Placed g.toDims (r.findLBA g.toDims) r.ebState := by
  refine ⟨h.bounds, h.inj, fun eb heb => ?_⟩
  by_cases hmeta : r.ebState eb = ebMeta
  · refine .inr ⟨hmeta, ?_⟩
    by_contra hpos
    obtain ⟨lba, hlba, idx, hloc⟩ := liveIn_pos.mp (Nat.pos_of_ne_zero hpos)
    exact h.not_meta lba hlba eb idx hloc hmeta
  · exact .inl (h.count eb heb hmeta)

end

/-! ### The loops of `check` -/

theorem countP_range (n : ℕ) (f : ℕ → ℕ) (p : ℕ → Prop) [DecidablePred p] :
    (List.range n).countP (fun i => p (f i)) = tally (range n) f p := by
  induction n with
  | zero => rfl
  | succ n ih =>
    rw [List.range_succ, List.countP_append, ih, tally_range_succ, List.countP_singleton]
    simp

/-- The maximum as the first loop takes it. -/
theorem foldl_max_spec (f : ℕ → ℕ) (l : List ℕ) (m : ℕ) :
    let top := l.foldl (fun m i => if m < f i then f i else m) m
    m ≤ top ∧ (∀ i ∈ l, f i ≤ top) ∧ (top = m ∨ ∃ i ∈ l, f i = top) := by
  induction l generalizing m with
  | nil => exact ⟨le_rfl, by simp, .inl rfl⟩
  | cons i l ih =>
    obtain ⟨hge, hle, hatt⟩ := ih (if m < f i then f i else m)
    have hi : m ≤ (if m < f i then f i else m) ∧ f i ≤ if m < f i then f i else m := by
      split_ifs <;> omega
    refine ⟨hi.1.trans hge, fun j hj => ?_, ?_⟩
    · rcases List.mem_cons.mp hj with rfl | hj
      · exact hi.2.trans hge
      · exact hle j hj
    · rcases hatt with hatt | ⟨j, hj, hatt⟩
      · rw [List.foldl_cons, hatt]
        split_ifs with hlt
        · exact .inr ⟨i, List.mem_cons_self, rfl⟩
        · exact .inl rfl
      · exact .inr ⟨j, List.mem_cons_of_mem _ hj, hatt⟩

/-- The minimum as the first loop takes it is one of the values, or the value it starts from. -/
theorem foldl_min_spec (f : ℕ → ℕ) (l : List ℕ) (m : ℕ) :
    let low := l.foldl (fun m i => if f i < m then f i else m) m
    low = m ∨ ∃ i ∈ l, f i = low := by
  induction l generalizing m with
  | nil => exact .inl rfl
  | cons i l ih =>
    rcases ih (if f i < m then f i else m) with heq | ⟨j, hj, heq⟩
    · dsimp only at heq ⊢
      rw [List.foldl_cons, heq]
      split_ifs with hlt
      · exact .inr ⟨i, List.mem_cons_self, rfl⟩
      · exact .inl rfl
    · exact .inr ⟨j, List.mem_cons_of_mem _ hj, heq⟩

section

variable {g : Geometry} {r : Ram}

/-- The first loop and its comparisons; the erase counts are bytes. -/
theorem checkBlocks_of_balanced (h : Balanced g.toDims r)
    (hbyte : ∀ eb < g.eraseBlocks, r.peCount eb < 256)
    (hspread : ∀ eb < g.eraseBlocks, r.highestPECount - r.peCount eb ≤ maxPEDiff + 1) :
    r.checkBlocks g.toDims = true := by
  obtain ⟨hle, e, he, hatt⟩ := h.highest
  obtain ⟨hge, hmax, htop⟩ := foldl_max_spec r.peCount (List.range g.eraseBlocks) 0
  have hlow := foldl_min_spec r.peCount (List.range g.eraseBlocks) 65536
  dsimp only at hge hmax htop hlow
  have hmetas : (List.range g.eraseBlocks).countP (fun i => r.ebIsMeta i) =
      tally (range g.eraseBlocks) r.ebState (· = ebMeta) := by
    rw [← countP_range]
    refine List.countP_congr fun i _ => ?_
    simp [Ram.ebIsMeta]
  have hempty : (List.range g.eraseBlocks).countP (fun i => decide (r.ebState i = 0)) =
      emptyCount g.toDims r.ebState := countP_range _ _ (· = 0)
  simp only [Ram.checkBlocks, Bool.and_eq_true, decide_eq_true_eq]
  generalize hM : (List.range g.eraseBlocks).foldl
    (fun m i => if m < r.peCount i then r.peCount i else m) 0 = M at *
  generalize hm : (List.range g.eraseBlocks).foldl
    (fun m i => if r.peCount i < m then r.peCount i else m) 65536 = m at *
  have hM' : (M : ℤ) = r.highestPECount := by
    have hlow' := hmax e (List.mem_range.mpr he)
    rcases htop with hzero | ⟨i, hi, heq⟩
    · omega
    · have := hle i (List.mem_range.mp hi)
      omega
  refine ⟨⟨⟨?_, ?_⟩, hM'⟩, ?_⟩
  · rw [hmetas]
    exact h.metas
  · rw [hempty, h.empties]
  · rcases hlow with hlow | ⟨i, hi, hlow⟩
    · have := hbyte e he
      omega
    · have := hspread i (List.mem_range.mp hi)
      omega

/-- The second loop: `val` has the bits of slots that no later entry names. -/
theorem checkLinks_of_balanced (h : Balanced g.toDims r) :
    ∀ (l : List ℕ) (val : ℕ → ℕ), l.Nodup → (∀ i ∈ l, i < g.flashLBAs) →
      (∀ i ∈ l, ∀ eb idx, r.findLBA g.toDims i = some (eb, idx) → (val eb).testBit idx = false) →
      r.checkLinks g.toDims l val = true := by
  intro l
  induction l with
  | nil => exact fun _ _ _ _ => rfl
  | cons i l ih =>
    intro val hnodup hlt hval
    obtain ⟨hi, hl⟩ := List.nodup_cons.mp hnodup
    have hlt' : ∀ j ∈ l, j < g.flashLBAs := fun j hj => hlt j (List.mem_cons_of_mem _ hj)
    rw [Ram.checkLinks]
    split_ifs with hv
    · have hloc : r.findLBA g.toDims i = some (g.l2pEb (r.l2p i), g.l2pIdx (r.l2p i)) :=
        Ram.findLBA_eq_some.mpr ⟨hv, rfl, rfl⟩
      have hmeta := h.not_meta i (hlt i List.mem_cons_self) _ _ hloc
      have hbit := hval i List.mem_cons_self _ _ hloc
      simp only [Ram.ebIsMeta, beq_eq_false_iff_ne.mpr hmeta, hbit, Bool.not_false, Bool.true_and]
      refine ih _ hl hlt' fun j hj eb idx hj' => ?_
      have hold := hval j (List.mem_cons_of_mem _ hj) eb idx hj'
      by_cases heb : eb = g.l2pEb (r.l2p i)
      · have hidx : g.l2pIdx (r.l2p i) ≠ idx := by
          rintro rfl
          have := h.inj i (hlt i List.mem_cons_self) j (hlt' j hj) _ hloc (heb ▸ hj')
          exact hi (this ▸ hj)
        subst heb
        rw [Function.update_self, Nat.testBit_or, hold, Bool.false_or, Nat.one_shiftLeft,
          Nat.testBit_two_pow_of_ne hidx]
      · rw [Function.update_of_ne heb, hold]
    · exact ih val hl hlt' fun j hj => hval j (List.mem_cons_of_mem _ hj)

/-- **A balanced volume passes `check`**, if its erase counts have not spread too far. -/
theorem check_of_balanced (h : Balanced g.toDims r)
    (hbyte : ∀ eb < g.eraseBlocks, r.peCount eb < 256)
    (hspread : ∀ eb < g.eraseBlocks, r.highestPECount - r.peCount eb ≤ maxPEDiff + 1) :
    r.check g.toDims = true := by
  rw [Ram.check, checkBlocks_of_balanced h hbyte hspread,
    checkLinks_of_balanced h _ _ List.nodup_range (fun i hi => List.mem_range.mp hi) fun _ _ _ _ _ =>
      Nat.zero_testBit _, Bool.and_self]

end

end Ch32h4.Spiftl
