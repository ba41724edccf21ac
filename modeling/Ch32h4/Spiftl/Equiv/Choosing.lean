import Ch32h4.Spiftl.Equiv.Collecting

/-!
# Rewriting aged metadata and choosing a block

`metaAgeRewrite` moves the metadata blocks that lag behind in wear, `selectBestEB` collects until
enough blocks are empty and takes one.  Both keep the accounts and the data (`metaAgeRewrite_spec`,
`selectBestEB_spec`); the block that is taken is empty, erased, and no longer counted in
`emptyEBs`.
-/

namespace Ch32h4.Spiftl

open Flash

namespace Ftl

variable {g : Geometry} {K : Set ℕ} {drift : ℤ} {s s' : Ftl}

/-! ### Aged metadata -/

/-- Copying pages into an idle block, over erased cells if the flash works. -/
theorem moves_copyPages {src srcOff dest n : ℕ} (h : Idle g.toDims s.ram dest)
    (hfit : n * flashWriteBufferSize ≤ g.ebBytes)
    (hblank : s.Working → Blank s.flash dest 0 (n * flashWriteBufferSize)) (hk : dest ∉ K) :
    Moves g.toDims K s (s.copyPages g.toDims src srcOff dest 0 n) := by
  induction n with
  | zero => exact .refl
  | succ n ih =>
    rw [Nat.add_mul, Nat.one_mul] at hfit hblank
    refine .tail (ih (by omega) fun hs => (hblank hs).mono le_rfl (by omega))
      (.program _ dest _ _ (by rw [copyPages_ram]; exact h) ?_ ?_ ?_ (fun hs => ?_) hk)
    · rw [readBytes_length]
      omega
    · rw [Nat.zero_add, Nat.mul_mod_left]
    · rw [readBytes_length]
      exact Nat.mod_self _
    · rw [Working, copyPages_outcome] at hs
      rw [readBytes_length]
      refine ((hblank hs).mono (by omega) (by omega)).congr fun o ho _ =>
        copyPages_frame fun hin => ?_
      have := hin.2.2
      omega

/-- The accounts after a metadata block has moved. -/
theorem accounted_moveMeta {r : Ram} {pre l : List (Option ℕ)} {eb dest : ℕ}
    (h : Accounted g.toDims drift (pre ++ some eb :: l) r) (hdest : dest < g.eraseBlocks)
    (hst : r.ebState dest = 0) :
    Accounted g.toDims drift (pre ++ some dest :: l) ((r.setEBState eb 0).setEBMeta dest) := by
  have hmeta : r.ebState eb = ebMeta := h.metas.state_of_mem (by simp)
  have heb : eb < g.eraseBlocks := h.metas.lt eb (by simp)
  have hne : dest ≠ eb := by
    rintro rfl
    rw [hst, ebMeta] at hmeta
    omega
  have hdest' : Function.update r.ebState eb 0 dest = 0 := by rw [Function.update_of_ne hne, hst]
  have hstate : ((r.setEBState eb 0).setEBMeta dest).ebState =
      Function.update (Function.update r.ebState eb 0) dest ebMeta := by
    rw [Ram.setEBMeta_ebState, Ram.setEBState_ebState _ (by decide)]
  have hgain : emptyCount g.toDims (Function.update r.ebState eb 0) =
      emptyCount g.toDims r.ebState + 1 := emptyCount_gain heb (by rw [hmeta]; decide)
  have hloss : emptyCount g.toDims
        (Function.update (Function.update r.ebState eb 0) dest ebMeta) + 1 =
      emptyCount g.toDims (Function.update r.ebState eb 0) :=
    emptyCount_loss hdest hdest' (by decide)
  refine ⟨?_, h.wear, ?_, ?_⟩
  · rw [hstate]
    exact (h.placed.toEmpty hmeta).toMeta hdest'
  · rw [hstate]
    exact h.metas.remove.insert hdest hdest'
  · have := h.empties
    rw [hstate]
    change r.emptyEBs + drift = _
    omega

/-- The loop of `metaAgeRewrite`, with the entries before `l` done. -/
theorem rewriteAged_spec (pre : List (Option ℕ)) {l l' : List (Option ℕ)}
    (h : Accounted g.toDims drift (pre ++ l) s.ram) (hgc : s.ram.gcEB < g.eraseBlocks)
    (hres : rewriteAged g.toDims l s = some (l', s')) :
    Accounted g.toDims drift (pre ++ l') s'.ram ∧ Moves g.toDims ∅ s s' ∧ Kept s.ram s'.ram ∧
      s'.ram.gcEB < g.eraseBlocks := by
  induction l generalizing pre l' s with
  | nil =>
    cases hres
    exact ⟨h, .refl, .refl _, hgc⟩
  | cons x l ih =>
    have hassoc : ∀ (y : Option ℕ) (l : List (Option ℕ)), pre ++ y :: l = (pre ++ [y]) ++ l :=
      fun y l => by simp
    cases x with
    | none =>
      obtain ⟨⟨l₁, s₁⟩, hrec, hres⟩ := Option.bind_eq_some_iff.mp hres
      cases hres
      rw [hassoc] at h ⊢
      exact ih _ h hgc hrec
    | some eb =>
      rw [rewriteAged] at hres
      split_ifs at hres with hage
      · obtain ⟨dest, hdest, hres⟩ := Option.bind_eq_some_iff.mp hres
        obtain ⟨hlt, hzero⟩ := lowestEmptyEB_spec hdest
        split_ifs at hres with hself
        obtain ⟨⟨l₁, s₁⟩, hrec, hres⟩ := Option.bind_eq_some_iff.mp hres
        cases hres
        have hacc := accounted_eraseEB h hlt hzero
        have hstate : (s.eraseEB g.toDims dest).ram.ebState dest = 0 := by
          rw [eraseEB_ebState, Function.update_self]
        have hidle : Idle g.toDims (s.eraseEB g.toDims dest).ram dest :=
          .of_state hacc.placed hlt (.inl hstate)
        have hpages : g.ebBytes / flashWriteBufferSize * flashWriteBufferSize ≤ g.ebBytes :=
          Nat.div_mul_le_self _ _
        have hmoves : Moves g.toDims ∅ s ((s.eraseEB g.toDims dest).copyPages g.toDims eb 0 dest 0
            (g.ebBytes / flashWriteBufferSize)) :=
          (moves_eraseEB (.of_state h.placed hlt (.inl hzero)) (Set.notMem_empty _)).trans
            (moves_copyPages hidle hpages (fun hs => blank_of_eraseBlock (s := s) hs hlt _ _)
              (Set.notMem_empty _))
        have hacc' := accounted_moveMeta hacc hlt hstate
        rw [hassoc] at hacc' ⊢
        have hwear : (wearEB s.ram dest).gcEB = s.ram.gcEB ∧
            (wearEB s.ram dest).validLBAs = s.ram.validLBAs := by
          rw [wearEB]
          split_ifs <;> exact ⟨rfl, rfl⟩
        have hram := copyPages_ram g.toDims (s.eraseEB g.toDims dest) eb 0 dest 0
          (g.ebBytes / flashWriteBufferSize)
        rw [hram] at hrec
        obtain ⟨hacc'', hmoves', hkept, hgc'⟩ := ih _ hacc' (hwear.1.symm ▸ hgc) hrec
        refine ⟨hacc'', hmoves.trans (.head (.tables _ (((s.eraseEB g.toDims dest).ram.setEBState
          eb 0).setEBMeta dest) ?_ ?_ ?_ fun e hne => ?_) hmoves'), .trans (.of_l2p ?_ ?_) hkept,
          hgc'⟩
        · rw [hram]
          rfl
        · rw [hram]
          rfl
        · rw [hram]
          rfl
        · -- only the two blocks that change places change their state
          rw [hram] at hne ⊢
          rw [Ram.setEBMeta_ebState, Ram.setEBState_ebState _ (by decide)] at hne
          by_cases hed : e = dest
          · exact .inl (hed ▸ hstate)
          · by_cases hee : e = eb
            · exact .inr (hee ▸ hacc.metas.state_of_mem (by simp))
            · rw [Function.update_of_ne hed, Function.update_of_ne hee] at hne
              exact absurd rfl hne
        · exact wearEB_l2p _ _
        · exact hwear.2
      · obtain ⟨⟨l₁, s₁⟩, hrec, hres⟩ := Option.bind_eq_some_iff.mp hres
        cases hres
        rw [hassoc] at h ⊢
        exact ih _ h hgc hrec

/-- **`metaAgeRewrite` keeps the accounts and the data.** -/
theorem metaAgeRewrite_spec (h : Accounted g.toDims drift s.ram.metaEBList s.ram)
    (hgc : s.ram.gcEB < g.eraseBlocks) (hres : s.metaAgeRewrite g.toDims = some s') :
    Settled g ∅ drift s s' := by
  obtain ⟨⟨l, s₁⟩, hrec, hres⟩ := Option.bind_eq_some_iff.mp hres
  cases hres
  obtain ⟨hacc, hmoves, hkept, hgc'⟩ := rewriteAged_spec [] h hgc hrec
  exact ⟨⟨hacc.placed, hacc.wear, hacc.metas, hacc.empties⟩,
    hmoves.tail (.tables s₁ { s₁.ram with metaEBList := l } rfl rfl rfl fun _ hx => absurd rfl hx),
    ⟨hkept.validLBAs, hkept.mapped⟩, hgc'⟩

/-! ### A block to write -/

/-- The loop of `selectBestEB`. -/
theorem makeRoom_spec (left : ℕ) {score : ℤ} {room : Bool}
    (h : Accounted g.toDims 0 s.ram.metaEBList s.ram) (hgc : s.ram.gcEB < g.eraseBlocks)
    (hopen : s.ram.openEB = none) (hres : makeRoom g.toDims left score s = some (room, s')) :
    Settled g ∅ 0 s s' ∧ (room = true → 3 ≤ s'.ram.emptyEBs) := by
  induction left generalizing s score with
  | zero =>
    unfold makeRoom at hres
    split_ifs at hres with hc
    · obtain ⟨⟨score₁, s₁⟩, hcollect, hres⟩ := Option.bind_eq_some_iff.mp hres
      obtain ⟨hset₁, hscore₁, -⟩ :=
        garbageCollect_spec h (fun b hb => absurd hb (Set.notMem_empty b)) hgc hopen hcollect
      simp only [if_neg (not_lt.mpr hscore₁)] at hres
      obtain ⟨s₂, hrewrite, hres⟩ := Option.bind_eq_some_iff.mp hres
      cases hres
      exact ⟨hset₁.trans (metaAgeRewrite_spec hset₁.acc hset₁.gcEB hrewrite), by simp⟩
    · cases hres
      exact ⟨⟨h, .refl, .refl _, hgc⟩, fun _ => by omega⟩
  | succ left ih =>
    unfold makeRoom at hres
    split_ifs at hres with hc
    · obtain ⟨⟨score₁, s₁⟩, hcollect, hres⟩ := Option.bind_eq_some_iff.mp hres
      obtain ⟨hset₁, hscore₁, -⟩ :=
        garbageCollect_spec h (fun b hb => absurd hb (Set.notMem_empty b)) hgc hopen hcollect
      simp only [if_neg (not_lt.mpr hscore₁)] at hres
      obtain ⟨s₂, hrewrite, hres⟩ := Option.bind_eq_some_iff.mp hres
      have hset₂ := metaAgeRewrite_spec hset₁.acc hset₁.gcEB hrewrite
      obtain ⟨hset₃, hroom⟩ := ih hset₂.acc hset₂.gcEB
        (hset₂.moves.openEB.1.trans (hset₁.moves.openEB.1.trans hopen)) hres
      exact ⟨(hset₁.trans hset₂).trans hset₃, hroom⟩
    · cases hres
      exact ⟨⟨h, .refl, .refl _, hgc⟩, fun _ => by omega⟩

/-- A block that is ready to be written. -/
structure Chosen (g : Geometry) (s s' : Ftl) (eb : ℕ) : Prop where
  /-- The block is empty, and `emptyEBs` does not count it. -/
  settled : Settled g ∅ 1 s s'
  lt : eb < g.eraseBlocks
  state : s'.ram.ebState eb = 0
  blank : s'.Working → Blank s'.flash eb 0 g.ebBytes

/-- **`selectBestEB` keeps the accounts and the data.** -/
theorem selectBestEB_spec {best : Option ℕ} (h : Accounted g.toDims 0 s.ram.metaEBList s.ram)
    (hgc : s.ram.gcEB < g.eraseBlocks) (hopen : s.ram.openEB = none)
    (hres : s.selectBestEB g.toDims = some (best, s')) :
    (best = none → Settled g ∅ 0 s s') ∧ ∀ eb, best = some eb → Chosen g s s' eb := by
  obtain ⟨⟨room, s₁⟩, hroom, hres⟩ := Option.bind_eq_some_iff.mp hres
  obtain ⟨hset, -⟩ := makeRoom_spec _ h hgc hopen hroom
  cases room with
  | false =>
    cases hres
    exact ⟨fun _ => hset, fun eb heb => by cases heb⟩
  | true =>
    obtain ⟨eb, hlow, hres⟩ := Option.bind_eq_some_iff.mp hres
    cases hres
    refine ⟨fun hnone => (by cases hnone), fun e he => ?_⟩
    obtain rfl := Option.some.inj he
    obtain ⟨hlt, hzero⟩ := lowestEmptyEB_spec hlow
    let s₂ : Ftl := { s₁ with ram := { s₁.ram with emptyEBs := s₁.ram.emptyEBs - 1 } }
    have hacc : Accounted g.toDims 1 s₁.ram.metaEBList s₂.ram :=
      ⟨hset.acc.placed, hset.acc.wear, hset.acc.metas, by
        have := hset.acc.empties
        change s₁.ram.emptyEBs - 1 + 1 = _
        rw [← this]
        omega⟩
    have hwear : (wearEB s₂.ram eb).gcEB = s₁.ram.gcEB ∧
        (wearEB s₂.ram eb).validLBAs = s₁.ram.validLBAs := by
      rw [wearEB]
      split_ifs <;> exact ⟨rfl, rfl⟩
    have hmetas : (wearEB s₂.ram eb).metaEBList = s₁.ram.metaEBList :=
      (wearEB_frame _ _).2.2.2.2.2
    refine ⟨⟨?_, ?_, ?_, ?_⟩, hlt, ?_, fun hs => ?_⟩
    · exact hmetas.symm ▸ accounted_eraseEB (s := s₂) hacc hlt hzero
    · exact (hset.moves.tail (.tables s₁ s₂.ram rfl rfl rfl fun _ hx => absurd rfl hx)).trans
        (moves_eraseEB (s := s₂) (.of_state hacc.placed hlt (.inl hzero)) (Set.notMem_empty _))
    · exact hset.kept.trans (.of_l2p (wearEB_l2p s₂.ram eb) hwear.2)
    · exact hwear.1.trans_lt hset.gcEB
    · exact congrFun (eraseEB_ebState s₂ eb) eb ▸ Function.update_self ..
    · exact blank_of_eraseBlock (s := s₂) hs hlt _ _

end Ftl

end Ch32h4.Spiftl
