import Ch32h4.Spiftl.Equiv.Choosing

/-!
# Persisting

`persist` gives up the metadata blocks of older epochs, takes as many empty ones, and writes the
tables to them byte by byte.  It is a sequence of moves that keeps the accounts (`persist_spec`),
and so is the ageing that every 256th change ends with (`ageMetadata_spec`).

The writer is followed one byte at a time.  `StreamOk` is what holds between two bytes: the blocks
still to be written hold metadata, and what has not been programmed of the first of them is
blank.  While the stream runs the tables only wear (`Worn`), so the bytes it is fed are those of
the tables as they were when it was opened, up to wear.
-/

namespace Ch32h4.Spiftl

open Flash

/-- The second tables are the first with other erase counts. -/
def Worn (r r' : Ram) : Prop :=
  ∃ pe highest offset,
    r' = { r with peCount := pe, highestPECount := highest, peCountOffset := offset }

theorem Worn.refl (r : Ram) : Worn r r := ⟨_, _, _, rfl⟩

theorem Worn.trans {r r' r'' : Ram} (h : Worn r r') (h' : Worn r' r'') : Worn r r'' := by
  obtain ⟨_, _, _, rfl⟩ := h
  obtain ⟨_, _, _, rfl⟩ := h'
  exact ⟨_, _, _, rfl⟩

namespace Ftl

variable {g : Geometry} {K : Set ℕ} {drift : ℤ} {s s' : Ftl}

/-! ### Giving up and taking blocks -/

theorem giveUp_ebState (r : Ram) (eb : ℕ) :
    (giveUp r eb).ebState = Function.update r.ebState eb 0 :=
  r.setEBState_ebState (by decide)

theorem take_ebState (r : Ram) (eb : ℕ) :
    (take r eb).ebState = Function.update r.ebState eb ebMeta :=
  r.setEBMeta_ebState

/-- The accounts after a metadata block has been given up. -/
theorem accounted_giveUp {r : Ram} {pre l : List (Option ℕ)} {eb : ℕ}
    (h : Accounted g.toDims drift (pre ++ some eb :: l) r) :
    Accounted g.toDims drift (pre ++ none :: l) (giveUp r eb) := by
  have hmeta : r.ebState eb = ebMeta := h.metas.state_of_mem (by simp)
  have heb : eb < g.eraseBlocks := h.metas.lt eb (by simp)
  have hgain : emptyCount g.toDims (Function.update r.ebState eb 0) =
      emptyCount g.toDims r.ebState + 1 := emptyCount_gain heb (by rw [hmeta]; decide)
  refine ⟨?_, h.wear, ?_, ?_⟩
  · rw [giveUp_ebState]
    exact h.placed.toEmpty hmeta
  · rw [giveUp_ebState]
    exact h.metas.remove
  · have := h.empties
    rw [giveUp_ebState, hgain]
    change r.emptyEBs + 1 + drift = _
    push_cast
    omega

theorem giveUp_state {r : Ram} {eb e : ℕ} (hmeta : r.ebState eb = ebMeta)
    (hne : (giveUp r eb).ebState e ≠ r.ebState e) : r.ebState e = ebMeta := by
  by_contra hno
  refine hne ?_
  rw [giveUp_ebState, Function.update_of_ne]
  rintro rfl
  exact hno hmeta

/-- The accounts after an empty block has been taken. -/
theorem accounted_take {r : Ram} {pre l : List (Option ℕ)} {eb : ℕ}
    (h : Accounted g.toDims drift (pre ++ none :: l) r) (heb : eb < g.eraseBlocks)
    (hst : r.ebState eb = 0) :
    Accounted g.toDims drift (pre ++ some eb :: l) (take r eb) := by
  have hloss : emptyCount g.toDims (Function.update r.ebState eb ebMeta) + 1 =
      emptyCount g.toDims r.ebState := emptyCount_loss heb hst (by decide)
  refine ⟨?_, h.wear, ?_, ?_⟩
  · rw [take_ebState]
    exact h.placed.toMeta hst
  · rw [take_ebState]
    exact h.metas.insert heb hst
  · have := h.empties
    rw [take_ebState]
    change r.emptyEBs - 1 + drift = _
    omega

/-- The block holds metadata of the epoch, or a later one, with a correct CRC. -/
def Current (g : Dims) (epoch : ℕ) (f : Cells) (b : ℕ) : Prop :=
  crcMatches g f b = true ∧ epoch ≤ readWord f b 8 / 2 ^ 8

theorem Current.congr {g : Dims} {epoch b : ℕ} {f f' : Cells} (h : Current g epoch f b)
    (hf : ∀ o, f' b o = f b o) : Current g epoch f' b := by
  have hbytes : ∀ off len, readBytes f' b off len = readBytes f b off len :=
    fun off len => readBytes_congr fun o _ _ => hf o
  have hbyte : ∀ o, readByte f' b o = readByte f b o := fun o => by rw [readByte, readByte, hf]
  simpa only [Current, crcMatches, readWord, hbytes, hbyte] using h

/-- The blocks of `K` hold metadata that the next `persist` has no reason to give up. -/
def Standing (g : Geometry) (K : Set ℕ) (s : Ftl) : Prop :=
  ∀ b ∈ K, s.ram.ebState b = ebMeta ∧ Current g.toDims s.ram.metadataEpoch s.flash b

theorem standing_empty (g : Geometry) (s : Ftl) : Standing g ∅ s := fun _ hb => hb.elim

/-- The first loop of `openMetadataStreamForWrite`, with the entries before `l` done. -/
theorem freeStale_spec (pre : List (Option ℕ)) {l l' : List (Option ℕ)}
    (h : Accounted g.toDims drift (pre ++ l) s.ram)
    (hK : ∀ b ∈ K, Current g.toDims s.ram.metadataEpoch s.flash b)
    (hres : freeStale g.toDims l s = (l', s')) :
    Accounted g.toDims drift (pre ++ l') s'.ram ∧ Moves g.toDims K s s' ∧ Kept s.ram s'.ram ∧
      s'.ram.gcEB = s.ram.gcEB ∧ ∀ b ∈ K, s'.ram.ebState b = s.ram.ebState b := by
  induction l generalizing pre l' s with
  | nil =>
    cases hres
    exact ⟨h, .refl, .refl _, rfl, fun _ _ => rfl⟩
  | cons x l ih =>
    have hassoc : ∀ (y : Option ℕ) (l : List (Option ℕ)), pre ++ y :: l = (pre ++ [y]) ++ l :=
      fun y l => by simp
    cases x with
    | none =>
      rcases hrec : freeStale g.toDims l s with ⟨l₁, s₁⟩
      simp only [freeStale, hrec, Prod.mk.injEq] at hres
      obtain ⟨rfl, rfl⟩ := hres
      rw [hassoc] at h ⊢
      exact ih _ h hK hrec
    | some eb =>
      have hmeta : s.ram.ebState eb = ebMeta := h.metas.state_of_mem (by simp)
      have heb : eb < g.eraseBlocks := h.metas.lt eb (by simp)
      simp only [freeStale] at hres
      split_ifs at hres with hstale herr
      all_goals
        generalize hrec : freeStale g.toDims l _ = p at hres
        obtain ⟨l₁, s₁⟩ := p
        simp only [Prod.mk.injEq] at hres
        obtain ⟨rfl, rfl⟩ := hres
        rw [hassoc]
      · -- a block whose checksum is wrong is given up as it is
        have hne : ∀ b ∈ K, b ≠ eb := by
          rintro b hb rfl
          rw [(hK b hb).1] at herr
          cases herr
        have hacc := accounted_giveUp h
        rw [hassoc] at hacc
        obtain ⟨hacc', hmoves, hkept, hgc, hstate⟩ := ih _ (s := { s with ram := giveUp s.ram eb })
          hacc hK hrec
        refine ⟨hacc', .head (.tables s (giveUp s.ram eb) rfl rfl rfl fun e hne =>
          .inr (giveUp_state hmeta hne)) hmoves, ⟨hkept.validLBAs, hkept.mapped⟩, hgc,
          fun b hb => (hstate b hb).trans ?_⟩
        exact (congrFun (giveUp_ebState s.ram eb) b).trans (Function.update_of_ne (hne b hb) _ _)
      · -- an older copy is erased
        have hne : ∀ b ∈ K, b ≠ eb := by
          rintro b hb rfl
          have hlt : readWord s.flash b 8 / 2 ^ 8 < s.ram.metadataEpoch := by
            simpa [herr] using hstale
          exact absurd (hK b hb).2 (not_le.mpr hlt)
        have hacc := accounted_giveUp h
        rw [hassoc] at hacc
        obtain ⟨hacc', hmoves, hkept, hgc, hstate⟩ := ih _
          (s := { s.eraseBlock g.toDims eb with ram := giveUp s.ram eb }) hacc
          (fun b hb => (hK b hb).congr fun o => eraseBlock_frame (hne b hb) o) hrec
        refine ⟨hacc', .head (.erase s eb (.of_state h.placed heb (.inr hmeta))
          fun hb => hne eb hb rfl) (.head (.tables _ (giveUp s.ram eb) rfl rfl rfl fun e hne =>
            .inr (giveUp_state hmeta hne)) hmoves), ⟨hkept.validLBAs, hkept.mapped⟩, hgc,
          fun b hb => (hstate b hb).trans ?_⟩
        exact (congrFun (giveUp_ebState s.ram eb) b).trans (Function.update_of_ne (hne b hb) _ _)
      · rw [hassoc] at h
        exact ih _ h hK hrec

/-- What the second loop of `openMetadataStreamForWrite` does to the tables. -/
structure Taken (g : Geometry) (q : List ℕ) (r r' : Ram) : Prop where
  eq : ∃ st n, r' = { r with ebState := st, emptyEBs := n }
  empty : ∀ eb ∈ q, eb < g.eraseBlocks ∧ r.ebState eb = 0 ∧ r'.ebState eb = ebMeta
  other : ∀ eb, eb ∉ q → r'.ebState eb = r.ebState eb
  nodup : q.Nodup

/-- The second loop of `openMetadataStreamForWrite`, with the entries before `l` done. -/
theorem allocate_spec {r r' : Ram} (pre : List (Option ℕ)) {l l' : List (Option ℕ)} {q : List ℕ}
    (h : Accounted g.toDims drift (pre ++ l) r)
    (hres : allocate g.toDims l r = some (l', q, r')) :
    Accounted g.toDims drift (pre ++ l') r' ∧ Taken g q r r' ∧ none ∉ l' := by
  induction l generalizing pre l' q r with
  | nil =>
    cases hres
    exact ⟨h, ⟨⟨_, _, rfl⟩, by simp, fun _ _ => rfl, .nil⟩, by simp⟩
  | cons x l ih =>
    have hassoc : ∀ (y : Option ℕ) (l : List (Option ℕ)), pre ++ y :: l = (pre ++ [y]) ++ l :=
      fun y l => by simp
    cases x with
    | some eb =>
      obtain ⟨⟨l₁, q₁, r₁⟩, hrec, hres⟩ := Option.bind_eq_some_iff.mp hres
      cases hres
      rw [hassoc] at h ⊢
      obtain ⟨hacc, htaken, hnone⟩ := ih _ h hrec
      exact ⟨hacc, htaken, by simpa using hnone⟩
    | none =>
      obtain ⟨eb, hlow, hres⟩ := Option.bind_eq_some_iff.mp hres
      obtain ⟨⟨l₁, q₁, r₁⟩, hrec, hres⟩ := Option.bind_eq_some_iff.mp hres
      cases hres
      obtain ⟨hlt, hzero⟩ := lowestEmptyEB_spec hlow
      have hstate := take_ebState r eb
      have hacc := accounted_take h hlt hzero
      rw [hassoc] at hacc ⊢
      obtain ⟨hacc', ⟨⟨st, n, heq⟩, hempty, hother, hnodup⟩, hnone⟩ := ih _ hacc hrec
      have hmem : eb ∉ q₁ := fun hq => by
        have := (hempty eb hq).2.1
        rw [hstate, Function.update_self] at this
        exact absurd this (by decide)
      refine ⟨hacc', ⟨⟨st, n, heq⟩, fun e he => ?_, fun e he => ?_, hnodup.cons hmem⟩,
        by simpa using hnone⟩
      · rcases List.mem_cons.mp he with rfl | he
        · refine ⟨hlt, hzero, (hother e hmem).trans ?_⟩
          exact (congrFun hstate e).trans (Function.update_self ..)
        · obtain ⟨h₁, h₂, h₃⟩ := hempty e he
          refine ⟨h₁, ?_, h₃⟩
          have hne : e ≠ eb := fun heb => hmem (heb ▸ he)
          exact ((congrFun hstate e).trans (Function.update_of_ne hne _ _)).symm.trans h₂
      · have hne : e ≠ eb := fun heb => he (heb ▸ List.mem_cons_self)
        exact (hother e fun hq => he (List.mem_cons_of_mem _ hq)).trans
          ((congrFun hstate e).trans (Function.update_of_ne hne _ _))

/-! ### One byte -/

/-- What holds between two bytes of a stream. -/
structure StreamOk (g : Geometry) (K : Set ℕ) (st : Stream) (s : Ftl) : Prop where
  idle : ∀ eb ∈ st.ebList, Idle g.toDims s.ram eb ∧ s.ram.ebState eb = ebMeta
  le : st.offset ≤ g.ebBytes - 4
  blank : flashWriteBufferSize ≤ st.offset → s.Working → ∀ eb, st.ebList.head? = some eb →
    Blank s.flash eb (st.offset / flashWriteBufferSize * flashWriteBufferSize)
      (g.ebBytes - st.offset / flashWriteBufferSize * flashWriteBufferSize)
  away : ∀ eb ∈ st.ebList, eb ∉ K

theorem worn_wearEB (r : Ram) (eb : ℕ) : Worn r (wearEB r eb) := by
  rw [wearEB]
  split_ifs <;> exact ⟨_, _, _, rfl⟩

/-- `eraseEB` followed by `setEBMeta`, on a block that holds metadata. -/
theorem worn_eraseEB_setEBMeta {eb : ℕ} (hmeta : s.ram.ebState eb = ebMeta) :
    Worn s.ram ((s.eraseEB g.toDims eb).ram.setEBMeta eb) := by
  obtain ⟨pe, highest, offset, heq⟩ := worn_wearEB s.ram eb
  refine ⟨pe, highest, offset, ?_⟩
  have hstate : ((s.eraseEB g.toDims eb).ram.setEBMeta eb).ebState = s.ram.ebState := by
    rw [Ram.setEBMeta_ebState, eraseEB_ebState, Function.update_idem, ← hmeta,
      Function.update_eq_self]
  calc (s.eraseEB g.toDims eb).ram.setEBMeta eb
      = { wearEB s.ram eb with ebState := s.ram.ebState } := by
        rw [← hstate]
        rfl
    _ = _ := by rw [heq]

theorem pages_dvd_ebBytes (g : Geometry) :
    g.ebBytes / flashWriteBufferSize * flashWriteBufferSize = g.ebBytes := by
  refine Nat.div_mul_cancel (Dvd.dvd.trans ?_ g.sectors)
  decide

theorem bufferBytes_length (wb : ℕ → UInt8) : (bufferBytes wb).length = flashWriteBufferSize := by
  rw [bufferBytes, List.length_map, List.length_range]

theorem ebBytes_ge (g : Geometry) : 8 * lbaBytes ≤ g.ebBytes := by
  rw [g.ebBytes_eq, Nat.mul_comm]
  exact Nat.mul_le_mul_left _ g.eight_le

/-- The last page of a block. -/
theorem last_page {n off : ℕ} (hn : n / flashWriteBufferSize * flashWriteBufferSize = n)
    (hbig : 8 * lbaBytes ≤ n) (hoff : off = n - 4) :
    off / flashWriteBufferSize * flashWriteBufferSize = n - flashWriteBufferSize ∧
      flashWriteBufferSize ≤ off ∧ (n - flashWriteBufferSize) % flashWriteBufferSize = 0 ∧
      n - flashWriteBufferSize + flashWriteBufferSize ≤ n := by
  simp only [flashWriteBufferSize, lbaBytes] at *
  omega

/-- A page that the byte at `off` fills. -/
theorem full_page {n off : ℕ} (hfull : (off + 1) % flashWriteBufferSize = 0) (hlt : off < n - 4) :
    off + 1 - flashWriteBufferSize + flashWriteBufferSize = off + 1 ∧ off + 1 ≤ n ∧
      (off + 1 - flashWriteBufferSize) % flashWriteBufferSize = 0 ∧
      (off + 1) / flashWriteBufferSize * flashWriteBufferSize = off + 1 ∧
      off / flashWriteBufferSize * flashWriteBufferSize = off + 1 - flashWriteBufferSize ∧
      (off + 1 ≠ flashWriteBufferSize → flashWriteBufferSize ≤ off) := by
  simp only [flashWriteBufferSize] at *
  omega

/-- A page that the byte at `off` does not fill. -/
theorem same_page {off : ℕ} (hfull : (off + 1) % flashWriteBufferSize ≠ 0) :
    (off + 1) / flashWriteBufferSize = off / flashWriteBufferSize ∧
      (flashWriteBufferSize ≤ off + 1 → flashWriteBufferSize ≤ off) := by
  simp only [flashWriteBufferSize] at *
  omega

/-- Programming one page of the block that is being written. -/
theorem move_page {eb off : ℕ} {wb : ℕ → UInt8} (hidle : Idle g.toDims s.ram eb)
    (hoff : off % flashWriteBufferSize = 0) (hfit : off + flashWriteBufferSize ≤ g.ebBytes)
    (hblank : s.Working → Blank s.flash eb off (g.ebBytes - off)) (hk : eb ∉ K) :
    Move g.toDims K s (s.program g.toDims eb off (bufferBytes wb)) := by
  refine .program s eb off _ hidle ?_ hoff ?_ (fun hs => ?_) hk <;> rw [bufferBytes_length]
  · exact hfit
  · exact Nat.mod_self _
  · exact (hblank hs).mono le_rfl (by omega)

theorem blank_after_page {eb off : ℕ} (wb : ℕ → UInt8)
    (hfit : off + flashWriteBufferSize ≤ g.ebBytes)
    (hblank : s.Working → Blank s.flash eb off (g.ebBytes - off)) (hs : s.Working) :
    Blank (s.program g.toDims eb off (bufferBytes wb)).flash eb (off + flashWriteBufferSize)
      (g.ebBytes - (off + flashWriteBufferSize)) := by
  refine ((hblank hs).mono (Nat.le_add_right _ _) (by omega)).congr fun o ho _ =>
    program_frame fun hin => ?_
  have := hin.2.2
  rw [bufferBytes_length] at this
  omega

/-- The part of `writeMetadata8b` that finishes a block. -/
theorem StreamOk.closeBlock {st st' : Stream} (h : StreamOk g K st s)
    (hres : closeBlock g.toDims st s = some (st', s')) :
    StreamOk g K st' s' ∧ st'.offset < g.ebBytes - 4 ∧ Moves g.toDims K s s' ∧ s'.ram = s.ram := by
  have hbig := ebBytes_ge g
  rw [Ftl.closeBlock] at hres
  split_ifs at hres with hfull
  · obtain ⟨front, hfront, hres⟩ := Option.bind_eq_some_iff.mp hres
    cases hres
    obtain ⟨hidle, -⟩ := h.idle front (List.mem_of_mem_head? hfront)
    obtain ⟨hlast, hoff, hmod, hfit⟩ := last_page (pages_dvd_ebBytes g) hbig hfull
    have hblank := h.blank hoff
    simp only [hlast] at hblank
    have hpos : 0 < g.ebBytes - 4 := by rw [lbaBytes] at hbig; omega
    exact ⟨⟨fun eb heb => h.idle eb (List.mem_of_mem_tail heb), Nat.zero_le _,
      fun hzero => absurd (Nat.le_zero.mp hzero) (by decide),
      fun eb heb => h.away eb (List.mem_of_mem_tail heb)⟩, hpos,
      .single (move_page hidle hmod hfit (fun hs => hblank hs front hfront)
        (h.away front (List.mem_of_mem_head? hfront))), rfl⟩
  · cases hres
    exact ⟨h, Nat.lt_of_le_of_ne h.le hfull, .refl, rfl⟩

/-- The part of `writeMetadata8b` that starts a block. -/
theorem StreamOk.openBlock {st : Stream} (h : StreamOk g K st s) (hlt : st.offset < g.ebBytes - 4) :
    StreamOk g K (openBlock st s) s ∧ (openBlock st s).offset < g.ebBytes - 4 := by
  have hbig := ebBytes_ge g
  rw [lbaBytes] at hbig
  rw [Ftl.openBlock]
  split_ifs with hzero
  · have htwelve : (12 : ℕ) < g.ebBytes - 4 := by omega
    have hpage : ¬ flashWriteBufferSize ≤ 12 := by decide
    exact ⟨⟨h.idle, htwelve.le, fun hoff => absurd hoff hpage, h.away⟩, htwelve⟩
  · exact ⟨h, hlt⟩

/-- Programming the page that a byte has filled. -/
theorem move_full_page {st : Stream} {wb : ℕ → UInt8} {front : ℕ}
    (hidle : Idle g.toDims s.ram front)
    (hlt : st.offset < g.ebBytes - 4) (hfull : (st.offset + 1) % flashWriteBufferSize = 0)
    (hblank : s.Working → Blank s.flash front (st.offset + 1 - flashWriteBufferSize)
      (g.ebBytes - (st.offset + 1 - flashWriteBufferSize))) (hk : front ∉ K) :
    Move g.toDims K s (s.program g.toDims front (st.offset + 1 - flashWriteBufferSize)
      (bufferBytes wb)) := by
  obtain ⟨hback, hle, hmod, -⟩ := full_page hfull hlt
  exact move_page hidle hmod (hback.trans_le hle) hblank hk

theorem StreamOk.page {st st' : Stream} {wb : ℕ → UInt8} {front : ℕ}
    (hidle : ∀ eb ∈ st.ebList, Idle g.toDims s.ram eb ∧ s.ram.ebState eb = ebMeta)
    (haway : ∀ eb ∈ st.ebList, eb ∉ K) (hlt : st.offset < g.ebBytes - 4)
    (hfull : (st.offset + 1) % flashWriteBufferSize = 0)
    (hfront : st.ebList.head? = some front)
    (hblank : s.Working → Blank s.flash front (st.offset + 1 - flashWriteBufferSize)
      (g.ebBytes - (st.offset + 1 - flashWriteBufferSize)))
    (hlist : st'.ebList = st.ebList) (hoffset : st'.offset = st.offset + 1) :
    StreamOk g K st' (s.program g.toDims front (st.offset + 1 - flashWriteBufferSize)
      (bufferBytes wb)) := by
  obtain ⟨hback, hle, -, hsucc, -⟩ := full_page hfull hlt
  refine ⟨hlist ▸ hidle, by rw [hoffset]; exact hlt, fun _ hs eb heb => ?_, hlist ▸ haway⟩
  obtain rfl : eb = front := Option.some.inj ((hlist ▸ heb).symm.trans hfront)
  have hafter := blank_after_page wb (hback.trans_le hle) hblank hs
  rw [hoffset, hsucc]
  rwa [hback] at hafter

/-- The part of `writeMetadata8b` that stores the byte. -/
theorem StreamOk.putByte {st st' : Stream} {b : UInt8} (h : StreamOk g K st s)
    (hlt : st.offset < g.ebBytes - 4) {l : List (Option ℕ)}
    (hacc : Accounted g.toDims drift l s.ram) (hres : putByte g.toDims b st s = some (st', s')) :
    StreamOk g K st' s' ∧ Accounted g.toDims drift l s'.ram ∧ Moves g.toDims K s s' ∧
      Worn s.ram s'.ram := by
  simp only [Ftl.putByte] at hres
  split_ifs at hres with hfull hfirst
  · -- the first page of a block, which is erased before it
    obtain ⟨front, hfront, hres⟩ := Option.bind_eq_some_iff.mp hres
    cases hres
    obtain ⟨hidle, hmeta⟩ := h.idle front (List.mem_of_mem_head? hfront)
    have hk := h.away front (List.mem_of_mem_head? hfront)
    let s₁ : Ftl := { s.eraseEB g.toDims front with
      ram := (s.eraseEB g.toDims front).ram.setEBMeta front }
    have hmoves₁ : Moves g.toDims K s s₁ := by
      refine (moves_eraseEB hidle hk).tail (.tables _ s₁.ram rfl rfl rfl fun e hne => .inl ?_)
      by_contra hno
      refine hne ?_
      rw [Ram.setEBMeta_ebState, Function.update_of_ne]
      rintro rfl
      exact hno (by rw [eraseEB_ebState, Function.update_self])
    obtain ⟨pe, highest, offset, heq⟩ : Worn s.ram s₁.ram := worn_eraseEB_setEBMeta hmeta
    have hidle₁ : ∀ eb ∈ st.ebList, Idle g.toDims s₁.ram eb ∧ s₁.ram.ebState eb = ebMeta := by
      rw [heq]
      exact fun eb heb => ⟨⟨(h.idle eb heb).1.lt, (h.idle eb heb).1.state,
        (h.idle eb heb).1.not_loc⟩, (h.idle eb heb).2⟩
    have hacc₁ : Accounted g.toDims drift l s₁.ram := by
      have hwear : WearOk g.toDims s₁.ram.peCount s₁.ram.highestPECount :=
        hacc.wear.wearEB hidle.lt
      rw [heq] at hwear ⊢
      exact ⟨hacc.placed, hwear, hacc.metas, hacc.empties⟩
    have hblank : s₁.Working → Blank s₁.flash front (st.offset + 1 - flashWriteBufferSize)
        (g.ebBytes - (st.offset + 1 - flashWriteBufferSize)) :=
      fun hs => blank_of_eraseBlock (s := s) hs hidle.lt _ _
    exact ⟨.page hidle₁ h.away hlt hfull hfront hblank rfl rfl, hacc₁, hmoves₁.tail (move_full_page
      (hidle₁ front (List.mem_of_mem_head? hfront)).1 hlt hfull hblank hk),
      ⟨pe, highest, offset, heq⟩⟩
  · obtain ⟨front, hfront, hres⟩ := Option.bind_eq_some_iff.mp hres
    cases hres
    obtain ⟨-, -, -, -, hprev, hstart⟩ := full_page hfull hlt
    have hblank : s.Working → Blank s.flash front (st.offset + 1 - flashWriteBufferSize)
        (g.ebBytes - (st.offset + 1 - flashWriteBufferSize)) := by
      intro hs
      have := h.blank (hstart hfirst) hs front hfront
      rwa [hprev] at this
    exact ⟨.page h.idle h.away hlt hfull hfront hblank rfl rfl, hacc, .single (move_full_page
      (h.idle front (List.mem_of_mem_head? hfront)).1 hlt hfull hblank
      (h.away front (List.mem_of_mem_head? hfront))), .refl _⟩
  · cases hres
    obtain ⟨hsame, hstart⟩ := same_page hfull
    refine ⟨⟨h.idle, hlt, fun hoff hs eb heb => ?_, h.away⟩, hacc, .refl, .refl _⟩
    simp only [hsame]
    exact h.blank (hstart hoff) hs eb heb

/-- **One byte of a stream** keeps the accounts and the data. -/
theorem StreamOk.writeMetadata8b {p p' : Stream × Ftl} {b : UInt8} (h : StreamOk g K p.1 p.2)
    {l : List (Option ℕ)} (hacc : Accounted g.toDims drift l p.2.ram)
    (hres : writeMetadata8b g.toDims b p = some p') :
    StreamOk g K p'.1 p'.2 ∧ Accounted g.toDims drift l p'.2.ram ∧ Moves g.toDims K p.2 p'.2 ∧
      Worn p.2.ram p'.2.ram := by
  obtain ⟨⟨st₁, s₁⟩, hclose, hput⟩ := Option.bind_eq_some_iff.mp hres
  obtain ⟨hok, hlt, hmoves, hram⟩ := h.closeBlock hclose
  obtain ⟨hok', hlt'⟩ := hok.openBlock hlt
  obtain ⟨hok'', hacc', hmoves', hworn⟩ := hok'.putByte hlt' (hram ▸ hacc) hput
  exact ⟨hok'', hacc', hmoves.trans hmoves', hram ▸ hworn⟩

/-! ### The stream -/

/-- The bytes of a list, one after another. -/
def writes (g : Dims) (bs : List UInt8) (p : Stream × Ftl) : Option (Stream × Ftl) :=
  bs.foldlM (fun p b => writeMetadata8b g b p) p

theorem writes_append {g : Dims} {bs bs' : List UInt8} {p p' p'' : Stream × Ftl}
    (h : writes g bs p = some p') (h' : writes g bs' p' = some p'') :
    writes g (bs ++ bs') p = some p'' := by
  rw [writes, List.foldlM_append]
  exact Option.bind_eq_some_iff.mpr ⟨p', h, h'⟩

/-- What holds while a stream runs, from the state `p` on. -/
structure Streaming (g : Geometry) (K : Set ℕ) (drift : ℤ) (l : List (Option ℕ))
    (p p' : Stream × Ftl) :
    Prop where
  ok : StreamOk g K p'.1 p'.2
  acc : Accounted g.toDims drift l p'.2.ram
  moves : Moves g.toDims K p.2 p'.2
  worn : Worn p.2.ram p'.2.ram

theorem Streaming.trans {l : List (Option ℕ)} {p p' p'' : Stream × Ftl}
    (h : Streaming g K drift l p p') (h' : Streaming g K drift l p' p'') :
    Streaming g K drift l p p'' :=
  ⟨h'.ok, h'.acc, h.moves.trans h'.moves, h.worn.trans h'.worn⟩

/-- **Any number of bytes** keep the accounts and the data. -/
theorem Streaming.writes {l : List (Option ℕ)} {p p' : Stream × Ftl} {bs : List UInt8}
    (hok : StreamOk g K p.1 p.2) (hacc : Accounted g.toDims drift l p.2.ram)
    (hres : Ftl.writes g.toDims bs p = some p') : Streaming g K drift l p p' := by
  induction bs generalizing p with
  | nil =>
    cases hres
    exact ⟨hok, hacc, .refl, .refl _⟩
  | cons b bs ih =>
    rw [Ftl.writes, List.foldlM_cons] at hres
    obtain ⟨p₁, hbyte, hres⟩ := Option.bind_eq_some_iff.mp hres
    obtain ⟨hok₁, hacc₁, hmoves₁, hworn₁⟩ := hok.writeMetadata8b hacc hbyte
    exact Streaming.trans ⟨hok₁, hacc₁, hmoves₁, hworn₁⟩ (ih hok₁ hacc₁ hres)

/-- A table is written as the bytes of its entries, each as it stands when its turn comes. -/
theorem writes_of_writeTable {l : List (Option ℕ)} {p p' : Stream × Ftl}
    {bytes : Ram → ℕ → List UInt8} {is : List ℕ} (hok : StreamOk g K p.1 p.2)
    (hacc : Accounted g.toDims drift l p.2.ram)
    (hres : writeTable g.toDims bytes is p = some p') :
    ∃ bss : List (List UInt8), Ftl.writes g.toDims bss.flatten p = some p' ∧
      List.Forall₂ (fun i bs => ∃ r, Worn p.2.ram r ∧ bs = bytes r i) is bss := by
  induction is generalizing p with
  | nil => exact ⟨[], hres, .nil⟩
  | cons i is ih =>
    rw [writeTable] at hres
    obtain ⟨p₁, hentry, hres⟩ := Option.bind_eq_some_iff.mp hres
    have hstr := Streaming.writes hok hacc hentry
    obtain ⟨bss, hbss, hall⟩ := ih hstr.ok hstr.acc hres
    refine ⟨_ :: bss, writes_append hentry hbss, .cons ⟨_, .refl _, rfl⟩ (hall.imp ?_)⟩
    rintro j bs ⟨r, hr, rfl⟩
    exact ⟨r, hstr.worn.trans hr, rfl⟩

/-- Closing a stream writes zeros. -/
theorem writes_of_closeMetadataStream {n : ℕ} {p p' : Stream × Ftl}
    (hres : closeMetadataStream g.toDims n p = some p') :
    ∃ k, Ftl.writes g.toDims (List.replicate k 0) p = some p' := by
  induction n generalizing p with
  | zero => exact ⟨0, hres⟩
  | succ n ih =>
    rw [closeMetadataStream] at hres
    split_ifs at hres with hc
    · obtain ⟨p₁, hbyte, hres⟩ := Option.bind_eq_some_iff.mp hres
      obtain ⟨k, hk⟩ := ih hres
      refine ⟨k + 1, ?_⟩
      rw [List.replicate_succ, Ftl.writes, List.foldlM_cons]
      exact Option.bind_eq_some_iff.mpr ⟨p₁, hbyte, hk⟩
    · exact ⟨0, hres⟩

/-- A table whose entries do not depend on wear. -/
theorem flatten_of_forall₂ {r₀ : Ram} {bytes : Ram → ℕ → List UInt8} {is : List ℕ}
    {bss : List (List UInt8)} (hbytes : ∀ r, Worn r₀ r → ∀ i, bytes r i = bytes r₀ i)
    (h : List.Forall₂ (fun i bs => ∃ r, Worn r₀ r ∧ bs = bytes r i) is bss) :
    bss.flatten = is.flatMap (bytes r₀) := by
  induction h with
  | nil => rfl
  | cons hi _ ih =>
    obtain ⟨r, hr, rfl⟩ := hi
    rw [List.flatten_cons, List.flatMap_cons, ih, hbytes r hr]

/-- The bytes of the record, the erase counts, and the other tables. -/
def TableBytes (g : Dims) (r : Ram) (bs : List UInt8) : Prop :=
  ∃ pe : List UInt8, pe.length = g.eraseBlocks ∧ ∃ r', Worn r r' ∧
    bs = ftlInfo g ++ pe ++ (List.range g.eraseBlocks).map (fun i => UInt8.ofNat (r.ebState i)) ++
      (List.range g.flashLBAs).flatMap (fun i => bytesBE16 (r.l2p i)) ++ bytesBE32 r'.peCountOffset

/-- The bytes of the stream: the record, the erase counts, and the other tables. -/
structure StreamBytes (g : Dims) (r : Ram) (bs : List UInt8) : Prop where
  exists_eq : ∃ pe : List UInt8, pe.length = g.eraseBlocks ∧ ∃ r', Worn r r' ∧ ∃ k,
    bs = ftlInfo g ++ pe ++ (List.range g.eraseBlocks).map (fun i => UInt8.ofNat (r.ebState i)) ++
      (List.range g.flashLBAs).flatMap (fun i => bytesBE16 (r.l2p i)) ++
      bytesBE32 r'.peCountOffset ++ List.replicate k 0

/-- `openMetadataStreamForWrite` keeps the accounts and the data, and leaves a stream that is
ready for its first byte. -/
theorem openMetadataStreamForWrite_spec {p : Stream × Ftl}
    (h : Accounted g.toDims drift s.ram.metaEBList s.ram) (hK : Standing g K s)
    (hres : openMetadataStreamForWrite g.toDims s = some p) :
    StreamOk g K p.1 p.2 ∧ Accounted g.toDims drift p.2.ram.metaEBList p.2.ram ∧
      Moves g.toDims K s p.2 ∧ Kept s.ram p.2.ram ∧ p.2.ram.gcEB = s.ram.gcEB ∧
      none ∉ p.2.ram.metaEBList := by
  rcases hfree : freeStale g.toDims s.ram.metaEBList s with ⟨l₁, s₁⟩
  simp only [openMetadataStreamForWrite, hfree] at hres
  obtain ⟨⟨l₂, q, r⟩, halloc, hres⟩ := Option.bind_eq_some_iff.mp hres
  cases hres
  obtain ⟨hacc₁, hmoves₁, hkept₁, hgc₁, hstate₁⟩ := freeStale_spec [] h
    (fun b hb => (hK b hb).2) hfree
  obtain ⟨hacc₂, ⟨⟨st, n, hr⟩, hempty, hother, -⟩, hnone⟩ := allocate_spec [] hacc₁ halloc
  have hzero : ¬ flashWriteBufferSize ≤ 0 := by decide
  refine ⟨⟨fun eb heb => ?_, Nat.zero_le _, fun hoff => absurd hoff hzero, fun eb heb hk => ?_⟩, ?_,
    hmoves₁.tail (.tables s₁ { r with
      metaEBList := l₂
      metadataEpoch := (r.metadataEpoch + 1) % 2 ^ 32 } ?_ ?_ ?_ fun e hne => .inl ?_),
    hkept₁.trans (.of_l2p ?_ ?_), ?_, hnone⟩
  · obtain ⟨hlt, -, hmeta⟩ := hempty eb heb
    exact ⟨⟨hlt, .inr hmeta, fun lba hlba idx => hacc₂.placed.not_loc (.inr hmeta) hlba⟩, hmeta⟩
  · -- the blocks that are taken were empty, and those of `K` never are
    obtain ⟨-, hempty, -⟩ := hempty eb heb
    rw [hstate₁ eb hk, (hK eb hk).1] at hempty
    exact absurd hempty (by decide)
  · exact ⟨hacc₂.placed, hacc₂.wear, hacc₂.metas, hacc₂.empties⟩
  · rw [hr]
  · rw [hr]
  · rw [hr]
  · by_contra hno
    exact hne (hother e fun hq => hno (hempty e hq).2.1)
  · rw [hr]
  · rw [hr]
  · rw [hr]
    exact hgc₁

/-- `doPersist` opens a stream, writes the tables to it, and closes it. -/
theorem exists_closes_of_doPersist (h : Accounted g.toDims drift s.ram.metaEBList s.ram)
    (hres : s.doPersist g.toDims = some s') :
    ∃ p bs p₁ p', openMetadataStreamForWrite g.toDims s = some p ∧
      TableBytes g.toDims p.2.ram bs ∧ writes g.toDims bs p = some p₁ ∧
      closeMetadataStream g.toDims g.ebBytes p₁ = some p' ∧
      s' = { p'.2 with ram := { p'.2.ram with metadataAge := 0 } } := by
  obtain ⟨p₀, hopen, hres⟩ := Option.bind_eq_some_iff.mp hres
  obtain ⟨p₁, hinfo, hres⟩ := Option.bind_eq_some_iff.mp hres
  obtain ⟨p₂, hpe, hres⟩ := Option.bind_eq_some_iff.mp hres
  obtain ⟨p₃, hst, hres⟩ := Option.bind_eq_some_iff.mp hres
  obtain ⟨p₄, hl2p, hres⟩ := Option.bind_eq_some_iff.mp hres
  obtain ⟨p₅, hoff, hres⟩ := Option.bind_eq_some_iff.mp hres
  obtain ⟨p₆, hclose, hres⟩ := Option.bind_eq_some_iff.mp hres
  cases hres
  obtain ⟨hok₀, hacc₀, -⟩ := openMetadataStreamForWrite_spec h (standing_empty g s) hopen
  have hstr₁ := Streaming.writes hok₀ hacc₀ hinfo
  obtain ⟨bss₂, hw₂, hall₂⟩ := writes_of_writeTable hstr₁.ok hstr₁.acc hpe
  have hstr₂ := hstr₁.trans (Streaming.writes hstr₁.ok hstr₁.acc hw₂)
  obtain ⟨bss₃, hw₃, hall₃⟩ := writes_of_writeTable hstr₂.ok hstr₂.acc hst
  have hstr₃ := hstr₂.trans (Streaming.writes hstr₂.ok hstr₂.acc hw₃)
  obtain ⟨bss₄, hw₄, hall₄⟩ := writes_of_writeTable hstr₃.ok hstr₃.acc hl2p
  have hstr₄ := hstr₃.trans (Streaming.writes hstr₃.ok hstr₃.acc hw₄)
  obtain ⟨bss₅, hw₅, hall₅⟩ := writes_of_writeTable hstr₄.ok hstr₄.acc hoff
  refine ⟨p₀, _, p₅, p₆, hopen, ⟨bss₂.flatten, ?_, ?_⟩, writes_append (writes_append (writes_append
    (writes_append hinfo hw₂) hw₃) hw₄) hw₅, hclose, rfl⟩
  · -- one byte for each block
    have hlen : ∀ (is : List ℕ) (bss : List (List UInt8)), List.Forall₂
        (fun i bs => ∃ r, Worn p₁.2.ram r ∧ bs = [UInt8.ofNat (r.peCount i)]) is bss →
        bss.flatten.length = is.length := by
      intro is bss hall
      induction hall with
      | nil => rfl
      | cons hi _ ih =>
        obtain ⟨r, -, rfl⟩ := hi
        simp [ih]
    rw [hlen _ _ hall₂, List.length_range]
  · have hstates : bss₃.flatten =
        (List.range g.eraseBlocks).map fun i => UInt8.ofNat (p₀.2.ram.ebState i) := by
      rw [flatten_of_forall₂ (fun r hr i => by obtain ⟨_, _, _, rfl⟩ := hr; rfl) hall₃]
      obtain ⟨_, _, _, heq⟩ := hstr₂.worn
      rw [heq]
      exact List.map_eq_flatMap.symm
    have hentries : bss₄.flatten =
        (List.range g.flashLBAs).flatMap fun i => bytesBE16 (p₀.2.ram.l2p i) := by
      rw [flatten_of_forall₂ (fun r hr i => by obtain ⟨_, _, _, rfl⟩ := hr; rfl) hall₄]
      obtain ⟨_, _, _, heq⟩ := hstr₃.worn
      rw [heq]
    obtain ⟨r, hr, hoff⟩ : ∃ r, Worn p₄.2.ram r ∧ bss₅.flatten = bytesBE32 r.peCountOffset := by
      cases hall₅ with
      | cons hi hnil =>
        cases hnil
        obtain ⟨r, hr, rfl⟩ := hi
        exact ⟨r, hr, by simp⟩
    exact ⟨r, hstr₄.worn.trans hr, by rw [hstates, hentries, hoff]⟩

/-- `doPersist` opens a stream, writes its bytes, and that is all. -/
theorem exists_writes_of_doPersist (h : Accounted g.toDims drift s.ram.metaEBList s.ram)
    (hres : s.doPersist g.toDims = some s') :
    ∃ p bs p', openMetadataStreamForWrite g.toDims s = some p ∧
      StreamBytes g.toDims p.2.ram bs ∧ writes g.toDims bs p = some p' ∧
      s' = { p'.2 with ram := { p'.2.ram with metadataAge := 0 } } := by
  obtain ⟨p, bs, p₁, p', hopen, ⟨pe, hlen, r, hr, hbs⟩, hwrites, hclose, heq⟩ :=
    exists_closes_of_doPersist h hres
  obtain ⟨k, hzeros⟩ := writes_of_closeMetadataStream hclose
  exact ⟨p, _, p', hopen, ⟨pe, hlen, r, hr, k, by rw [hbs]⟩, writes_append hwrites hzeros, heq⟩

/-- **`persist` keeps the accounts and the data**, and fills the list of metadata blocks. -/
theorem persist_spec (h : Accounted g.toDims drift s.ram.metaEBList s.ram)
    (hK : Standing g K s) (hgc : s.ram.gcEB < g.eraseBlocks)
    (hres : s.persist g.toDims = some s') :
    Settled g K drift s s' ∧ none ∉ s'.ram.metaEBList := by
  obtain ⟨p, bs, p', hopen, -, hwrites, rfl⟩ := exists_writes_of_doPersist h hres
  obtain ⟨hok, hacc, hmoves, hkept, hgc', hnone⟩ := openMetadataStreamForWrite_spec h hK hopen
  obtain ⟨-, hacc', hmoves', hworn⟩ := Streaming.writes hok hacc hwrites
  obtain ⟨pe, highest, offset, heq⟩ := hworn
  refine ⟨⟨?_, (hmoves.trans hmoves').tail (.tables p'.2 { p'.2.ram with metadataAge := 0 } rfl rfl
    rfl fun _ hx => absurd rfl hx), ?_, ?_⟩, ?_⟩
  · have hmetas : p'.2.ram.metaEBList = p.2.ram.metaEBList := by rw [heq]
    exact ⟨hacc'.placed, hacc'.wear, hmetas ▸ hacc'.metas, hacc'.empties⟩
  · exact hkept.trans (.of_l2p (by rw [heq]) (by rw [heq]))
  · rw [heq]
    exact hgc'.trans_lt hgc
  · rw [heq]
    exact hnone

/-- `ageMetadata` does nothing but count, or it persists. -/
theorem ageMetadata_cases (g : Dims) (s : Ftl) :
    ((s.ram.metadataAge + 1) % 256 = 0 ∧ s.ageMetadata g =
      (persist g { s with ram := { s.ram with metadataAge := 0 } }).bind (metaAgeRewrite g)) ∨
    ((s.ram.metadataAge + 1) % 256 ≠ 0 ∧ s.ageMetadata g =
      some { s with ram := { s.ram with metadataAge := (s.ram.metadataAge + 1) % 256 } }) := by
  rw [ageMetadata]
  by_cases hage : (s.ram.metadataAge + 1) % 256 = 0
  · exact .inl ⟨hage, by simp only [hage, if_true]; rfl⟩
  · exact .inr ⟨hage, by simp only [hage, if_false]⟩

/-- **`ageMetadata` keeps the accounts and the data.** -/
theorem ageMetadata_spec (h : Accounted g.toDims drift s.ram.metaEBList s.ram)
    (hgc : s.ram.gcEB < g.eraseBlocks) (hres : s.ageMetadata g.toDims = some s') :
    Settled g ∅ drift s s' := by
  let s₁ : Ftl := { s with ram := { s.ram with metadataAge := (s.ram.metadataAge + 1) % 256 } }
  have hset : Settled g ∅ drift s s₁ := ⟨⟨h.placed, h.wear, h.metas, h.empties⟩,
    .single (.tables s s₁.ram rfl rfl rfl fun _ hx => absurd rfl hx), .of_l2p rfl rfl, hgc⟩
  rcases ageMetadata_cases g.toDims s with ⟨hage, heq⟩ | ⟨-, heq⟩
  · rw [heq, ← hage] at hres
    obtain ⟨s₂, hpersist, hres⟩ := Option.bind_eq_some_iff.mp hres
    have hset₂ := hset.trans (persist_spec hset.acc (standing_empty g s₁) hset.gcEB hpersist).1
    exact hset₂.trans (metaAgeRewrite_spec hset₂.acc hset₂.gcEB hres)
  · rw [heq] at hres
    cases hres
    exact hset

end Ftl

end Ch32h4.Spiftl
