import Ch32h4.Audio.Equiv.Playing

/-!
# Silence ahead of the writer

`keepsSilence_of_reachable`: when `writeFrames` returns, every slot from the writer forward to the
read position that the call sampled last holds silence, and when `syncWriter` puts the writer back,
every slot does, in every run that is `Unlapped`.  A run is not in two ways: the DMA moves between
the two moments at which `writeFrames` samples it after the fill, for `blankFree` and for
`_queuedAtWrite`; or the DMA has come round so far since the last blanking that `blankFree` takes
it for a reader behind the writer (`not_keepsSilence_of_reachable`, `exists_lapped`).

The observer's note has the lead of the blanked slots over the writer.  Each frame takes one from
it, and it is negative while the writer is past `_blankedTo`; `blankFree` makes it the way from the
writer to the reader.
-/

namespace Ch32h4.Audio

open Machine Circular

/-! ### The note of an observer -/

/-- What an observer notes: how many slots from the writer on have been silenced and not stored to
since, less those that the writer has gone on beyond them; and the read position sampled last. -/
structure Note where
  lead : ℤ
  sampled : ℕ

/-- At the beginning the ring is silent. -/
def Note.start (s : System) : Note := ⟨s.dac.frames, s.dac.dmaPosition⟩

/-- What becomes of the lead when the call that is going on takes a step. -/
def Phase.leads (d : Dac) (lead : ℤ) : Phase → ℤ
  | .resyncing .. => d.frames
  | .storing _ _ n i => if i < n then lead - 1 else lead
  | .blanking _ => way d.frames d.wr d.dmaPosition
  | _ => lead

/-- The step looks where the reader is. -/
def Phase.samples : Phase → Bool
  | .resyncing .. | .counting | .sampling .. | .blanking _ | .queueing _ => true
  | _ => false

/-- What an observer notes of a step. -/
def Note.next (s : System) (note : Note) : Action → Note
  | .advance _ =>
    ⟨s.phase.leads s.dac note.lead, if s.phase.samples then s.dac.dmaPosition else note.sampled⟩
  | _ => note

/-- The driver with its observer. -/
abbrev watched : Machine (System × Note) Action := machine.observed Note.start Note.next

/-! ### Silence -/

/-- The slots from the writer on, for `n` of them, hold silence. -/
def Dac.SilentFor (d : Dac) (n : ℤ) : Prop :=
  ∀ k : ℕ, (k : ℤ) < n → d.ring ((d.wr + k) % d.frames) = silence

/-- Every slot does. -/
def Dac.Silent (d : Dac) : Prop := ∀ i < d.frames, d.ring i = silence

/-- When `writeFrames` returns, the slots from the writer forward to the read position sampled last
hold silence; when `syncWriter` has put the writer back, all do. -/
structure KeepsSilence (w : System × Note) : Prop where
  written : ∀ done now w', w.1.phase = .stamping done → watched.step w (.advance now) = some w' →
    w'.1.dac.SilentFor (way w'.1.dac.frames w'.1.dac.wr w'.2.sampled)
  resynced : ∀ data then_ now w', w.1.phase = .resyncing data then_ →
    watched.step w (.advance now) = some w' → w'.1.dac.Silent

/-- The DMA fetches nothing from when `blankFree` looks for it until `_queuedAtWrite` is set. -/
def Phase.Still : Phase → Prop
  | .blankingTo .. | .queueing _ => False
  | _ => True

/-- When `blankFree` looks for the reader, the reader is at least as far beyond `_blankedTo` as the
writer is. -/
def Phase.Ahead (d : Dac) (lead : ℤ) : Phase → Prop
  | .blanking _ => -lead ≤ way d.frames d.blankedTo d.dmaPosition
  | _ => True

/-- The conditions under which the silence is kept. -/
def Unlapped (w : System × Note) : Action → Prop
  | .fetch => w.1.phase.Still
  | .advance _ => w.1.phase.Ahead w.1.dac w.2.lead
  | _ => True

/-! ### The pointers -/

section

variable {d : Dac} {lead : ℤ}

theorem dmaPosition_lt (hpos : 0 < d.frames) : d.dmaPosition < d.frames := by
  unfold Dac.dmaPosition
  split_ifs with h
  · exact hpos
  · omega

theorem next_eq (hpos : 0 < d.frames) {i : ℕ} (hi : i < d.frames) :
    d.next i = (i + 1) % d.frames := by
  rw [← next_mod hpos, Nat.mod_eq_of_lt hi]

theorem next_lt (hpos : 0 < d.frames) {i : ℕ} (hi : i < d.frames) : d.next i < d.frames := by
  rw [next_eq hpos hi]
  exact Nat.mod_lt _ hpos

theorem Dac.Silent.silentFor (h : d.Silent) (hpos : 0 < d.frames) (n : ℤ) : d.SilentFor n :=
  fun _ _ => h _ (Nat.mod_lt _ hpos)

theorem Dac.SilentFor.mono {m n : ℤ} (h : d.SilentFor n) (hle : m ≤ n) : d.SilentFor m :=
  fun k hk => h k (hk.trans_le hle)

/-- The pointers of the driver, `lead` being that of the blanked slots. -/
structure Led (d : Dac) (lead : ℤ) : Prop where
  wr_lt : d.wr < d.frames
  blankedTo_lt : d.blankedTo < d.frames
  le : lead ≤ d.frames
  blankedTo : (d.wr + lead) % d.frames = d.blankedTo
  silent : d.SilentFor lead

/-- Only the ring and its pointers matter. -/
theorem Led.congr {d' : Dac} (h : Led d lead) (hring : d'.ring = d.ring)
    (hframes : d'.frames = d.frames) (hwr : d'.wr = d.wr) (hblanked : d'.blankedTo = d.blankedTo) :
    Led d' lead := by
  constructor
  · rw [hwr, hframes]; exact h.wr_lt
  · rw [hblanked, hframes]; exact h.blankedTo_lt
  · rw [hframes]; exact h.le
  · rw [hwr, hframes, hblanked]; exact h.blankedTo
  · unfold Dac.SilentFor
    rw [hring, hframes, hwr]
    exact h.silent

/-- A frame takes one from the lead. -/
theorem Led.put (h : Led d lead) (w : UInt32) : Led (d.put w) (lead - 1) := by
  have hwr := h.wr_lt
  have hpos : 0 < d.frames := by omega
  have hnext : d.next d.wr = (d.wr + 1) % d.frames := next_eq hpos hwr
  refine ⟨next_lt hpos hwr, h.blankedTo_lt, by have := h.le; show lead - 1 ≤ d.frames; omega, ?_, ?_⟩
  · show ((d.next d.wr : ℕ) + (lead - 1)) % (d.frames : ℤ) = d.blankedTo
    rw [hnext, ← h.blankedTo]
    push_cast
    rw [Int.emod_add_emod]
    congr 1
    omega
  · intro k hk
    have hle := h.le
    show Function.update d.ring d.wr w ((d.next d.wr + k) % d.frames) = silence
    rw [hnext, Nat.mod_add_mod, show d.wr + 1 + k = d.wr + (k + 1) by omega]
    have hne : (d.wr + (k + 1)) % d.frames ≠ d.wr := by
      have hlap := mod_ne_mod (n := d.frames) (show d.wr < d.wr + (k + 1) by omega) (by omega)
      rw [Nat.mod_eq_of_lt hwr] at hlap
      exact hlap.symm
    rw [Function.update_of_ne hne]
    exact h.silent (k + 1) (by push_cast; omega)

/-- The writer is put back with the reader, in a ring that is silent. -/
theorem led_resync (hpos : 0 < d.frames) (h : d.Silent) (now : ℕ) :
    Led (d.resync now) (d.resync now).frames := by
  have hlt := dmaPosition_lt hpos
  refine ⟨hlt, hlt, le_rfl, ?_, ?_⟩
  · show ((d.dmaPosition : ℤ) + d.frames) % d.frames = d.dmaPosition
    rw [Int.add_emod_right]
    exact Int.emod_eq_of_lt (by omega) (by omega)
  · exact Dac.Silent.silentFor (d := d.resync now) h hpos _

/-! ### Blanking -/

/-- The blanking is under way to `rd`: of the slots from the writer to `rd`, only the last ones,
which are still ahead of it, may hold something else. -/
structure Blanking (d : Dac) (rd : ℕ) : Prop where
  wr_lt : d.wr < d.frames
  blankedTo_lt : d.blankedTo < d.frames
  rd_lt : rd < d.frames
  silent : ∀ k, k + way d.frames d.blankedTo rd < way d.frames d.wr rd →
    d.ring ((d.wr + k) % d.frames) = silence

/-- **Blanking begins**: what has been blanked before need not be blanked again, unless the reader
has come round to before the writer. -/
theorem Led.blanking (h : Led d lead)
    (hahead : -lead ≤ way d.frames d.blankedTo d.dmaPosition) : Blanking d d.dmaPosition := by
  have hwr := h.wr_lt
  have hpos : 0 < d.frames := by omega
  have hrd := dmaPosition_lt hpos
  have hblanked := h.blankedTo_lt
  refine ⟨hwr, hblanked, hrd, fun k hk => h.silent k ?_⟩
  have hway := add_way hwr hrd
  have hway_lt := way_lt hpos d.wr d.dmaPosition
  have hrest := add_way hblanked hrd
  have hrest_lt := way_lt hpos d.blankedTo d.dmaPosition
  have hle := h.le
  have hsum := h.blankedTo
  generalize way d.frames d.wr d.dmaPosition = r at *
  generalize way d.frames d.blankedTo d.dmaPosition = m at *
  by_contra hlead
  -- the writer, the blanked slots and the reader, all within a lap
  have hmod : ((d.wr : ℤ) + lead + m) % d.frames = ((d.wr : ℤ) + r) % d.frames := by
    rw [← Int.emod_add_emod, hsum]
    exact_mod_cast hrest.trans hway.symm
  have hdvd : (d.frames : ℤ) ∣ d.wr + r - (d.wr + lead + m) :=
    Int.dvd_of_emod_eq_zero (Int.emod_eq_emod_iff_emod_sub_eq_zero.mp hmod.symm)
  have hlap := Int.le_of_dvd (by omega) hdvd
  omega

/-- A slot is blanked. -/
theorem Blanking.blank {rd : ℕ} (h : Blanking d rd) (hne : d.blankedTo ≠ rd) :
    Blanking d.blank rd := by
  have hblanked := h.blankedTo_lt
  have hwr := h.wr_lt
  have hrd := h.rd_lt
  have hpos : 0 < d.frames := by omega
  have hnext : d.next d.blankedTo = (d.blankedTo + 1) % d.frames := next_eq hpos hblanked
  refine ⟨hwr, next_lt hpos hblanked, hrd, fun k hk => ?_⟩
  replace hk : k + way d.frames (d.next d.blankedTo) rd < way d.frames d.wr rd := hk
  show Function.update d.ring d.blankedTo silence ((d.wr + k) % d.frames) = silence
  by_cases hslot : (d.wr + k) % d.frames = d.blankedTo
  · rw [hslot, Function.update_self]
  · rw [Function.update_of_ne hslot]
    have hshorter := way_succ hblanked hrd hne
    rw [hnext] at hk
    apply h.silent k
    -- the slot that is one way short of the reader is the one just blanked
    by_contra hnot
    have hlt := way_lt hpos d.wr rd
    have heq : way d.frames ((d.wr + k) % d.frames) rd = way d.frames d.blankedTo rd := by
      refine way_eq (Nat.mod_lt _ hpos) (way_lt hpos _ _) ?_
      rw [Nat.mod_add_mod, show d.wr + k + way d.frames d.blankedTo rd
        = d.wr + way d.frames d.wr rd by omega]
      exact add_way hwr hrd
    exact hslot (way_inj (Nat.mod_lt _ hpos) hblanked hrd heq)

/-- Blanking is done: the slots from the writer to the reader hold silence. -/
theorem Blanking.led (h : Blanking d d.blankedTo) : Led d (way d.frames d.wr d.blankedTo) := by
  have hwr := h.wr_lt
  have hpos : 0 < d.frames := by omega
  have hlt := way_lt hpos d.wr d.blankedTo
  refine ⟨hwr, h.blankedTo_lt, by omega, ?_, fun k hk => h.silent k ?_⟩
  · exact_mod_cast add_way hwr h.blankedTo_lt
  · rw [way_self h.blankedTo_lt]
    omega

/-! ### The invariant -/

/-- What holds of ring and note, phase by phase. -/
def Phase.Hushed (d : Dac) (note : Note) : Phase → Prop
  | .idle | .syncing _ | .counting => Led d note.lead ∧ (d.primed = false → d.Silent)
  | .wiping _ _ i => ∀ j < i, d.ring j = silence
  | .resyncing .. => d.Silent
  | .sampling .. | .storing .. | .blanking _ => Led d note.lead
  | .blankingTo _ rd => Blanking d rd ∧ d.dmaPosition = rd ∧ note.lead = way d.frames d.wr rd
  | .queueing _ => Led d note.lead ∧ note.lead = way d.frames d.wr d.dmaPosition
  | .stamping _ => Led d note.lead ∧ note.lead = way d.frames d.wr note.sampled

structure Hushed (w : System × Note) : Prop where
  frames_pos : 0 < w.1.dac.frames
  phase : w.1.phase.Hushed w.1.dac w.2

variable {s s' : System} {note : Note} {w w' : System × Note}

/-- The DMA moves on, and the ring stays as it is. -/
theorem Phase.Hushed.fetch {d' : Dac} {p : Phase} (h : p.Hushed d note) (hstill : p.Still)
    (hring : d'.ring = d.ring) (hframes : d'.frames = d.frames) (hwr : d'.wr = d.wr)
    (hblanked : d'.blankedTo = d.blankedTo) (hprimed : d'.primed = d.primed) :
    p.Hushed d' note := by
  have hsilent : d.Silent → d'.Silent := by
    intro hs
    unfold Dac.Silent
    rw [hring, hframes]
    exact hs
  cases p with
  | idle | syncing | counting =>
    obtain ⟨hled, hquiet⟩ := h
    exact ⟨hled.congr hring hframes hwr hblanked, fun hp => hsilent (hquiet (hprimed ▸ hp))⟩
  | wiping data now i =>
    intro j hj
    rw [hring]
    exact h j hj
  | resyncing => exact hsilent h
  | sampling | storing | blanking => exact Led.congr h hring hframes hwr hblanked
  | blankingTo => exact hstill.elim
  | queueing => exact hstill.elim
  | stamping =>
    obtain ⟨hled, hlead⟩ := h
    refine ⟨hled.congr hring hframes hwr hblanked, ?_⟩
    rw [hframes, hwr]
    exact hlead

/-- Where the DMA stands does not depend on the other fields. -/
theorem Phase.Hushed.setStereo {p : Phase} (h : p.Hushed d note) (stereo : Bool) :
    p.Hushed { d with stereo } note := by
  by_cases hstill : p.Still
  · exact h.fetch hstill rfl rfl rfl rfl rfl
  · cases p with
    | blankingTo =>
      obtain ⟨hblanking, hrd, hlead⟩ := h
      exact ⟨⟨hblanking.wr_lt, hblanking.blankedTo_lt, hblanking.rd_lt, hblanking.silent⟩, hrd, hlead⟩
    | queueing =>
      obtain ⟨hled, hlead⟩ := h
      exact ⟨hled.congr rfl rfl rfl rfl, hlead⟩
    | _ => exact absurd trivial hstill

/-- The clock is asked. -/
theorem Hushed.syncing (h : Hushed (s, note)) {data : Option (List Frame)} {now : ℕ}
    (hphase : s.phase = .syncing data) (hs : s.advance now = some s') : Hushed (s', note) := by
  obtain ⟨hpos, hp⟩ := h
  simp only [hphase] at hp
  obtain ⟨hled, hquiet⟩ := hp
  simp only [System.advance, hphase] at hs
  split_ifs at hs with hdrained hprimed hless
  · obtain rfl := Option.some.inj hs
    exact ⟨hpos, fun j hj => absurd hj (Nat.not_lt_zero j)⟩
  · obtain rfl := Option.some.inj hs
    exact ⟨hpos, fun j hj => absurd hj (Nat.not_lt_zero j)⟩
  · -- a ring that is not primed has been silent since it was last wiped
    obtain rfl := Option.some.inj hs
    exact ⟨hpos, hquiet (by simpa using hprimed)⟩
  · obtain rfl := Option.some.inj hs
    refine ⟨hpos, ?_⟩
    cases data with
    | none => exact ⟨hled, hquiet⟩
    | some data => exact hled

/-- A slot is wiped. -/
theorem Hushed.wiping (h : Hushed (s, note)) {data : Option (List Frame)} {now now' i : ℕ}
    (hphase : s.phase = .wiping data now' i) (hs : s.advance now = some s') :
    Hushed (s', note) := by
  obtain ⟨hpos, hp⟩ := h
  simp only [hphase] at hp
  replace hp : ∀ j < i, s.dac.ring j = silence := hp
  simp only [System.advance, hphase] at hs
  split_ifs at hs with hi
  · obtain rfl := Option.some.inj hs
    refine ⟨hpos, fun j hj => ?_⟩
    show Function.update s.dac.ring i silence j = silence
    by_cases hji : j = i
    · rw [hji, Function.update_self]
    · rw [Function.update_of_ne hji]
      exact hp j (by omega)
  · obtain rfl := Option.some.inj hs
    exact ⟨hpos, fun j hj => hp j (hj.trans_le (not_lt.mp hi))⟩

/-- The writer is put back. -/
theorem Hushed.resyncing (h : Hushed (s, note)) {data : Option (List Frame)} {now now' : ℕ}
    (hphase : s.phase = .resyncing data now') (hs : s.advance now = some s') (sampled : ℕ) :
    Hushed (s', ⟨s.dac.frames, sampled⟩) := by
  obtain ⟨hpos, hp⟩ := h
  simp only [hphase] at hp
  simp only [System.advance, hphase, Option.some.injEq] at hs
  subst hs
  refine ⟨hpos, ?_⟩
  cases data with
  | none => exact ⟨led_resync hpos hp now', fun _ => hp⟩
  | some data => exact led_resync hpos hp now'

/-- A frame is stored. -/
theorem Hushed.storing (h : Hushed (s, note)) {data : List Frame} {done n i now : ℕ}
    (hphase : s.phase = .storing data done n i) (hs : s.advance now = some s') :
    Hushed (s', ⟨if i < n then note.lead - 1 else note.lead, note.sampled⟩) := by
  obtain ⟨hpos, hp⟩ := h
  simp only [hphase] at hp
  replace hp : Led s.dac note.lead := hp
  simp only [System.advance, hphase] at hs
  by_cases hi : i < n
  · rw [if_pos hi] at hs ⊢
    cases hf : data[done + i]? with
    | none =>
      rw [hf] at hs
      cases hs
    | some f =>
      rw [hf] at hs
      obtain rfl := Option.some.inj hs
      exact ⟨hpos, hp.put _⟩
  · rw [if_neg hi] at hs ⊢
    obtain rfl := Option.some.inj hs
    exact ⟨hpos, hp⟩

/-- The step of `blankFree` that blanks a slot, or finds that it has come to the reader. -/
theorem Hushed.blankingTo (h : Hushed (s, note)) {done rd now : ℕ}
    (hphase : s.phase = .blankingTo done rd) (hs : s.advance now = some s') :
    Hushed (s', note) := by
  obtain ⟨hpos, hp⟩ := h
  simp only [hphase] at hp
  obtain ⟨hblanking, hrd, hlead⟩ := hp
  simp only [System.advance, hphase] at hs
  split_ifs at hs with hend
  · obtain rfl := Option.some.inj hs
    exact ⟨hpos, hblanking.blank hend, hrd, hlead⟩
  · obtain rfl := Option.some.inj hs
    rw [not_not] at hend
    subst hend
    refine ⟨hpos, ?_, ?_⟩
    · rw [hlead]
      exact hblanking.led
    · show note.lead = way s.dac.frames s.dac.wr s.dac.dmaPosition
      rw [hrd]
      exact hlead

/-- **Every step of a call** keeps the invariant. -/
theorem Hushed.advance (h : Hushed (s, note)) {now : ℕ} (hahead : s.phase.Ahead s.dac note.lead)
    (hs : s.advance now = some s') : Hushed (s', note.next s (.advance now)) := by
  have hpos := h.frames_pos
  have hp := h.phase
  unfold Note.next
  dsimp only at hpos hp ⊢
  cases hphase : s.phase with
  | idle =>
    simp only [System.advance, hphase] at hs
    cases hs
  | syncing data => exact h.syncing hphase hs
  | wiping data now' i => exact h.wiping hphase hs
  | resyncing data now' => exact h.resyncing hphase hs _
  | counting =>
    simp only [System.advance, hphase, Option.some.injEq] at hs
    rw [hphase] at hp
    subst hs
    exact ⟨hpos, hp.1, hp.2⟩
  | sampling data done =>
    rw [hphase] at hp
    replace hp : Led s.dac note.lead := hp
    simp only [System.advance, hphase] at hs
    split_ifs at hs with hmore hfull
    · obtain rfl := Option.some.inj hs
      exact ⟨hpos, hp⟩
    · obtain rfl := Option.some.inj hs
      exact ⟨hpos, hp⟩
    · obtain rfl := Option.some.inj hs
      exact ⟨hpos, hp⟩
  | storing data done n i => exact h.storing hphase hs
  | blanking done =>
    simp only [System.advance, hphase, Option.some.injEq] at hs
    rw [hphase] at hp hahead
    replace hp : Led s.dac note.lead := hp
    subst hs
    exact ⟨hpos, hp.blanking hahead, rfl, rfl⟩
  | blankingTo done rd => exact h.blankingTo hphase hs
  | queueing done =>
    simp only [System.advance, hphase, Option.some.injEq] at hs
    rw [hphase] at hp
    obtain ⟨hled, hlead⟩ := hp
    subst hs
    exact ⟨hpos, hled.congr rfl rfl rfl rfl, hlead⟩
  | stamping done =>
    simp only [System.advance, hphase, Option.some.injEq] at hs
    rw [hphase] at hp
    obtain ⟨hled, -⟩ := hp
    subst hs
    exact ⟨hpos, hled.congr rfl rfl rfl rfl, fun hprimed => by cases hprimed⟩

/-- **Every step** that meets the conditions keeps the invariant. -/
theorem Hushed.step (h : Hushed w) {a : Action} (hlap : Unlapped w a)
    (hs : watched.step w a = some w') : Hushed w' := by
  obtain ⟨s, note⟩ := w
  obtain ⟨s', note'⟩ := w'
  obtain ⟨hstep, rfl⟩ := observed_step.mp hs
  dsimp only at hstep ⊢
  cases a with
  | fetch =>
    simp only [machine, Audio.step] at hstep
    split_ifs at hstep with hcntr
    obtain rfl := Option.some.inj hstep
    unfold System.fetch
    split_ifs with hfirst
    · exact ⟨h.frames_pos, h.phase.fetch hlap rfl rfl rfl rfl rfl⟩
    · exact ⟨h.frames_pos, h.phase.fetch hlap rfl rfl rfl rfl rfl⟩
  | setStereo stereo =>
    obtain rfl := Option.some.inj hstep
    exact ⟨h.frames_pos, h.phase.setStereo stereo⟩
  | writeFrames data =>
    simp only [machine, Audio.step] at hstep
    cases hphase : s.phase with
    | idle =>
      rw [hphase] at hstep
      obtain rfl := Option.some.inj hstep
      have hp := h.phase
      dsimp only at hp
      rw [hphase] at hp
      exact ⟨h.frames_pos, hp.1, hp.2⟩
    | _ =>
      rw [hphase] at hstep
      cases hstep
  | availableFrames =>
    simp only [machine, Audio.step] at hstep
    cases hphase : s.phase with
    | idle =>
      rw [hphase] at hstep
      obtain rfl := Option.some.inj hstep
      have hp := h.phase
      dsimp only at hp
      rw [hphase] at hp
      exact ⟨h.frames_pos, hp.1, hp.2⟩
    | _ =>
      rw [hphase] at hstep
      cases hstep
  | advance now => exact h.advance hlap hstep

theorem hushed_begun {frames rate cntr lastWriteUs : ℕ} {stereo : Bool}
    (hframes : minFrames ≤ frames) :
    Hushed (⟨begun frames rate cntr lastWriteUs stereo, .idle, [], 0, [], []⟩,
      Note.start ⟨begun frames rate cntr lastWriteUs stereo, .idle, [], 0, [], []⟩) := by
  have hpos : 0 < frames := Nat.lt_of_lt_of_le (by decide) hframes
  have hsilent : (begun frames rate cntr lastWriteUs stereo).Silent := fun _ _ => rfl
  exact ⟨hpos, (led_resync hpos hsilent 0).congr rfl rfl rfl rfl, fun _ => hsilent⟩

end

/-! ### Runs -/

variable {w : System × Note}

/-- **Run lemma**. -/
theorem hushed_of_reachable (h : watched.Reachable Unlapped w) : Hushed w := by
  refine invariant (I := Hushed) ?_ ?_ h
  · rintro ⟨s, note⟩ ⟨⟨frames, rate, cntr, lastWriteUs, stereo, hframes, -, -, rfl⟩, hnote⟩
    simp only at hnote
    subst hnote
    exact hushed_begun hframes
  · intro w a w' hw hlap hstep
    exact hw.step hlap hstep

/-- **The silence is kept** in every run that is `Unlapped`. -/
theorem keepsSilence_of_reachable (h : watched.Reachable Unlapped w) : KeepsSilence w := by
  obtain ⟨s, note⟩ := w
  obtain ⟨hpos, hp⟩ := hushed_of_reachable h
  dsimp only at hpos hp
  constructor
  · rintro done now ⟨s', note'⟩ hphase hstep
    obtain ⟨hs, rfl⟩ := observed_step.mp hstep
    simp only at hphase
    simp only [machine, Audio.step, System.advance, hphase, Option.some.injEq] at hs
    rw [hphase] at hp
    obtain ⟨hled, hlead⟩ := hp
    subst hs
    have hsilent := hled.silent
    rw [hlead] at hsilent
    simp only [Note.next, hphase, Phase.samples, Bool.false_eq_true, if_false]
    exact hsilent
  · rintro data then_ now ⟨s', note'⟩ hphase hstep
    obtain ⟨hs, -⟩ := observed_step.mp hstep
    simp only at hphase
    simp only [machine, Audio.step, System.advance, hphase, Option.some.injEq] at hs
    rw [hphase] at hp
    subst hs
    exact hp

/-! Runs on the smallest ring. -/

instance : ∀ p : Phase, Decidable p.Still
  | .blankingTo .. | .queueing _ => inferInstanceAs (Decidable False)
  | .idle | .syncing _ | .wiping .. | .resyncing .. | .counting | .sampling .. | .storing ..
  | .blanking _ | .stamping _ => inferInstanceAs (Decidable True)

instance (d : Dac) (lead : ℤ) : ∀ p : Phase, Decidable (p.Ahead d lead)
  | .blanking _ => inferInstanceAs (Decidable (_ ≤ _))
  | .blankingTo .. | .queueing _ | .idle | .syncing _ | .wiping .. | .resyncing .. | .counting
  | .sampling .. | .storing .. | .stamping _ => inferInstanceAs (Decidable True)

instance (w : System × Note) : ∀ a, Decidable (Unlapped w a)
  | .fetch => inferInstanceAs (Decidable w.1.phase.Still)
  | .advance _ => inferInstanceAs (Decidable (w.1.phase.Ahead w.1.dac w.2.lead))
  | .setStereo _ | .writeFrames _ | .availableFrames => inferInstanceAs (Decidable True)

theorem init_watched : watched.init (smallest, Note.start smallest) := ⟨init_smallest, rfl⟩

/-- What a call of `writeFrames` has stored when it only has the clock left to ask. -/
def Phase.stamps : Phase → Option ℕ
  | .stamping done => some done
  | _ => none

theorem Phase.eq_of_stamps {p : Phase} {done : ℕ} (h : p.stamps = some done) :
    p = .stamping done := by
  cases p with
  | stamping done' => rw [Option.some.inj h]
  | _ => cases h

/-- Three frames are written while the DMA moves. -/
def threeFrames : List Action :=
  .writeFrames (List.replicate 3 loud) :: List.replicate 5 (.advance 0) ++ [.fetch, .fetch] ++
    List.replicate 8 (.advance 0)

/-- The two words that the DMA has fetched are silenced, and what is ahead of the writer is. -/
theorem keepsSilence_of_reachable_threeFrames :
    ∃ w, watched.run Unlapped (smallest, Note.start smallest) threeFrames = some w ∧
      w.1.phase.stamps = some 3 ∧ w.1.dac.blankedTo = 2 ∧ KeepsSilence w := by
  have hrun : ((watched.run Unlapped (smallest, Note.start smallest) threeFrames).map fun w =>
      (w.1.phase.stamps, w.1.dac.blankedTo)) = some (some 3, 2) := by decide +kernel
  obtain ⟨w, hw, hmarks⟩ := Option.map_eq_some_iff.mp hrun
  simp only [Prod.mk.injEq] at hmarks
  exact ⟨w, hw, hmarks.1, hmarks.2,
    keepsSilence_of_reachable (reachable_of_run (.init init_watched) hw)⟩

/-- A word other than silence `k` slots from the writer on, where the call that is about to return
has sampled the reader farther on. -/
theorem not_keepsSilence {w w' : System × Note} {done k now : ℕ}
    (hstamps : w.1.phase.stamps = some done)
    (hstep : watched.step w (.advance now) = some w')
    (hk : k < way w'.1.dac.frames w'.1.dac.wr w'.2.sampled)
    (hloud : w'.1.dac.ring ((w'.1.dac.wr + k) % w'.1.dac.frames) ≠ silence) : ¬ KeepsSilence w :=
  fun h => hloud (h.written done now w' (Phase.eq_of_stamps hstamps) hstep k (by exact_mod_cast hk))

/-- What the last step of a run leaves `k` slots from the writer on, and whether the reader has been
sampled farther on. -/
def lastStep (k : ℕ) (w : System × Note) : Option (Option ℕ × Bool × Bool) :=
  (watched.step w (.advance 0)).map fun w' =>
    (w.1.phase.stamps, decide (k < way w'.1.dac.frames w'.1.dac.wr w'.2.sampled),
      decide (w'.1.dac.ring ((w'.1.dac.wr + k) % w'.1.dac.frames) = silence))

theorem not_keepsSilence_of_lastStep {w : System × Note} {done k : ℕ}
    (h : lastStep k w = some (some done, true, false)) : ¬ KeepsSilence w := by
  obtain ⟨w', hstep, hmarks⟩ := Option.map_eq_some_iff.mp h
  simp only [Prod.mk.injEq, decide_eq_true_eq, decide_eq_false_iff_not] at hmarks
  exact not_keepsSilence hmarks.1 hstep hmarks.2.1 hmarks.2.2

/-- Two frames are written, and the DMA fetches one between `blankFree` and `_queuedAtWrite`. -/
def fetchBetween : List Action :=
  .writeFrames (List.replicate 2 loud) :: List.replicate 9 (.advance 0) ++ [.fetch, .advance 0]

/-- The slot of the frame that was fetched is before the read position, and not silent. -/
theorem not_keepsSilence_of_reachable :
    ¬ ∀ w, watched.Reachable anyStep w → KeepsSilence w := by
  intro hall
  have hrun : (watched.run anyStep (smallest, Note.start smallest) fetchBetween).bind
      (lastStep 254) = some (some 2, true, false) := by decide +kernel
  obtain ⟨w, hw, hlast⟩ := Option.bind_eq_some_iff.mp hrun
  exact not_keepsSilence_of_lastStep hlast (hall w (reachable_of_run (.init init_watched) hw))

/-- The ring is filled beyond `_blankedTo` while the DMA takes two frames, and the DMA comes round
to `_blankedTo` before `blankFree` looks for it. -/
def comeRound : List Action :=
  .writeFrames (List.replicate 257 loud) :: List.replicate 258 (.advance 0) ++
    [.advance 0, .fetch] ++ List.replicate 3 (.advance 0) ++ [.fetch] ++
    List.replicate 4 (.advance 0) ++ List.replicate 254 .fetch ++ List.replicate 3 (.advance 0)

/-- The DMA fetches nothing from when `blankFree` looks for it until `_queuedAtWrite` is set. -/
def AtRest (w : System × Note) : Action → Prop
  | .fetch => w.1.phase.Still
  | _ => True

instance (w : System × Note) : ∀ a, Decidable (AtRest w a)
  | .fetch => inferInstanceAs (Decidable w.1.phase.Still)
  | .advance _ | .setStereo _ | .writeFrames _ | .availableFrames =>
    inferInstanceAs (Decidable True)

/-- Nothing is blanked then: that the DMA rests is not enough. -/
theorem exists_lapped : ∃ w, watched.Reachable AtRest w ∧ ¬ KeepsSilence w := by
  have hrun : (watched.run AtRest (smallest, Note.start smallest) comeRound).bind (lastStep 0) =
      some (some 257, true, false) := by decide +kernel
  obtain ⟨w, hw, hlast⟩ := Option.bind_eq_some_iff.mp hrun
  exact ⟨w, reachable_of_run (.init init_watched) hw, not_keepsSilence_of_lastStep hlast⟩

end Ch32h4.Audio
