import Ch32h4.Audio.Stream
import Ch32h4.Circular

/-!
# What is played

* `playing_of_reachable`: as long as the ring never runs dry and no frame is stored into a slot
  that has been freed since the last blanking, the DMA fetches every frame that was accepted, once
  and in order, and those still waiting are in the ring.
* `not_playing_of_inTime`: without the second condition `blankFree` silences frames that are
  waiting.

The invariant counts the slots from the beginning of time: the reader stands at `R`, the writer at
`R` and the frames waiting, and `blankedTo` at some `B` behind the reader.  `blankFree` blanks from
`B` to `R`, and a frame is safe from it as long as the writer stays within a lap of `B`.
-/

namespace Ch32h4.Audio

open Machine Circular

/-! ### The conditions -/

/-- The ring is empty, and the reader is about to go on all the same: a frame has been accepted
before, or a call has put its writer where the reader stood. -/
def System.dry (s : System) : Bool :=
  s.pending = 0 ∧ (s.accepted ≠ [] ∨ s.phase.engaged = true)

/-- The clock calls the ring drained only when the DMA has fetched every frame. -/
def Phase.Timely (d : Dac) (pending now : ℕ) : Phase → Prop
  | .syncing _ => d.drained now → pending = 0
  | _ => True

/-- The ring does not run dry with this step, and the clock does not say so of a ring that has
frames waiting. -/
def InTime (s : System) : Action → Prop
  | .fetch => s.dry = false
  | .advance now => s.phase.Timely s.dac s.pending now
  | .setStereo _ | .writeFrames _ | .availableFrames => True

/-- The slot of the writer is not one of those between `blankedTo` and the reader. -/
def Dac.Clear (d : Dac) : Prop :=
  (d.dmaPosition + d.frames - d.blankedTo) % d.frames ≤ (d.wr + d.frames - d.blankedTo) % d.frames

/-- The next slot to be stored to, if there is one, has been blanked since it was played. -/
def Phase.Blanked (d : Dac) : Phase → Prop
  | .storing _ _ n i => i < n → d.Clear
  | _ => True

/-- A frame is stored only into a slot that has been blanked. -/
def Blanked (s : System) : Action → Prop
  | .advance _ => s.phase.Blanked s.dac
  | .fetch | .setStereo _ | .writeFrames _ | .availableFrames => True

/-- The conditions under which every frame is played: the ring is not larger than the DMA can
count, it never runs dry, and frames go only into slots that have been blanked. -/
def Careful (s : System) (a : Action) : Prop :=
  s.dac.frames < 2 ^ 16 ∧ InTime s a ∧ Blanked s a

/-- What is played: silence before the first frame, and then the frames accepted, in order; the
rest of them waits in the ring. -/
structure Playing (s : System) : Prop where
  preroll : ∀ w ∈ s.preroll, w = silence
  played : s.played <+: s.accepted
  waiting : Holds s.dac.ring s.dac.frames s.dac.dmaPosition (s.accepted.drop s.played.length)
  counted : s.accepted.length = s.returned + s.phase.stored

/-! ### The invariant -/

/-- The frames that wait. -/
def System.waiting (s : System) : List UInt32 := s.accepted.drop s.played.length

/-- The pointers of the driver as counts, with the frames `xs` waiting. -/
structure Lapped (d : Dac) (xs : List UInt32) (B R : ℕ) : Prop where
  reader : d.dmaPosition = R % d.frames
  writer : d.wr = (R + xs.length) % d.frames
  blankedTo : d.blankedTo = B % d.frames
  le : B ≤ R
  lap : R + xs.length ≤ B + d.frames
  lt : xs.length < d.frames
  holds : Holds d.ring d.frames R xs

/-- The reader may go on: it has frames to read, or nobody relies on it. -/
def Loose (d : Dac) (xs : List UInt32) : Prop :=
  xs = [] ∧ d.queuedAtWrite = 0 ∨ ∃ B R, Lapped d xs B R

/-- What holds of the pointers, phase by phase. -/
def Phase.Laid (d : Dac) (xs : List UInt32) : Phase → Prop
  | .idle | .syncing _ | .counting => Loose d xs
  | .wiping .. | .resyncing .. => xs = []
  | .sampling data done => done ≤ data.length ∧ ∃ B R, Lapped d xs B R
  | .storing data done n i => i ≤ n ∧ done + n ≤ data.length ∧
      xs.length + (n - i) < d.frames ∧ ∃ B R, Lapped d xs B R
  | .blankingTo _ rd => ∃ B T R, B ≤ T ∧ T ≤ R ∧ rd = T % d.frames ∧ Lapped d xs B R
  | .blanking _ | .queueing _ | .stamping _ => ∃ B R, Lapped d xs B R

structure Sound (s : System) : Prop where
  frames_pos : 0 < s.dac.frames
  cntr_pos : 0 < s.dac.cntr
  cntr_le : s.dac.cntr ≤ s.dac.frames
  preroll : ∀ w ∈ s.preroll, w = silence
  played : s.played <+: s.accepted
  counted : s.accepted.length = s.returned + s.phase.stored
  silent : s.accepted = [] → ∀ i, s.dac.ring i = silence
  unqueued : s.accepted = [] → s.dac.queuedAtWrite = 0
  laid : s.phase.Laid s.dac s.waiting

/-! ### The pointers -/

section

variable {d : Dac} {xs : List UInt32} {B R : ℕ} {w : UInt32}

theorem next_mod (hpos : 0 < d.frames) (i : ℕ) : d.next (i % d.frames) = (i + 1) % d.frames := by
  unfold Dac.next
  have hlt := Nat.mod_lt i hpos
  rw [← Nat.mod_add_mod i d.frames 1]
  split_ifs with hend
  · rw [hend, Nat.mod_self]
  · exact (Nat.mod_eq_of_lt (by omega)).symm

theorem dmaPosition_eq (hpos : 0 < d.cntr) (hle : d.cntr ≤ d.frames) :
    d.dmaPosition = d.frames - d.cntr := by
  unfold Dac.dmaPosition
  rw [if_neg (by omega)]

/-- With at most 65535 frames the DMA goes round the whole ring. -/
theorem bufferSize_eq (hsmall : d.frames < 2 ^ 16) : d.bufferSize = d.frames :=
  Nat.mod_eq_of_lt hsmall

theorem fetch_eq (hsmall : d.frames < 2 ^ 16) (hpos : 0 < d.cntr) (hle : d.cntr ≤ d.frames) :
    d.fetch = d.ring d.dmaPosition := by
  unfold Dac.fetch
  rw [bufferSize_eq hsmall, dmaPosition_eq hpos hle]

theorem cntr_advance (hsmall : d.frames < 2 ^ 16) (hpos : 0 < d.cntr) (hle : d.cntr ≤ d.frames) :
    0 < d.advance.cntr ∧ d.advance.cntr ≤ d.frames := by
  unfold Dac.advance
  rw [bufferSize_eq hsmall]
  dsimp only
  split_ifs <;> omega

theorem dmaPosition_advance (hsmall : d.frames < 2 ^ 16) (hpos : 0 < d.cntr)
    (hle : d.cntr ≤ d.frames) : d.advance.dmaPosition = (d.dmaPosition + 1) % d.frames := by
  obtain ⟨hpos', hle'⟩ := cntr_advance hsmall hpos hle
  rw [dmaPosition_eq hpos' hle', dmaPosition_eq hpos hle]
  unfold Dac.advance
  rw [bufferSize_eq hsmall]
  dsimp only
  split_ifs with hone
  · rw [hone, Nat.sub_self, Nat.sub_add_cancel (by omega), Nat.mod_self]
  · rw [Nat.mod_eq_of_lt (by omega)]
    omega

/-- The space that the driver sees is the space there is. -/
theorem Lapped.freeFrames (h : Lapped d xs B R) : d.freeFrames = d.frames - xs.length - 1 := by
  unfold Dac.freeFrames
  rw [h.writer, h.reader, mod_add_sub_mod h.lt]

/-- Only the ring, its pointers and the counter matter. -/
theorem Lapped.congr {d' : Dac} (h : Lapped d xs B R) (hring : d'.ring = d.ring)
    (hframes : d'.frames = d.frames) (hwr : d'.wr = d.wr) (hblanked : d'.blankedTo = d.blankedTo)
    (hcntr : d'.cntr = d.cntr) : Lapped d' xs B R := by
  have hpos : d'.dmaPosition = d.dmaPosition := by
    unfold Dac.dmaPosition
    rw [hcntr, hframes]
  constructor
  · rw [hpos, hframes]; exact h.reader
  · rw [hwr, hframes]; exact h.writer
  · rw [hblanked, hframes]; exact h.blankedTo
  · exact h.le
  · rw [hframes]; exact h.lap
  · rw [hframes]; exact h.lt
  · rw [hring, hframes]; exact h.holds

/-- The reader takes the first frame that waits. -/
theorem Lapped.fetch {x : UInt32} (h : Lapped d (x :: xs) B R) (hsmall : d.frames < 2 ^ 16)
    (hpos : 0 < d.cntr) (hle : d.cntr ≤ d.frames) :
    d.fetch = x ∧ Lapped d.advance xs B (R + 1) := by
  have hlen : (x :: xs).length = xs.length + 1 := rfl
  have hlap := h.lap
  have hlt := h.lt
  have hBR := h.le
  refine ⟨?_, ?_, ?_, h.blankedTo, by omega, ?_, ?_, h.holds.tail⟩
  · rw [fetch_eq hsmall hpos hle, h.reader]
    exact h.holds.head
  · rw [dmaPosition_advance hsmall hpos hle, h.reader]
    exact Nat.mod_add_mod R d.frames 1
  · rw [show R + 1 + xs.length = R + (x :: xs).length by omega]
    exact h.writer
  · show R + 1 + xs.length ≤ B + d.frames
    omega
  · show xs.length < d.frames
    omega

/-- **A frame is stored** into a slot that has been blanked.  Where `B` is a whole lap behind, the
reader has caught up with the writer, and `B` may as well have caught up with both. -/
theorem Lapped.put (h : Lapped d xs B R) (hclear : d.Clear) (hspace : xs.length + 1 < d.frames)
    (w : UInt32) : ∃ B', Lapped (d.put w) (xs ++ [w]) B' R := by
  have hpos : 0 < d.frames := by omega
  have hlap := h.lap
  have hBR := h.le
  have hlen : (xs ++ [w]).length = xs.length + 1 := by simp
  have hput (B' : ℕ) (hB' : d.blankedTo = B' % d.frames) (hle : B' ≤ R)
      (hlap' : R + xs.length < B' + d.frames) : Lapped (d.put w) (xs ++ [w]) B' R := by
    refine ⟨h.reader, ?_, hB', hle, ?_, ?_, ?_⟩
    · show d.next d.wr = _
      rw [h.writer, next_mod hpos, hlen]
      rfl
    · show R + (xs ++ [w]).length ≤ B' + d.frames
      omega
    · show (xs ++ [w]).length < d.frames
      omega
    · show Holds (Function.update d.ring d.wr w) d.frames R (xs ++ [w])
      rw [h.writer]
      exact h.holds.push h.lt
  by_cases hfar : R + xs.length < B + d.frames
  · exact ⟨B, hput B h.blankedTo hBR hfar⟩
  · obtain ⟨g, rfl⟩ : ∃ g, R = B + g := ⟨R - B, by omega⟩
    have hround : B + g + xs.length = B + d.frames := by omega
    have hgap : g = d.frames := by
      by_contra hne
      have hmeet : (B + d.frames) % d.frames = (B + 0) % d.frames := Nat.add_mod_right B d.frames
      unfold Dac.Clear at hclear
      rw [h.reader, h.writer, h.blankedTo, hround, hmeet, mod_add_sub_mod (by omega),
        mod_add_sub_mod hpos] at hclear
      omega
    refine ⟨B + g, hput (B + g) ?_ (Nat.le_refl _) (by omega)⟩
    rw [hgap, Nat.add_mod_right]
    exact h.blankedTo

/-- **A slot is blanked** behind where the reader was found, and no frame waits there. -/
theorem Lapped.blank (h : Lapped d xs B R) (hlt : B < R) : Lapped d.blank xs (B + 1) R := by
  have hlap := h.lap
  have hpos : 0 < d.frames := by have := h.lt; omega
  refine ⟨h.reader, h.writer, ?_, hlt, ?_, h.lt, ?_⟩
  · show d.next d.blankedTo = _
    rw [h.blankedTo]
    exact next_mod hpos B
  · show R + xs.length ≤ B + 1 + d.frames
    omega
  · show Holds (Function.update d.ring d.blankedTo silence) d.frames R xs
    rw [h.blankedTo]
    exact h.holds.update_behind hlt hlap

/-- The writer and the blanking start over where the reader is. -/
theorem Lapped.resync (hpos : 0 < d.frames) (hlt : d.dmaPosition < d.frames) (now : ℕ) :
    Lapped (d.resync now) [] d.dmaPosition d.dmaPosition := by
  have hmod : d.dmaPosition = d.dmaPosition % d.frames := (Nat.mod_eq_of_lt hlt).symm
  exact ⟨hmod, hmod, hmod, Nat.le_refl _, Nat.le_add_right _ _, hpos, .nil⟩

end

/-! ### The DMA -/

section

variable {s s' : System}

/-- A frame waits, or the frames have all been played. -/
theorem length_waiting (s : System) : s.waiting.length = s.pending := by
  unfold System.waiting System.pending
  exact List.length_drop

/-- The reader may go on wherever there is nothing to read and nobody has relied on it. -/
theorem of_not_dry (hdry : s.dry = false) (hnone : s.waiting = []) :
    s.accepted = [] ∧ s.phase.engaged = false := by
  have hpending : s.pending = 0 := by rw [← length_waiting, hnone]; rfl
  unfold System.dry at hdry
  simpa [hpending] using hdry

/-- The DMA fetches where no frame waits: it is silence, and before the first frame. -/
theorem Sound.fetch_nil (h : Sound s) (hsmall : s.dac.frames < 2 ^ 16)
    (hempty : s.accepted = []) (hloose : s.phase.engaged = false) : Sound s.fetch := by
  obtain ⟨hpos, hle⟩ := cntr_advance hsmall h.cntr_pos h.cntr_le
  have hwaiting : s.waiting = [] := by
    unfold System.waiting
    rw [hempty, List.drop_nil]
  have hqueued := h.unqueued hempty
  unfold System.fetch
  rw [if_pos hempty]
  refine ⟨h.frames_pos, hpos, hle, ?_, h.played, h.counted, h.silent, h.unqueued, ?_⟩
  · intro w hw
    rw [List.mem_append, List.mem_singleton] at hw
    rcases hw with hw | rfl
    · exact h.preroll w hw
    · exact h.silent hempty _
  · show s.phase.Laid s.dac.advance s.waiting
    rw [hwaiting]
    cases hphase : s.phase with
    | idle | syncing | counting => exact .inl ⟨rfl, hqueued⟩
    | wiping | resyncing => exact rfl
    | sampling | storing | blanking | blankingTo | queueing | stamping =>
      rw [hphase] at hloose
      cases hloose

/-- The phases keep what they know when the reader takes the first frame that waits. -/
theorem Phase.Laid.fetch {d : Dac} {x : UInt32} {xs : List UInt32} {p : Phase}
    (h : p.Laid d (x :: xs)) (hsmall : d.frames < 2 ^ 16) (hpos : 0 < d.cntr)
    (hle : d.cntr ≤ d.frames) : d.fetch = x ∧ p.Laid d.advance xs := by
  have hlapped {B R : ℕ} (hl : Lapped d (x :: xs) B R) := hl.fetch hsmall hpos hle
  cases p with
  | idle | syncing | counting =>
    obtain ⟨hnil, -⟩ | ⟨B, R, hl⟩ := h
    · cases hnil
    · exact ⟨(hlapped hl).1, .inr ⟨B, R + 1, (hlapped hl).2⟩⟩
  | wiping | resyncing => cases h
  | sampling =>
    obtain ⟨hdone, B, R, hl⟩ := h
    exact ⟨(hlapped hl).1, hdone, B, R + 1, (hlapped hl).2⟩
  | storing data done n i =>
    obtain ⟨hi, hdone, hspace, B, R, hl⟩ := h
    refine ⟨(hlapped hl).1, hi, hdone, ?_, B, R + 1, (hlapped hl).2⟩
    rw [List.length_cons] at hspace
    show xs.length + (n - i) < d.frames
    omega
  | blankingTo =>
    obtain ⟨B, T, R, hBT, hTR, hrd, hl⟩ := h
    exact ⟨(hlapped hl).1, B, T, R + 1, hBT, Nat.le_succ_of_le hTR, hrd, (hlapped hl).2⟩
  | blanking | queueing | stamping =>
    obtain ⟨B, R, hl⟩ := h
    exact ⟨(hlapped hl).1, B, R + 1, (hlapped hl).2⟩

/-- **The DMA fetches** the first frame that waits. -/
theorem Sound.fetch_cons (h : Sound s) (hsmall : s.dac.frames < 2 ^ 16) {x : UInt32}
    {xs : List UInt32} (hwaiting : s.waiting = x :: xs) : Sound s.fetch := by
  obtain ⟨hpos, hle⟩ := cntr_advance hsmall h.cntr_pos h.cntr_le
  have hlaid := h.laid
  rw [hwaiting] at hlaid
  obtain ⟨hfetch, hlaid'⟩ := hlaid.fetch hsmall h.cntr_pos h.cntr_le
  have hne : s.accepted ≠ [] := by
    intro hempty
    unfold System.waiting at hwaiting
    rw [hempty, List.drop_nil] at hwaiting
    cases hwaiting
  have hsplit : s.accepted = s.played ++ (x :: xs) := by
    obtain ⟨rest, hrest⟩ := h.played
    unfold System.waiting at hwaiting
    rw [← hrest, List.drop_left] at hwaiting
    rw [← hrest, hwaiting]
  have hplayed : (s.played ++ [x]) ++ xs = s.accepted := by
    rw [hsplit, List.append_assoc, List.singleton_append]
  unfold System.fetch
  rw [if_neg hne, hfetch]
  refine ⟨h.frames_pos, hpos, hle, h.preroll, ⟨xs, hplayed⟩, h.counted, h.silent, h.unqueued, ?_⟩
  show s.phase.Laid s.dac.advance (s.accepted.drop (s.played ++ [x]).length)
  rw [← hplayed, List.drop_left]
  exact hlaid'

theorem Sound.fetch (h : Sound s) (hsmall : s.dac.frames < 2 ^ 16) (hdry : s.dry = false) :
    Sound s.fetch := by
  cases hwaiting : s.waiting with
  | nil =>
    obtain ⟨hempty, hloose⟩ := of_not_dry hdry hwaiting
    exact h.fetch_nil hsmall hempty hloose
  | cons x xs => exact h.fetch_cons hsmall hwaiting

/-! ### The program -/

/-- A step that stores no frame. -/
theorem Sound.move (h : Sound s) {d : Dac} {p : Phase} (hframes : d.frames = s.dac.frames)
    (hcntr : d.cntr = s.dac.cntr) (hstored : p.stored = s.phase.stored)
    (hsilent : s.accepted = [] → ∀ i, d.ring i = silence)
    (hqueued : s.accepted = [] → d.queuedAtWrite = 0) (hlaid : p.Laid d s.waiting) :
    Sound { s with dac := d, phase := p } where
  frames_pos := hframes ▸ h.frames_pos
  cntr_pos := hcntr ▸ h.cntr_pos
  cntr_le := by rw [hcntr, hframes]; exact h.cntr_le
  preroll := h.preroll
  played := h.played
  counted := by rw [hstored]; exact h.counted
  silent := hsilent
  unqueued := hqueued
  laid := hlaid

/-- A step that only goes on to another phase. -/
theorem Sound.goto (h : Sound s) {p : Phase} (hstored : p.stored = s.phase.stored)
    (hlaid : p.Laid s.dac s.waiting) : Sound { s with phase := p } :=
  h.move rfl rfl hstored h.silent h.unqueued hlaid

theorem silent_store {d : Dac} (h : ∀ i, d.ring i = silence) (j i : ℕ) :
    (d.store j silence).ring i = silence := by
  show Function.update d.ring j silence i = silence
  by_cases heq : i = j
  · rw [heq, Function.update_self]
  · rw [Function.update_of_ne heq, h]

/-- What follows `syncWriter` finds the pointers in place. -/
theorem synced_laid {d : Dac} {xs : List UInt32} {B R : ℕ} (h : Lapped d xs B R)
    (data : Option (List Frame)) : (Phase.synced data).Laid d xs := by
  cases data with
  | none => exact .inr ⟨B, R, h⟩
  | some data => exact ⟨Nat.zero_le _, B, R, h⟩

theorem stored_synced (data : Option (List Frame)) : (Phase.synced data).stored = 0 := by
  cases data <;> rfl

/-- **`syncWriter`** trusts the clock, which is right about an empty ring. -/
theorem Sound.syncing (h : Sound s) {data : Option (List Frame)} {now : ℕ}
    (hphase : s.phase = .syncing data) (htime : s.dac.drained now → s.pending = 0)
    (hstep : s.advance now = some s') : Sound s' := by
  have hstored : s.phase.stored = 0 := by rw [hphase]; rfl
  have hloose : Loose s.dac s.waiting := by
    have := h.laid
    rwa [hphase] at this
  have hnil (hdrained : s.dac.drained now) : s.waiting = [] := by
    rw [← List.length_eq_zero_iff, length_waiting]
    exact htime hdrained
  unfold System.advance at hstep
  rw [hphase] at hstep
  dsimp only at hstep
  split_ifs at hstep with hdrained hprimed hover
  · rw [← Option.some.inj hstep]
    exact h.move rfl rfl hstored.symm h.silent h.unqueued (hnil hdrained)
  · rw [← Option.some.inj hstep]
    exact h.move rfl rfl hstored.symm h.silent h.unqueued (hnil hdrained)
  · rw [← Option.some.inj hstep]
    exact h.goto hstored.symm (hnil hdrained)
  · have hqueued : s.dac.queuedAtWrite ≠ 0 := by
      intro hzero
      exact hdrained (by unfold Dac.drained; omega)
    obtain ⟨-, hzero⟩ | ⟨B, R, hl⟩ := hloose
    · exact absurd hzero hqueued
    · rw [← Option.some.inj hstep]
      exact h.goto ((stored_synced data).trans hstored.symm) (synced_laid hl data)

/-- The ring is silenced when nothing waits in it. -/
theorem Sound.wiping (h : Sound s) {data : Option (List Frame)} {now now' i : ℕ}
    (hphase : s.phase = .wiping data now' i) (hstep : s.advance now = some s') : Sound s' := by
  have hstored : s.phase.stored = 0 := by rw [hphase]; rfl
  have hnil : s.waiting = [] := by
    have := h.laid
    rwa [hphase] at this
  unfold System.advance at hstep
  rw [hphase] at hstep
  dsimp only at hstep
  split_ifs at hstep
  · rw [← Option.some.inj hstep]
    exact h.move rfl rfl hstored.symm (fun hempty => silent_store (h.silent hempty) i)
      h.unqueued hnil
  · rw [← Option.some.inj hstep]
    exact h.move rfl rfl hstored.symm h.silent h.unqueued hnil

/-- The writer is put back when nothing waits. -/
theorem Sound.resyncing (h : Sound s) {data : Option (List Frame)} {now now' : ℕ}
    (hphase : s.phase = .resyncing data now') (hstep : s.advance now = some s') : Sound s' := by
  have hstored : s.phase.stored = 0 := by rw [hphase]; rfl
  have hnil : s.waiting = [] := by
    have := h.laid
    rwa [hphase] at this
  have hlt : s.dac.dmaPosition < s.dac.frames := by
    rw [dmaPosition_eq h.cntr_pos h.cntr_le]
    have := h.cntr_pos
    have := h.frames_pos
    omega
  unfold System.advance at hstep
  rw [hphase] at hstep
  rw [← Option.some.inj hstep]
  refine h.move rfl rfl ((stored_synced data).trans hstored.symm) h.silent (fun _ => rfl) ?_
  rw [hnil]
  exact synced_laid (Lapped.resync h.frames_pos hlt now') data

/-- `writeFrames` looks for space. -/
theorem Sound.sampling (h : Sound s) {data : List Frame} {now done : ℕ}
    (hphase : s.phase = .sampling data done) (hstep : s.advance now = some s') : Sound s' := by
  have hstored : s.phase.stored = done := by rw [hphase]; rfl
  obtain ⟨hdone, B, R, hl⟩ : done ≤ data.length ∧ ∃ B R, Lapped s.dac s.waiting B R := by
    have := h.laid
    rwa [hphase] at this
  unfold System.advance at hstep
  rw [hphase] at hstep
  dsimp only at hstep
  split_ifs at hstep with hmore hfull
  · rw [← Option.some.inj hstep]
    exact h.goto hstored.symm ⟨B, R, hl⟩
  · rw [← Option.some.inj hstep]
    refine h.goto hstored.symm ⟨Nat.zero_le _, by omega, ?_, B, R, hl⟩
    have := hl.freeFrames
    have := hl.lt
    omega
  · rw [← Option.some.inj hstep]
    exact h.goto hstored.symm ⟨B, R, hl⟩

/-- A frame is accepted. -/
theorem Sound.accept (h : Sound s) {data : List Frame} {done n i : ℕ} {w : UInt32}
    (hphase : s.phase = .storing data done n i) (hmore : i < n) (hclear : s.dac.Clear) :
    Sound { s with
      dac := s.dac.put w, phase := .storing data done n (i + 1), accepted := s.accepted ++ [w] } := by
  obtain ⟨-, hdone, hspace, B, R, hl⟩ : i ≤ n ∧ done + n ≤ data.length ∧
      s.waiting.length + (n - i) < s.dac.frames ∧ ∃ B R, Lapped s.dac s.waiting B R := by
    have := h.laid
    rwa [hphase] at this
  have hcounted := h.counted
  rw [hphase] at hcounted
  have hlen : (s.accepted ++ [w]).length = s.accepted.length + 1 := by simp
  have hne : s.accepted ++ [w] ≠ [] := List.append_ne_nil_of_right_ne_nil _ (List.cons_ne_nil w [])
  have hwaiting : (s.accepted ++ [w]).drop s.played.length = s.waiting ++ [w] :=
    List.drop_append_of_le_length h.played.length_le
  refine ⟨h.frames_pos, h.cntr_pos, h.cntr_le, h.preroll,
    h.played.trans (List.prefix_append _ _), ?_, fun hnil => absurd hnil hne,
    fun hnil => absurd hnil hne, ?_⟩
  · show (s.accepted ++ [w]).length = s.returned + (done + (i + 1))
    rw [hlen, hcounted]
    rfl
  · show Phase.Laid _ ((s.accepted ++ [w]).drop s.played.length) _
    rw [hwaiting]
    obtain ⟨B', hl'⟩ := hl.put hclear (by omega) w
    refine ⟨hmore, hdone, ?_, B', R, hl'⟩
    show (s.waiting ++ [w]).length + (n - (i + 1)) < s.dac.frames
    rw [List.length_append, List.length_singleton]
    omega

/-- **A frame is stored** into a slot that has been blanked, or the next ones are looked at. -/
theorem Sound.storing (h : Sound s) {data : List Frame} {now done n i : ℕ}
    (hphase : s.phase = .storing data done n i) (hclear : i < n → s.dac.Clear)
    (hstep : s.advance now = some s') : Sound s' := by
  have hstored : s.phase.stored = done + i := by rw [hphase]; rfl
  obtain ⟨hi, hdone, hspace, B, R, hl⟩ : i ≤ n ∧ done + n ≤ data.length ∧
      s.waiting.length + (n - i) < s.dac.frames ∧ ∃ B R, Lapped s.dac s.waiting B R := by
    have := h.laid
    rwa [hphase] at this
  unfold System.advance at hstep
  rw [hphase] at hstep
  dsimp only at hstep
  split_ifs at hstep with hmore
  · rcases hf : data[done + i]? with _ | f
    · rw [hf] at hstep
      cases hstep
    · rw [hf] at hstep
      rw [← Option.some.inj hstep]
      exact h.accept hphase hmore (hclear hmore)
  · rw [← Option.some.inj hstep]
    refine h.goto ?_ ⟨hdone, B, R, hl⟩
    show done + n = s.phase.stored
    omega

/-- `blankFree` looks where the reader is. -/
theorem Sound.blanking (h : Sound s) {now done : ℕ} (hphase : s.phase = .blanking done)
    (hstep : s.advance now = some s') : Sound s' := by
  obtain ⟨B, R, hl⟩ : ∃ B R, Lapped s.dac s.waiting B R := by
    have := h.laid
    rwa [hphase] at this
  unfold System.advance at hstep
  rw [hphase] at hstep
  rw [← Option.some.inj hstep]
  exact h.goto (by rw [hphase]; rfl) ⟨B, R, R, hl.le, Nat.le_refl R, hl.reader, hl⟩

/-- **A slot is blanked** that the reader has left behind. -/
theorem Sound.blankingTo (h : Sound s) {now done rd : ℕ} (hphase : s.phase = .blankingTo done rd)
    (hstep : s.advance now = some s') : Sound s' := by
  obtain ⟨B, T, R, hBT, hTR, hrd, hl⟩ : ∃ B T R, B ≤ T ∧ T ≤ R ∧ rd = T % s.dac.frames ∧
      Lapped s.dac s.waiting B R := by
    have := h.laid
    rwa [hphase] at this
  have hstored : done = s.phase.stored := by rw [hphase]; rfl
  unfold System.advance at hstep
  rw [hphase] at hstep
  dsimp only at hstep
  split_ifs at hstep with hleft
  · rw [← Option.some.inj hstep]
    have hlt : B < T := by
      apply Nat.lt_of_le_of_ne hBT
      rintro rfl
      exact hleft (hl.blankedTo.trans hrd.symm)
    exact h.move rfl rfl hstored (fun hempty => silent_store (h.silent hempty) _) h.unqueued
      ⟨B + 1, T, R, hlt, hTR, hrd, hl.blank (Nat.lt_of_lt_of_le hlt hTR)⟩
  · rw [← Option.some.inj hstep]
    exact h.goto hstored ⟨B, R, hl⟩

/-- What is queued is counted; it is nothing before the first frame. -/
theorem Sound.queueing (h : Sound s) {now done : ℕ} (hphase : s.phase = .queueing done)
    (hstep : s.advance now = some s') : Sound s' := by
  obtain ⟨B, R, hl⟩ : ∃ B R, Lapped s.dac s.waiting B R := by
    have := h.laid
    rwa [hphase] at this
  unfold System.advance at hstep
  rw [hphase] at hstep
  rw [← Option.some.inj hstep]
  refine h.move rfl rfl (by rw [hphase]; rfl) h.silent (fun hempty => ?_)
    ⟨B, R, hl.congr rfl rfl rfl rfl rfl⟩
  have hnil : s.waiting.length = 0 := by
    unfold System.waiting
    rw [hempty, List.drop_nil]
    rfl
  show s.dac.frames - s.dac.freeFrames - 1 = 0
  rw [hl.freeFrames]
  omega

/-- The call returns. -/
theorem Sound.stamping (h : Sound s) {now done : ℕ} (hphase : s.phase = .stamping done)
    (hstep : s.advance now = some s') : Sound s' := by
  obtain ⟨B, R, hl⟩ : ∃ B R, Lapped s.dac s.waiting B R := by
    have := h.laid
    rwa [hphase] at this
  have hcounted := h.counted
  rw [hphase] at hcounted
  unfold System.advance at hstep
  rw [hphase] at hstep
  rw [← Option.some.inj hstep]
  exact ⟨h.frames_pos, h.cntr_pos, h.cntr_le, h.preroll, h.played, hcounted, h.silent, h.unqueued,
    .inr ⟨B, R, hl.congr rfl rfl rfl rfl rfl⟩⟩

/-- **Every step of a call** that is in time and finds its slot blanked. -/
theorem Sound.advance (h : Sound s) {now : ℕ} (htime : s.phase.Timely s.dac s.pending now)
    (hblanked : s.phase.Blanked s.dac) (hstep : s.advance now = some s') : Sound s' := by
  cases hphase : s.phase with
  | idle =>
    unfold System.advance at hstep
    rw [hphase] at hstep
    cases hstep
  | syncing data =>
    rw [hphase] at htime
    exact h.syncing hphase htime hstep
  | wiping data now' i => exact h.wiping hphase hstep
  | resyncing data now' => exact h.resyncing hphase hstep
  | counting =>
    have hloose := h.laid
    rw [hphase] at hloose
    unfold System.advance at hstep
    rw [hphase] at hstep
    rw [← Option.some.inj hstep]
    exact h.goto (by rw [hphase]; rfl) hloose
  | sampling data done => exact h.sampling hphase hstep
  | storing data done n i =>
    rw [hphase] at hblanked
    exact h.storing hphase hblanked hstep
  | blanking done => exact h.blanking hphase hstep
  | blankingTo done rd => exact h.blankingTo hphase hstep
  | queueing done => exact h.queueing hphase hstep
  | stamping done => exact h.stamping hphase hstep

/-- A call begins. -/
theorem Sound.call (h : Sound s) (hphase : s.phase = .idle) (data : Option (List Frame)) :
    Sound { s with phase := .syncing data } := by
  have hloose := h.laid
  rw [hphase] at hloose
  exact h.goto (by rw [hphase]; rfl) hloose

/-- Mono or stereo makes no difference to the pointers. -/
theorem Phase.Laid.setStereo {d : Dac} {xs : List UInt32} {p : Phase} (h : p.Laid d xs)
    (stereo : Bool) : p.Laid { d with stereo } xs := by
  have hlapped {B R : ℕ} (hl : Lapped d xs B R) : Lapped { d with stereo } xs B R :=
    hl.congr rfl rfl rfl rfl rfl
  cases p with
  | idle | syncing | counting => exact h.imp_right fun ⟨B, R, hl⟩ => ⟨B, R, hlapped hl⟩
  | wiping | resyncing => exact h
  | sampling =>
    obtain ⟨hdone, B, R, hl⟩ := h
    exact ⟨hdone, B, R, hlapped hl⟩
  | storing =>
    obtain ⟨hi, hdone, hspace, B, R, hl⟩ := h
    exact ⟨hi, hdone, hspace, B, R, hlapped hl⟩
  | blankingTo =>
    obtain ⟨B, T, R, hBT, hTR, hrd, hl⟩ := h
    exact ⟨B, T, R, hBT, hTR, hrd, hlapped hl⟩
  | blanking | queueing | stamping =>
    obtain ⟨B, R, hl⟩ := h
    exact ⟨B, R, hlapped hl⟩

theorem Sound.setStereo (h : Sound s) (stereo : Bool) :
    Sound { s with dac := { s.dac with stereo } } :=
  h.move rfl rfl rfl h.silent h.unqueued (h.laid.setStereo stereo)

/-- **Every step** that meets the conditions keeps the invariant. -/
theorem Sound.step (h : Sound s) {a : Action} (hcareful : Careful s a)
    (hstep : step s a = some s') : Sound s' := by
  obtain ⟨hsmall, htime, hblanked⟩ := hcareful
  cases a with
  | fetch =>
    unfold Audio.step at hstep
    rw [if_neg (Nat.pos_iff_ne_zero.mp h.cntr_pos)] at hstep
    rw [← Option.some.inj hstep]
    exact h.fetch hsmall htime
  | setStereo stereo =>
    rw [← Option.some.inj hstep]
    exact h.setStereo stereo
  | writeFrames data =>
    unfold Audio.step at hstep
    cases hphase : s.phase with
    | idle =>
      rw [hphase] at hstep
      rw [← Option.some.inj hstep]
      exact h.call hphase (some data)
    | _ =>
      rw [hphase] at hstep
      cases hstep
  | availableFrames =>
    unfold Audio.step at hstep
    cases hphase : s.phase with
    | idle =>
      rw [hphase] at hstep
      rw [← Option.some.inj hstep]
      exact h.call hphase none
    | _ =>
      rw [hphase] at hstep
      cases hstep
  | advance now => exact h.advance htime hblanked hstep

/-- The driver as `begin` leaves it. -/
theorem sound_begun {frames rate cntr lastWriteUs : ℕ} {stereo : Bool}
    (hframes : minFrames ≤ frames)
    (hpos : 0 < cntr) (hle : cntr ≤ frames % 2 ^ 16) :
    Sound ⟨begun frames rate cntr lastWriteUs stereo, .idle, [], 0, [], []⟩ := by
  have hmod := Nat.mod_le frames (2 ^ 16)
  unfold minFrames at hframes
  refine ⟨?_, hpos, ?_, nofun, List.prefix_refl [], rfl, fun _ _ => rfl, fun _ => rfl,
    .inl ⟨rfl, rfl⟩⟩
  · show 0 < frames
    omega
  · show cntr ≤ frames
    omega

end

/-! ### What is played -/

theorem sound_of_reachable {s : System} (h : machine.Reachable Careful s) : Sound s := by
  refine invariant (I := Sound) ?_ ?_ h
  · rintro s ⟨frames, rate, cntr, lastWriteUs, stereo, hframes, hpos, hle, rfl⟩
    exact sound_begun hframes hpos hle
  · intro s a s' hs hcareful hstep
    exact hs.step hcareful hstep

/-- A list that waits somewhere waits at the reader. -/
theorem Lapped.waiting {d : Dac} {xs : List UInt32} {B R : ℕ} (h : Lapped d xs B R) :
    Holds d.ring d.frames d.dmaPosition xs := by
  rw [h.reader]
  exact holds_mod.mpr h.holds

/-- In every phase the frames that wait are in the ring. -/
theorem Phase.Laid.waiting {d : Dac} {xs : List UInt32} {p : Phase} (h : p.Laid d xs) :
    Holds d.ring d.frames d.dmaPosition xs := by
  cases p with
  | idle | syncing | counting =>
    obtain ⟨rfl, -⟩ | ⟨B, R, hl⟩ := h
    · exact .nil
    · exact hl.waiting
  | wiping | resyncing =>
    rw [show xs = [] from h]
    exact .nil
  | sampling =>
    obtain ⟨-, B, R, hl⟩ := h
    exact hl.waiting
  | storing =>
    obtain ⟨-, -, -, B, R, hl⟩ := h
    exact hl.waiting
  | blankingTo =>
    obtain ⟨B, T, R, -, -, -, hl⟩ := h
    exact hl.waiting
  | blanking | queueing | stamping =>
    obtain ⟨B, R, hl⟩ := h
    exact hl.waiting

/-- **Every frame that is accepted is played**, once and in order, as long as the ring never runs
dry and no frame is stored into a slot that has been played and not yet blanked. -/
theorem playing_of_reachable {s : System} (h : machine.Reachable Careful s) : Playing s := by
  have hs := sound_of_reachable h
  exact ⟨hs.preroll, hs.played, hs.laid.waiting, hs.counted⟩

/-! Runs on the smallest ring. -/

instance (d : Dac) (pending now : ℕ) : ∀ p : Phase, Decidable (p.Timely d pending now)
  | .syncing _ => inferInstanceAs (Decidable (d.drained now → pending = 0))
  | .idle | .wiping .. | .resyncing .. | .counting | .sampling .. | .storing .. | .blanking _
  | .blankingTo .. | .queueing _ | .stamping _ => inferInstanceAs (Decidable True)

instance (s : System) : ∀ a, Decidable (InTime s a)
  | .fetch => inferInstanceAs (Decidable (s.dry = false))
  | .advance now => inferInstanceAs (Decidable (s.phase.Timely s.dac s.pending now))
  | .setStereo _ | .writeFrames _ | .availableFrames => inferInstanceAs (Decidable True)

instance (d : Dac) : Decidable d.Clear := Nat.decLe _ _

instance (d : Dac) : ∀ p : Phase, Decidable (p.Blanked d)
  | .storing _ _ n i => inferInstanceAs (Decidable (i < n → d.Clear))
  | .idle | .syncing _ | .wiping .. | .resyncing .. | .counting | .sampling .. | .blanking _
  | .blankingTo .. | .queueing _ | .stamping _ => inferInstanceAs (Decidable True)

instance (s : System) : ∀ a, Decidable (Blanked s a)
  | .advance _ => inferInstanceAs (Decidable (s.phase.Blanked s.dac))
  | .fetch | .setStereo _ | .writeFrames _ | .availableFrames => inferInstanceAs (Decidable True)

instance (s : System) (a : Action) : Decidable (Careful s a) :=
  inferInstanceAs (Decidable (s.dac.frames < 2 ^ 16 ∧ InTime s a ∧ Blanked s a))

def loud : Frame := ⟨100, 100⟩

/-- A driver that has just begun, on the smallest ring. -/
def smallest : System := ⟨begun minFrames 44100 256 0 true, .idle, [], 0, [], []⟩

theorem init_smallest : machine.init smallest :=
  ⟨minFrames, 44100, 256, 0, true, by decide, by decide, by decide, rfl⟩

/-- Three frames are written, and one of them is played. -/
theorem playing_of_reachable_three : ∃ s, machine.run Careful smallest
      (.writeFrames (List.replicate 3 loud) :: List.replicate 12 (.advance 0) ++ [.fetch]) =
        some s ∧ s.returned = 3 ∧ s.played.length = 1 ∧ Playing s := by
  have hrun : ((machine.run Careful smallest
      (.writeFrames (List.replicate 3 loud) :: List.replicate 12 (.advance 0) ++ [.fetch])).map
        fun s => (s.returned, s.played.length)) = some (3, 1) := by decide +kernel
  obtain ⟨s, hs, hmarks⟩ := Option.map_eq_some_iff.mp hrun
  simp only [Prod.mk.injEq] at hmarks
  exact ⟨s, hs, hmarks.1, hmarks.2,
    playing_of_reachable (reachable_of_run (.init init_smallest) hs)⟩

/-- The ring is filled, the DMA takes two frames, and two more are written: one into the slot that
was free all along, and one into a slot that the DMA has freed. -/
def refill : List Action :=
  .writeFrames (List.replicate 255 loud) :: List.replicate 264 (.advance 0) ++
    [.fetch, .fetch, .writeFrames (List.replicate 2 loud)] ++ List.replicate 12 (.advance 0)

/-- `blankFree` silences a frame that waits: a ring that never runs dry is not enough. -/
theorem not_playing_of_inTime : ¬ ∀ s, s.dac.frames < 2 ^ 16 → machine.Reachable InTime s →
    Playing s := by
  intro hall
  have hrun : ((machine.run InTime smallest refill).map fun s =>
      (s.dac.frames, s.dac.ring ((s.dac.dmaPosition + 254) % s.dac.frames),
        (s.accepted.drop s.played.length)[254]?)) =
      some (256, silence, some (frameWord true loud)) := by decide +kernel
  obtain ⟨s, hs, hmarks⟩ := Option.map_eq_some_iff.mp hrun
  simp only [Prod.mk.injEq] at hmarks
  obtain ⟨hframes, hsilent, hwaits⟩ := hmarks
  have hplaying := hall s (by omega) (reachable_of_run (.init init_smallest) hs)
  have hword := hplaying.waiting 254 _ hwaits
  rw [hsilent] at hword
  exact absurd hword (by decide +kernel)

end Ch32h4.Audio
