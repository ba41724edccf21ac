import Ch32h4.Mp3.Equiv.Consuming
import Mathlib.Data.Prod.Lex
import Mathlib.Order.WellFounded

/-!
# When `loop` comes to its end

`loop` goes on as long as there is something in the ring, so what the decoder leaves there at the
end of a stream keeps it running: half a sync word, or a frame that is cut off.  A stream of nothing
does so too, as the ring is never primed.

`Stalls` are these states.  From any other one a call makes progress (`work_loop`), and the five
parts of what is left to do are numbers, so that calls in a row come to an end
(`ends_unless_stalled`).
-/

namespace Ch32h4.Mp3

open Machine

variable {ρ : Type*} {helix : Helix ρ} {info i : DecInfo ρ} {buf mem : ℕ → UInt8} {left : ℤ}
  {outbuf pcm : Samples} {bytes inLen pcmCap off : ℕ} {d : Decoder ρ} {input : Bool}

/-- What reads a header has no part in the bit reservoir, and a frame does not go further back in it
than nine bits can say. -/
structure Helix.Reserved (helix : Helix ρ) : Prop where
  header : ∀ {info buf i n}, helix.unpackFrameHeader info buf = (i, some n) →
    i.mainBuf = info.mainBuf
  side : ∀ {info buf i n}, helix.unpackSideInfo info buf = (i, some n) →
    i.mainBuf = info.mainBuf ∧ i.mainDataBegin ≤ 511

/-! ### What is left in the ring -/

/-- The decoder does not get on with what is at the front of the ring: there is too little for a
sync word, or a frame that is cut off, or one of no size, or one without main data that would need
some of an earlier one. -/
def Decoder.Waits (helix : Helix ρ) (d : Decoder ρ) (mem : ℕ → UInt8) (inLen : ℕ) : Prop :=
  (inLen ≤ 2 ∧ findSyncWord mem inLen = none) ∨
  ∃ info, d.dec = some info ∧ findSyncWord mem inLen = some 0 ∧
    (helix.Cut info mem inLen ∨ ∃ i bytes, helix.header info mem inLen = some (i, bytes) ∧
      (bytes + i.nSlots ≤ 0 ∨ i.nSlots ≤ 0 ∧ i.mainBuf.length < i.mainDataBegin))

/-- **The condition to avoid**: nothing more can come into the ring, and it is not primed and empty,
or the decoder does not get on with it. -/
structure Player.Stalls (helix : Helix ρ) (s : Player ρ) : Prop where
  running : s.running = true
  full : s.src = [] ∨ s.fill = ringBytes
  waits : s.fill = 0 ∧ s.primed = false ∨ s.fill ≠ 0 ∧ s.decoder.Waits helix s.ring s.fill

/-- The source is exhausted and nothing outstanding, and `loop` goes on without a change of the ring
or of the decoder. -/
def Player.Stuck (helix : Helix ρ) (s : Player ρ) : Prop :=
  s.src = [] ∧ s.pendFrames = 0 ∧ ∃ a, (s.loop helix a).2 = true ∧
    (s.loop helix a).1.ring = s.ring ∧ (s.loop helix a).1.fill = s.fill ∧
    (s.loop helix a).1.decoder = s.decoder

/-- The bytes in the bit reservoir. -/
def Decoder.reservoir (d : Decoder ρ) : ℕ := (d.dec.map fun info => info.mainBuf.length).getD 0

theorem header_mainBuf (hres : helix.Reserved) (h : helix.header info buf left = some (i, bytes)) :
    i.mainBuf = info.mainBuf ∧ i.mainDataBegin ≤ 511 := by
  obtain ⟨fh, fhBytes, si, siBytes, rfl, hfh, hsi, hfree⟩ := header_eq_some h
  have hkept := hres.header hfh
  obtain ⟨hkept', hback⟩ := hres.side hsi
  have hi : i = (helix.freeMode si buf (fhBytes + siBytes) (left - (fhBytes + siBytes : ℕ))).1 := by
    rw [hfree]
  rw [hi]
  unfold Helix.freeMode
  dsimp only
  split_ifs
  all_goals exact ⟨hkept'.trans hkept, hback⟩

/-! ### One call of `decodeFrame` -/

theorem answered_dec (r : Decoded ρ) (before : ℤ) :
    (d.answered helix off before r).decoder.dec = some r.info := by
  unfold Decoder.answered
  dsimp only
  split_ifs <;> rfl

/-- A call that consumes nothing of a frame is one that waits for more, or has filled the
reservoir. -/
theorem reservoir_lt_of_reads (hres : helix.Reserved) (h : d.Reads true mem inLen pcmCap info off)
    (hwaits : ¬d.Waits helix mem inLen)
    (hzero : (d.decodeFrame helix true mem inLen pcm pcmCap).consumed = 0) :
    (d.decodeFrame helix true mem inLen pcm pcmCap).answer ≤ 0 ∧ d.reservoir < 511 ∧
      d.reservoir < (d.decodeFrame helix true mem inLen pcm pcmCap).decoder.reservoir := by
  obtain ⟨-, -, hconsumed⟩ := decodeFrame_of_reads helix pcm h
  have hlt := findSyncWord_lt h.sync
  dsimp only at hconsumed
  cases hheader : helix.header info (fun i => mem (off + i)) (inLen - off : ℕ) with
  | none =>
    obtain ⟨-, hnone, hin, hmain⟩ := decode_of_none pcm hheader
    rw [if_neg (by simp [hin, hmain]), if_pos hnone] at hconsumed
    omega
  | some r =>
    obtain ⟨i, bytes⟩ := r
    obtain rfl : off = 0 := by
      split_ifs at hconsumed <;> omega
    simp only [Nat.zero_add, Nat.sub_zero] at hheader hconsumed
    have hdecode := decode_of_header pcm hheader
    have hstuck := fun hrest => hwaits (.inr ⟨info, h.dec, h.sync, hrest⟩)
    have hall : ¬(i.nSlots > (inLen : ℤ) - bytes) := by
      intro hcut
      exact hstuck (.inl ⟨i, bytes, hheader, hcut⟩)
    have hsize : 0 < bytes + i.nSlots := by
      by_contra hsize
      exact hstuck (.inr ⟨i, bytes, hheader, .inl (by omega)⟩)
    rw [if_neg hall] at hdecode
    rw [hdecode, mainData_bytesLeft] at hconsumed
    -- only a main-data underflow consumes nothing
    have herr :
        (helix.mainData i mem bytes ((inLen : ℤ) - bytes) pcm).err = .maindataUnderflow := by
      by_contra herr
      rw [if_neg (by simp [herr, mainData_err_ne])] at hconsumed
      split_ifs at hconsumed <;> omega
    have hfar : ¬i.mainDataBegin ≤ i.mainBuf.length := by
      intro hnear
      unfold Helix.mainData at herr
      dsimp only at herr
      rw [if_pos hnear] at herr
      split at herr <;> cases herr
    have hslots : 0 < i.nSlots := by
      by_contra hslots
      exact hstuck (.inr ⟨i, bytes, hheader, .inr ⟨by omega, by omega⟩⟩)
    obtain ⟨hkept, hback⟩ := header_mainBuf hres hheader
    have hinfo : (helix.mainData i mem bytes ((inLen : ℤ) - bytes) pcm).info =
        { i with mainBuf := i.mainBuf ++ Helix.bytesAt mem bytes i.nSlots.toNat } := by
      unfold Helix.mainData
      dsimp only
      rw [if_neg hfar]
    have hcall := decodeFrame_eq helix pcm h
    simp only [Nat.zero_add, Nat.sub_zero] at hcall
    rw [hdecode] at hcall
    have hbefore : d.reservoir = i.mainBuf.length := by
      rw [Decoder.reservoir, h.dec, hkept]
      rfl
    have hafter : (d.decodeFrame helix true mem inLen pcm pcmCap).decoder.reservoir =
        i.mainBuf.length + i.nSlots.toNat := by
      rw [hcall, Decoder.reservoir, answered_dec, hinfo]
      simp [Helix.bytesAt]
    refine ⟨?_, by omega, by omega⟩
    rw [hcall, Decoder.answered]
    dsimp only
    rw [if_pos (.inr herr)]

theorem decodeFrame_progress (pcm : Samples) (hres : helix.Reserved) (hdec : d.dec = some info)
    (hne : inLen ≠ 0) (hwaits : ¬d.Waits helix mem inLen) :
    0 < (d.decodeFrame helix true mem inLen pcm maxSamples).consumed ∨
    (d.decodeFrame helix true mem inLen pcm maxSamples).answer ≤ 0 ∧ d.reservoir < 511 ∧
      d.reservoir < (d.decodeFrame helix true mem inLen pcm maxSamples).decoder.reservoir := by
  by_cases hzero : (d.decodeFrame helix true mem inLen pcm maxSamples).consumed = 0
  · cases hsync : findSyncWord mem inLen with
    | none =>
      exfalso
      unfold Decoder.decodeFrame at hzero
      rw [hdec] at hzero
      dsimp only at hzero
      rw [if_neg (by simp [hne]), hsync] at hzero
      dsimp only at hzero
      refine hwaits (.inl ⟨?_, hsync⟩)
      split_ifs at hzero <;> omega
    | some off =>
      exact .inr (reservoir_lt_of_reads hres ⟨hdec, rfl, Nat.le_refl _, hsync⟩ hwaits hzero)
  · exact .inl (Nat.pos_of_ne_zero hzero)

/-! ### One call of `loop` -/

/-- The source offers something and gives it, and the sink accepts something, when they are asked.
-/
structure Answers.Forthcoming (a : Answers) : Prop where
  reads : ∃ avail n rest, a.reads = (avail, n) :: rest ∧ avail ≠ 0 ∧ n ≠ 0
  accepts : ∃ n rest, a.accepts = n :: rest ∧ n ≠ 0

namespace Player

variable {s t : Player ρ}

/-- What holds between the calls. -/
structure Sound (s : Player ρ) : Prop where
  fill_le : s.fill ≤ ringBytes
  dec : s.running = true → ∃ info, s.decoder.dec = some info
  pending : s.pendFrames = 0 ∨ s.pendDone < s.pendFrames

theorem fillRing_full (h : s.src = [] ∨ s.fill = ringBytes) (reads : List (ℕ × ℕ)) :
    s.fillRing reads = s := by
  cases reads with
  | nil => rfl
  | cons read reads =>
    obtain ⟨avail, n⟩ := read
    unfold fillRing
    dsimp only
    by_cases hroom : ringBytes - s.fill = 0
    · rw [if_pos hroom]
    · have hnone : s.src = [] := h.resolve_right (by omega)
      rw [if_neg hroom, hnone, List.length_nil, Nat.min_zero, if_pos rfl]

/-- A source that offers something has less left after the ring is filled. -/
theorem fillRing_lt {a : Answers} (ha : a.Forthcoming) (hsrc : s.src ≠ [])
    (hle : s.fill < ringBytes) : (s.fillRing a.reads).src.length < s.src.length := by
  obtain ⟨avail, n, rest, heq, havail, hn⟩ := ha.reads
  have hpos : 0 < s.src.length := List.length_pos_of_ne_nil hsrc
  rw [heq]
  unfold fillRing
  dsimp only
  rw [if_neg (by omega), if_neg (by omega)]
  have hmore : ∀ k, k ≠ 0 → ((s.receive k).fillRing rest).src.length < s.src.length := by
    intro k hk
    obtain ⟨m, ring, -, -, hfill⟩ := fills_fillRing (s.receive k) rest
    rw [hfill]
    simp only [receive, List.length_drop]
    omega
  split_ifs with hlt hzero hzero
  · omega
  · exact hmore _ hzero
  · omega
  · exact hmore _ hzero

/-- A sink that accepts something leaves less outstanding. -/
theorem drainPending_lt (s : Player ρ) {a : Answers} (ha : a.Forthcoming)
    (h : s.pendDone < s.pendFrames) :
    (s.drainPending a.accepts).pendFrames - (s.drainPending a.accepts).pendDone <
      s.pendFrames - s.pendDone := by
  obtain ⟨n, rest, heq, hn⟩ := ha.accepts
  have hsome : s.drainLoop a.accepts =
      (s.writeFrames (min n (s.pendFrames - s.pendDone))).drainLoop rest := by
    rw [heq, drainLoop, if_pos h]
    dsimp only
    rw [if_neg (by omega)]
  obtain ⟨m, hm, hrest⟩ :=
    (s.writeFrames (min n (s.pendFrames - s.pendDone))).drainLoop_eq rest
  rw [writeFrames_writeFrames] at hrest
  have hk : min n (s.pendFrames - s.pendDone) ≠ 0 := by omega
  unfold drainPending
  rw [hsome, hrest]
  dsimp only
  split_ifs
  · exact Nat.sub_pos_of_lt h
  · change s.pendFrames - (s.pendDone + (min n (s.pendFrames - s.pendDone) + m)) <
      s.pendFrames - s.pendDone
    omega

theorem pending_drainPending (accepts : List ℕ) : (s.drainPending accepts).pendFrames = 0 ∨
    (s.drainPending accepts).pendDone < (s.drainPending accepts).pendFrames := by
  obtain ⟨n, -, heq⟩ := s.drainPending_eq accepts
  rw [heq]
  split_ifs with hdone
  · exact .inl rfl
  · exact .inr (not_le.mp hdone)

theorem pending_decodeOne {begins : Bool} {accepts : List ℕ}
    (h : s.pendFrames = 0 ∨ s.pendDone < s.pendFrames) :
    (s.decodeOne helix begins accepts).pendFrames = 0 ∨
      (s.decodeOne helix begins accepts).pendDone <
        (s.decodeOne helix begins accepts).pendFrames := by
  obtain ⟨-, heq⟩ | ⟨-, ⟨-, heq⟩ | ⟨sink, changes, -, -, -, heq⟩⟩ :=
    s.decodeOne_cases helix begins accepts
  · rw [heq]
    exact h
  · rw [heq]
    exact h
  · rw [heq]
    exact pending_drainPending accepts

theorem dec_call (helix : Helix ρ) (h : ∃ info, s.decoder.dec = some info) :
    ∃ info, (s.call helix).decoder.dec = some info := by
  obtain ⟨info, hdec⟩ := h
  cases hsync : findSyncWord s.ring s.fill with
  | none =>
    refine ⟨info, ?_⟩
    unfold call Decoder.decodeFrame
    rw [hdec, hsync]
    dsimp only
    split_ifs <;> exact hdec
  | some off =>
    have hreads : s.decoder.Reads true s.ring s.fill maxSamples info off :=
      ⟨hdec, rfl, Nat.le_refl _, hsync⟩
    rw [call, decodeFrame_eq helix s.pcm hreads]
    exact ⟨_, answered_dec _ _⟩

/-- With the sink left out, a call fills the ring, and consumes if it comes to `decodeOne`. -/
theorem intake_loop (helix : Helix ρ) (a : Answers) (hrun : s.running = true) :
    (s.loop helix a).1.intake = (s.fillRing a.reads).intake ∨
    s.Primes a ∧ (s.loop helix a).1.intake = (s.ready a).intake ∨
    s.Primes a ∧ (s.ready a).fill = 0 ∧ (s.loop helix a).1.intake =
      { s.ready a with running := (s.ready a).available a.moreToPlay }.intake ∨
    s.Primes a ∧ (s.loop helix a).1.intake = ((s.ready a).consume helix).intake := by
  by_cases hprimes : s.Primes a
  · rw [loop_of_primes helix s hrun hprimes]
    right
    by_cases hpend : (s.ready a).pendFrames = 0
    · rw [if_pos hpend, play]
      split_ifs with hfill
      · exact .inr (.inl ⟨hprimes, hfill, rfl⟩)
      · exact .inr (.inr ⟨hprimes, intake_decodeOne helix _ _ _⟩)
    · rw [if_neg hpend]
      exact .inl ⟨hprimes, rfl⟩
  · rw [loop_of_not_primes helix s hrun hprimes]
    exact .inl rfl

theorem src_fill_ready (s : Player ρ) (a : Answers) : (s.ready a).src = (s.fillRing a.reads).src ∧
    (s.ready a).fill = (s.fillRing a.reads).fill :=
  ⟨congrArg Intake.src (s.intake_ready a), congrArg Intake.fill (s.intake_ready a)⟩

/-- Nothing comes into the ring but from the source. -/
theorem src_fill_loop (helix : Helix ρ) (a : Answers) (hrun : s.running = true) :
    (s.loop helix a).1.src = (s.fillRing a.reads).src ∧
      (s.loop helix a).1.fill ≤ (s.fillRing a.reads).fill := by
  obtain ⟨hsrc, hfill⟩ := src_fill_ready s a
  obtain heq | ⟨-, heq⟩ | ⟨-, -, heq⟩ | ⟨-, heq⟩ := intake_loop helix a hrun
  · exact ⟨congrArg Intake.src heq, (congrArg Intake.fill heq).le⟩
  · exact ⟨(congrArg Intake.src heq).trans hsrc, ((congrArg Intake.fill heq).trans hfill).le⟩
  · exact ⟨(congrArg Intake.src heq).trans hsrc, ((congrArg Intake.fill heq).trans hfill).le⟩
  · have hless : (s.loop helix a).1.fill = (s.ready a).fill - ((s.ready a).call helix).consumed :=
      congrArg Intake.fill heq
    exact ⟨(congrArg Intake.src heq).trans hsrc, by omega⟩

theorem Sound.fillRing (h : s.Sound) (reads : List (ℕ × ℕ)) : (s.fillRing reads).Sound := by
  obtain ⟨n, ring, -, hfit, heq⟩ := fills_fillRing s reads
  rw [heq]
  exact ⟨hfit h.fill_le, h.dec, h.pending⟩

theorem Sound.ready (h : s.Sound) (a : Answers) : (s.ready a).Sound := by
  have hfill := h.fillRing a.reads
  have hintake := s.intake_ready a
  have hpending : (s.ready a).pendFrames = 0 ∨ (s.ready a).pendDone < (s.ready a).pendFrames := by
    rw [Player.ready, drained]
    split_ifs with hnone
    · exact .inl hnone
    · exact pending_drainPending _
  refine ⟨(congrArg Intake.fill hintake).trans_le hfill.fill_le, fun hrun => ?_, hpending⟩
  obtain ⟨info, hdec⟩ := hfill.dec ((congrArg Intake.running hintake).symm.trans hrun)
  exact ⟨info, (congrArg (·.decoder.dec) hintake).trans hdec⟩

theorem Sound.decodeOne (h : s.Sound) (begins : Bool) (accepts : List ℕ) :
    (s.decodeOne helix begins accepts).Sound := by
  have hintake := intake_decodeOne helix s begins accepts
  have hfill : (s.decodeOne helix begins accepts).fill = s.fill - (s.call helix).consumed :=
    congrArg Intake.fill hintake
  refine ⟨hfill ▸ (Nat.sub_le _ _).trans h.fill_le, fun hrun => ?_, pending_decodeOne h.pending⟩
  obtain ⟨info, hdec⟩ := dec_call helix
    (h.dec ((congrArg Intake.running hintake).symm.trans hrun))
  exact ⟨info, (congrArg (·.decoder.dec) hintake).trans hdec⟩

theorem Sound.loop (h : s.Sound) (a : Answers) : (s.loop helix a).1.Sound := by
  cases hrun : s.running with
  | false =>
    rw [loop_of_not_running helix s hrun]
    exact h
  | true =>
    by_cases hprimes : s.Primes a
    · have hready := h.ready a
      have hrunning := (s.running_ready a).trans hrun
      rw [loop_of_primes helix s hrun hprimes]
      by_cases hpend : (s.ready a).pendFrames = 0
      · rw [if_pos hpend, play]
        split_ifs
        · exact ⟨hready.fill_le, fun _ => hready.dec hrunning, hready.pending⟩
        · exact hready.decodeOne _ _
      · rw [if_neg hpend]
        exact hready
    · rw [loop_of_not_primes helix s hrun hprimes]
      exact h.fillRing a.reads

theorem Sound.after (h : s.Sound) (a : Action ρ) : (s.after helix a).Sound := by
  cases a with
  | begin src sinkRunning sinkRate init =>
    obtain heq | ⟨hstopped, d, heq | ⟨hdec, heq⟩⟩ := s.begin_cases src sinkRunning sinkRate init
    · rw [Player.after, heq]
      exact h
    · rw [Player.after, heq]
      exact ⟨h.fill_le, fun hrun => absurd (hstopped.symm.trans hrun) (by decide), h.pending⟩
    · rw [Player.after, heq]
      exact ⟨Nat.zero_le _, fun _ => Option.isSome_iff_exists.mp hdec, h.pending⟩
  | loop a => exact h.loop a
  | setVolume q le => exact ⟨h.fill_le, h.dec, h.pending⟩
  | finish => exact ⟨h.fill_le, fun hno => (by cases hno), .inl rfl⟩

end Player

theorem sound_of_reachable {s : Player ρ} (h : (machine helix).Reachable anyStep s) : s.Sound := by
  refine Machine.invariant (I := Player.Sound) ?_ ?_ h
  · rintro s ⟨ring, pcm, stereo, rfl⟩
    exact ⟨Nat.zero_le _, fun hno => (by cases hno), .inl rfl⟩
  · intro s a s' hs _ hstep
    obtain rfl := Option.some.inj hstep
    exact hs.after a

/-! ### What is left to do -/

namespace Player

variable {s t : Player ρ}

/-- What is left to do, in the order in which it counts: bytes to consume, bytes to read, the ring
to be primed, frames to hand over, and bytes that the reservoir may be short of. -/
def work (s : Player ρ) : ℕ ×ₗ ℕ ×ₗ ℕ ×ₗ ℕ ×ₗ ℕ :=
  toLex (s.src.length + s.fill, toLex (s.src.length, toLex (if s.primed then 0 else 1,
    toLex (s.pendFrames - s.pendDone, 511 - s.decoder.reservoir))))

theorem work_lt_of_src (htotal : t.src.length + t.fill ≤ s.src.length + s.fill)
    (hsrc : t.src.length < s.src.length) : t.work < s.work := by
  simp only [work, Prod.Lex.toLex_lt_toLex]
  omega

theorem work_lt_of_fill (hsrc : t.src = s.src) (hfill : t.fill < s.fill) : t.work < s.work := by
  simp only [work, Prod.Lex.toLex_lt_toLex, hsrc]
  omega

theorem work_lt_of_same (hsrc : t.src = s.src) (hfill : t.fill = s.fill) (hprimed : t.primed = true)
    (hless : t.pendFrames - t.pendDone < s.pendFrames - s.pendDone ∨
      t.pendFrames - t.pendDone ≤ s.pendFrames - s.pendDone ∧ s.decoder.reservoir < 511 ∧
        s.decoder.reservoir < t.decoder.reservoir) : t.work < s.work := by
  simp only [work, Prod.Lex.toLex_lt_toLex, hsrc, hfill, hprimed, if_true, true_and]
  refine .inr (.inr ?_)
  split_ifs
  · right
    refine ⟨rfl, ?_⟩
    omega
  · left
    exact Nat.zero_lt_one

/-- What is in the ring is there when a ring that is full, or as full as it gets, is primed. -/
theorem intake_ready_full (h : s.src = [] ∨ s.fill = ringBytes) (a : Answers) :
    (s.ready a).intake = { s with primed := true }.intake := by
  rw [intake_ready, fillRing_full h]

theorem pending_ready_full {a : Answers} (h : s.src = [] ∨ s.fill = ringBytes)
    (ha : a.Forthcoming) (hs : s.Sound) : s.pendFrames = 0 ∧ (s.ready a).pendFrames = 0 ∨
      (s.ready a).pendFrames - (s.ready a).pendDone < s.pendFrames - s.pendDone := by
  unfold Player.ready drained
  rw [fillRing_full h]
  dsimp only
  split_ifs with hnone
  · exact .inl ⟨hnone, hnone⟩
  · right
    have hlt : s.pendDone < s.pendFrames := hs.pending.resolve_left hnone
    exact drainPending_lt { s with primed := true } ha hlt

/-- The decoder gets on with what is in the ring. -/
theorem work_decodeOne (hres : helix.Reserved) (begins : Bool) (accepts : List ℕ)
    (hdec : ∃ info, s.decoder.dec = some info) (hfill : s.fill ≠ 0)
    (hpend : s.pendFrames = 0) (hwaits : ¬s.decoder.Waits helix s.ring s.fill) :
    (s.decodeOne helix begins accepts).fill < s.fill ∨
    (s.decodeOne helix begins accepts).fill = s.fill ∧
      (s.decodeOne helix begins accepts).pendFrames = 0 ∧ s.decoder.reservoir < 511 ∧
      s.decoder.reservoir < (s.decodeOne helix begins accepts).decoder.reservoir := by
  obtain ⟨info, hdec⟩ := hdec
  have hintake := intake_decodeOne helix s begins accepts
  have hleft : (s.decodeOne helix begins accepts).fill = s.fill - (s.call helix).consumed :=
    congrArg Intake.fill hintake
  have hdecoder : (s.decodeOne helix begins accepts).decoder = (s.call helix).decoder :=
    congrArg Intake.decoder hintake
  by_cases hzero : (s.call helix).consumed = 0
  · right
    have hprogress := decodeFrame_progress s.pcm hres hdec hfill hwaits
    obtain ⟨hanswer, hshort, hgrows⟩ := hprogress.resolve_left fun hpos => by
      rw [call] at hzero
      omega
    refine ⟨by omega, ?_, hshort, hdecoder ▸ hgrows⟩
    obtain ⟨-, heq⟩ | ⟨hpos, -⟩ := s.decodeOne_cases helix begins accepts
    · rw [heq]
      exact hpend
    · rw [call] at hpos
      omega
  · left
    omega

theorem available_of_full {more : Bool} (hfull : s.src = [] ∨ s.fill = ringBytes)
    (hsrc : t.src = s.src) (hfill : t.fill = s.fill) (hzero : t.fill = 0) :
    t.available more = false := by
  have hnone : s.src = [] := hfull.resolve_right fun hring => by
    rw [← hfill, hzero] at hring
    exact absurd hring (by decide)
  rw [available, hsrc, hnone, List.isEmpty_nil, Bool.not_true, Bool.and_false]

/-- A ring that is as full as it gets and not primed is empty. -/
theorem stalls_of_not_primes {a : Answers} (hrun : s.running = true)
    (hfull : s.src = [] ∨ s.fill = ringBytes) (h : ¬s.Primes a) : s.Stalls helix := by
  unfold Primes at h
  rw [fillRing_full hfull] at h
  push Not at h
  have hzero : s.fill = 0 := by
    obtain hsrc | hring := hfull
    · by_contra hne
      refine hne (Nat.le_zero.mp (h.2.2 ?_))
      rw [available, hsrc, List.isEmpty_nil, Bool.not_true, Bool.and_false]
    · have hless := h.2.1
      rw [hring] at hless
      exact absurd hless (by decide)
  exact ⟨hrun, hfull, .inl ⟨hzero, by simpa using h.1⟩⟩

/-- A call that finds the ring as full as it gets, and does not end, has less to do. -/
theorem work_loop_full (hres : helix.Reserved) (hs : s.Sound) {a : Answers} (ha : a.Forthcoming)
    (hrun : s.running = true) (hfull : s.src = [] ∨ s.fill = ringBytes) (hnot : ¬s.Stalls helix)
    (hgoes : (s.loop helix a).2 = true) : (s.loop helix a).1.work < s.work := by
  by_cases hprimes : s.Primes a
  · have hintake := intake_ready_full hfull a
    have hsrc : (s.ready a).src = s.src := congrArg Intake.src hintake
    have hfill : (s.ready a).fill = s.fill := congrArg Intake.fill hintake
    have hring : (s.ready a).ring = s.ring := congrArg Intake.ring hintake
    have hdecoder : (s.ready a).decoder = s.decoder := congrArg Intake.decoder hintake
    have hprimed : (s.ready a).primed = true := congrArg Intake.primed hintake
    have hpending := pending_ready_full hfull ha hs
    rw [loop_of_primes helix s hrun hprimes] at hgoes ⊢
    by_cases hpend : (s.ready a).pendFrames = 0
    · rw [if_pos hpend, play] at hgoes ⊢
      by_cases hzero : (s.ready a).fill = 0
      · rw [if_pos hzero] at hgoes
        exact absurd ((available_of_full hfull hsrc hfill hzero).symm.trans hgoes) (by decide)
      · rw [if_neg hzero]
        have hwaits : ¬(s.ready a).decoder.Waits helix (s.ready a).ring (s.ready a).fill := by
          rw [hdecoder, hring, hfill]
          intro hwaits
          exact hnot ⟨hrun, hfull, .inr ⟨hfill ▸ hzero, hwaits⟩⟩
        have hintake' := intake_decodeOne helix (s.ready a) a.sinkBegins a.acceptsNew
        have hsrc' := (congrArg Intake.src hintake').trans hsrc
        have hprimed' := (congrArg Intake.primed hintake').trans hprimed
        obtain hless | ⟨hsame, hnone, hshort, hgrows⟩ := work_decodeOne hres _ _
          (hdecoder ▸ hs.dec hrun) hzero hpend hwaits
        · exact work_lt_of_fill hsrc' (hfill ▸ hless)
        · rw [hdecoder] at hshort hgrows
          refine work_lt_of_same hsrc' (hsame.trans hfill) hprimed' (.inr ⟨?_, hshort, hgrows⟩)
          dsimp only
          omega
    · rw [if_neg hpend]
      refine work_lt_of_same hsrc hfill hprimed (.inl ?_)
      exact hpending.resolve_left fun hnone => hpend hnone.2
  · exact absurd (stalls_of_not_primes hrun hfull hprimes) hnot

/-- **A call that does not end has less to do after it**, if nothing keeps it from going on. -/
theorem work_loop (hres : helix.Reserved) (hs : s.Sound) {a : Answers} (ha : a.Forthcoming)
    (hnot : ¬s.Stalls helix) (hgoes : (s.loop helix a).2 = true) :
    (s.loop helix a).1.work < s.work := by
  cases hrun : s.running with
  | false =>
    rw [loop_of_not_running helix s hrun] at hgoes
    cases hgoes
  | true =>
    by_cases hfull : s.src = [] ∨ s.fill = ringBytes
    · exact work_loop_full hres hs ha hrun hfull hnot hgoes
    · push Not at hfull
      have hlt := fillRing_lt ha hfull.1 (lt_of_le_of_ne hs.fill_le hfull.2)
      obtain ⟨hsrc, hfill⟩ := src_fill_loop helix a hrun
      obtain ⟨n, ring, hn, -, heq⟩ := fills_fillRing s a.reads
      refine work_lt_of_src ?_ (hsrc ▸ hlt)
      rw [hsrc]
      rw [heq] at hfill ⊢
      simp only [List.length_drop] at hfill ⊢
      omega

end Player

/-! ### The main theorem -/

/-- The player after some calls of `loop`. -/
def Player.looped (helix : Helix ρ) (s : Player ρ) (as : ℕ → Answers) : ℕ → Player ρ
  | 0 => s
  | k + 1 => ((Player.looped helix s as k).loop helix (as k)).1

theorem reachable_looped {s : Player ρ} (h : (machine helix).Reachable anyStep s)
    (as : ℕ → Answers) (k : ℕ) : (machine helix).Reachable anyStep (s.looped helix as k) := by
  induction k with
  | zero => exact h
  | succ k ih => exact .step ih trivial (a := .loop (as k)) rfl

theorem stalls_of_stuck (hres : helix.Reserved) {s : Player ρ} (hs : s.Sound)
    (h : s.Stuck helix) : s.Stalls helix := by
  obtain ⟨hsrc, hpend, a, hgoes, -, hfill, hdecoder⟩ := h
  have hfull : s.src = [] ∨ s.fill = ringBytes := .inl hsrc
  cases hrun : s.running with
  | false =>
    rw [Player.loop_of_not_running helix s hrun] at hgoes
    cases hgoes
  | true =>
    by_cases hprimes : s.Primes a
    · have hready : s.ready a = { s with primed := true } := by
        rw [Player.ready, Player.fillRing_full hfull, Player.drained]
        exact if_pos hpend
      rw [Player.loop_of_primes helix s hrun hprimes, hready] at hgoes hfill hdecoder
      rw [if_pos hpend, Player.play] at hgoes hfill hdecoder
      by_cases hzero : s.fill = 0
      · rw [if_pos hzero] at hgoes
        exact absurd ((Player.available_of_full hfull rfl rfl hzero).symm.trans hgoes) (by decide)
      · rw [if_neg hzero] at hfill hdecoder
        by_contra hnot
        have hwaits : ¬s.decoder.Waits helix s.ring s.fill :=
          fun hwaits => hnot ⟨hrun, hfull, .inr ⟨hzero, hwaits⟩⟩
        obtain hless | ⟨-, -, -, hgrows⟩ := Player.work_decodeOne (s := { s with primed := true })
          hres a.sinkBegins a.acceptsNew (hs.dec hrun) hzero hpend hwaits
        · exact absurd hfill hless.ne
        · rw [hdecoder] at hgrows
          exact absurd hgrows (lt_irrefl _)
    · exact Player.stalls_of_not_primes hrun hfull hprimes

theorem ends_of_not_stalls (hres : helix.Reserved) {s : Player ρ}
    (h : (machine helix).Reachable anyStep s) {as : ℕ → Answers} (has : ∀ k, (as k).Forthcoming)
    (hnot : ∀ k, ¬(s.looped helix as k).Stalls helix) :
    ∃ k, ((s.looped helix as k).loop helix (as k)).2 = false := by
  -- otherwise what is left to do would get less for ever
  obtain ⟨k, hk⟩ := WellFounded.not_rel_apply_succ (r := (· < ·))
    fun k => (s.looped helix as k).work
  refine ⟨k, ?_⟩
  by_contra hgoes
  exact hk (Player.work_loop hres (sound_of_reachable (reachable_looped h as k)) (has k) (hnot k)
    (by simpa using hgoes))

/-- **`loop` comes to its end, unless something is left in the ring that the decoder does not get on
with, or nothing ever came into it.**  No state is stuck but such a one. -/
theorem ends_unless_stalled (hres : helix.Reserved) {s : Player ρ}
    (h : (machine helix).Reachable anyStep s) :
    (s.Stuck helix → s.Stalls helix) ∧
    ∀ as : ℕ → Answers, (∀ k, (as k).Forthcoming) →
      (∀ k, ¬(s.looped helix as k).Stalls helix) →
      ∃ k, ((s.looped helix as k).loop helix (as k)).2 = false :=
  ⟨stalls_of_stuck hres (sound_of_reachable h),
    fun _ has hnot => ends_of_not_stalls hres h has hnot⟩

theorem silence_reserved : silence.Reserved where
  header := by
    intro info buf i n h
    simp only [silence] at h
    split_ifs at h
    · obtain ⟨rfl, -⟩ := Prod.mk.inj h
      rfl
    · cases (Prod.mk.inj h).2
  side := by
    intro info buf i n h
    obtain ⟨rfl, -⟩ := Prod.mk.inj h
    have hhigh := (buf 0).toNat_lt
    have hlow := (buf 1).toNat_lt
    refine ⟨rfl, ?_⟩
    change 2 * (buf 0).toNat + (buf 1).toNat / 128 ≤ 511
    omega

/-- The player at the beginning of a stream. -/
def begun (src : List UInt8) : Player Unit :=
  (Player.new (fun _ => 0) (fun _ => 0) fun _ => 0).begin src false 0 quiet.dec

theorem reachable_begun (src : List UInt8) : (machine silence).Reachable anyStep (begun src) :=
  .step (.init ⟨_, _, _, rfl⟩) trivial (a := .begin src false 0 quiet.dec) rfl

/-- A source and a sink that are never short of anything. -/
def plenty : Answers := ⟨[(104, 104)], true, true, [1152], true, [1152]⟩

/-- A stream of one frame comes to its end. -/
theorem ends_one_frame :
    ∃ k, (((begun (monoFrame [])).looped silence (fun _ => plenty) k).loop silence plenty).2 =
      false := by
  have hforth : plenty.Forthcoming :=
    ⟨⟨104, 104, [], rfl, by decide, by decide⟩, 1152, [], rfl, by decide⟩
  refine (ends_unless_stalled silence_reserved (reachable_begun (monoFrame []))).2
    (fun _ => plenty) (fun _ => hforth) fun k => ?_
  have hstopped : ∀ k, ((begun (monoFrame [])).looped silence (fun _ => plenty) (k + 2)).running =
      false := by
    intro k
    induction k with
    | zero => decide
    | succ k ih =>
      rw [Player.looped, Player.loop_of_not_running _ _ ih]
      exact ih
  intro hstalls
  rcases k with _ | _ | k
  · exact absurd hstalls.full (by decide)
  · obtain ⟨-, hprimed⟩ | ⟨hfill, -⟩ := hstalls.waits
    · exact absurd hprimed (by decide)
    · exact hfill (by decide)
  · exact absurd (hstopped k) (by rw [hstalls.running]; decide)

/-- A stream of nothing does not: the ring is never primed, and `loop` goes on for ever. -/
theorem not_ends_of_empty : ∃ s : Player Unit, (machine silence).Reachable anyStep s ∧
    s.src = [] ∧ s.pendFrames = 0 ∧
    ∀ as k, s.looped silence as k = s ∧ (s.loop silence (as k)).2 = true := by
  have hloop : ∀ a, (begun []).loop silence a = (begun [], true) := by
    intro a
    have hsrc : (begun []).src = [] := rfl
    have hnot : ¬(begun []).Primes a := by
      unfold Player.Primes
      rw [Player.fillRing_full (.inl hsrc)]
      rintro (hprimed | hfull | ⟨-, hsome⟩)
      · cases hprimed
      · exact absurd hfull (by decide)
      · exact absurd hsome (lt_irrefl 0)
    rw [Player.loop_of_not_primes silence _ rfl hnot, Player.fillRing_full (.inl hsrc)]
  refine ⟨begun [], reachable_begun [], rfl, rfl, fun as k => ⟨?_, by rw [hloop]⟩⟩
  induction k with
  | zero => rfl
  | succ k ih => rw [Player.looped, ih, hloop]

end Ch32h4.Mp3
