import Ch32h4.Mp3.Player

/-!
# What a call of `loop` does

One lemma for each part of `loop`, which says which fields of the player it leaves alone, and
`loop_cases`, which puts them together: a call fills the ring, hands over what is outstanding, and
decodes a frame if there is nothing left of it.
-/

namespace Ch32h4.Mp3.Player

variable {ρ : Type*} (helix : Helix ρ) (s : Player ρ)

/-! ### The ring -/

/-- Some bytes of the source are in the ring now, and nothing else is different. -/
def Fills (s t : Player ρ) : Prop :=
  ∃ n ring, n ≤ s.src.length ∧ (s.fill ≤ ringBytes → s.fill + n ≤ ringBytes) ∧
    t = { s with src := s.src.drop n, ring := ring, fill := s.fill + n }

theorem Fills.refl : Fills s s := ⟨0, s.ring, Nat.zero_le _, id, rfl⟩

variable {s} in
theorem Fills.of_receive {t : Player ρ} {n : ℕ} (hlen : n ≤ s.src.length)
    (hroom : n ≤ ringBytes - s.fill) (h : Fills (s.receive n) t) : Fills s t := by
  obtain ⟨m, ring, hm, hfit, rfl⟩ := h
  simp only [receive, List.length_drop] at hm hfit
  refine ⟨n + m, ring, by omega, fun hle => ?_, ?_⟩
  · have := hfit (by omega)
    omega
  · simp only [receive, List.drop_drop, Nat.add_assoc]

theorem fills_fillRing (reads : List (ℕ × ℕ)) : Fills s (s.fillRing reads) := by
  induction reads generalizing s with
  | nil => exact Fills.refl s
  | cons read reads ih =>
    unfold fillRing
    dsimp only
    split_ifs
    · exact Fills.refl s
    · exact Fills.refl s
    · exact Fills.refl s
    · exact Fills.of_receive (by omega) (by omega) (ih _)
    · exact Fills.refl s
    · exact Fills.of_receive (by omega) (by omega) (ih _)

/-! ### The sink -/

theorem writeFrames_zero : s.writeFrames 0 = s := by simp [writeFrames]

theorem writeFrames_writeFrames (m n : ℕ) :
    (s.writeFrames m).writeFrames n = s.writeFrames (m + n) := by
  have hpending : (s.writeFrames m).pending = s.pending := rfl
  unfold writeFrames
  simp only [List.append_assoc, List.range_add, List.map_append, List.map_map, Nat.add_assoc]
  rfl

/-- Frames are written in order, and not more than there are. -/
theorem drainLoop_eq (accepts : List ℕ) :
    ∃ n, n ≤ s.pendFrames - s.pendDone ∧ s.drainLoop accepts = s.writeFrames n := by
  induction accepts generalizing s with
  | nil => exact ⟨0, Nat.zero_le _, (writeFrames_zero s).symm⟩
  | cons n accepts ih =>
    have hstay : ∃ n, n ≤ s.pendFrames - s.pendDone ∧ s = s.writeFrames n :=
      ⟨0, Nat.zero_le _, (writeFrames_zero s).symm⟩
    unfold drainLoop
    dsimp only
    split_ifs with hlt hn
    · exact hstay
    · obtain ⟨m, hm, heq⟩ := ih (s.writeFrames (min n (s.pendFrames - s.pendDone)))
      refine ⟨min n (s.pendFrames - s.pendDone) + m, ?_, ?_⟩
      · simp only [writeFrames] at hm
        omega
      · rw [heq, writeFrames_writeFrames]
    · exact hstay

/-- Nothing is outstanding. -/
def clear : Player ρ := { s with pend := none, pendFrames := 0, pendDone := 0 }

theorem drainPending_eq (accepts : List ℕ) : ∃ n, n ≤ s.pendFrames - s.pendDone ∧
    s.drainPending accepts =
      if s.pendFrames ≤ s.pendDone + n then (s.writeFrames n).clear else s.writeFrames n := by
  obtain ⟨n, hn, heq⟩ := s.drainLoop_eq accepts
  refine ⟨n, hn, ?_⟩
  unfold drainPending
  rw [heq]
  rfl

theorem startSink_of_true {rate : ℕ} {begins : Bool} (h : (s.startSink rate begins).2 = true) :
    ∃ sink changes, (s.startSink rate begins).1 =
        { s with sink := sink, startedRate := rate, rateChanges := changes } ∧
      sink.running = true ∧ sink.written = s.sink.written ∧
      ((s.sink.running = true → rate = s.startedRate → s.sink.rate = rate) → sink.rate = rate) := by
  unfold startSink at h ⊢
  split_ifs with hrun hne hbegins hbegins
  · exact ⟨_, _, rfl, hrun, rfl, fun _ => rfl⟩
  · rw [if_pos hrun, if_pos hne, if_neg hbegins] at h
    cases h
  · rw [ne_eq, not_not] at hne
    subst hne
    exact ⟨s.sink, s.rateChanges, rfl, hrun, rfl, fun hkeep => hkeep hrun rfl⟩
  · exact ⟨_, s.rateChanges, rfl, rfl, rfl, fun _ => rfl⟩
  · rw [if_neg hrun, if_neg hbegins] at h
    cases h

theorem startSink_of_false {rate : ℕ} {begins : Bool} (h : (s.startSink rate begins).2 = false) :
    begins = false ∧ (s.startSink rate begins).1 =
      { s with sink := { s.sink with running := false } } := by
  unfold startSink at h ⊢
  split_ifs at h ⊢ with hrun hne hbegins hbegins
  · exact ⟨by simpa using hbegins, rfl⟩
  · have hstopped : s.sink.running = false := by simpa using hrun
    refine ⟨by simpa using hbegins, ?_⟩
    rw [← hstopped]

/-! ### The frame that is handed over -/

/-- How many frames there are in so many samples. -/
def frameCount (channels samples : ℕ) : ℕ := if channels = 2 then samples / 2 else samples

/-- A sample of the frame, left or right, in one of the buffers. -/
def sampleAt (channels : ℕ) (pcm : Samples) (i : ℕ) : Int16 :=
  if channels = 1 then pcm (i / 2) else pcm i

theorem scale_full (x : Int16) : scale 256 x = x := by
  have hcancel : x.toInt * (256 : ℕ) / 256 = x.toInt := Int.mul_ediv_cancel _ (by decide)
  rw [scale, hcancel, Int16.ofInt_toInt]

/-- One of the buffers holds the frame now, at the volume of this moment. -/
theorem handOver_eq (samples : ℕ) : ∃ stereo b,
    s.handOver samples = { s with
      stereo := stereo
      pend := some b
      pendFrames := frameCount s.decoder.channels samples
      pendDone := 0 } ∧
    ∀ i < frameCount s.decoder.channels samples * 2, (s.handOver samples).pending i =
      scale s.volQ8 (sampleAt s.decoder.channels s.pcm i) := by
  unfold handOver frameCount
  by_cases hmono : s.decoder.channels = 1
  · by_cases hvol : s.volQ8 = 256
    · simp only [hmono, hvol, ne_eq, not_true_eq_false, if_true, if_false]
      refine ⟨_, _, rfl, fun i hi => ?_⟩
      simp only [pending, overwrite, sampleAt, scale_full, if_true, if_pos hi]
    · simp only [hmono, hvol, ne_eq, not_true_eq_false, not_false_eq_true, if_true, if_false]
      refine ⟨_, _, rfl, fun i hi => ?_⟩
      simp only [pending, overwrite, sampleAt, if_true, if_pos hi]
  · by_cases hvol : s.volQ8 = 256
    · simp only [hmono, hvol, ne_eq, not_true_eq_false, if_false]
      refine ⟨_, _, rfl, fun i hi => ?_⟩
      simp only [pending, sampleAt, scale_full, if_neg hmono]
    · simp only [hmono, hvol, ne_eq, reduceCtorEq, Option.some.injEq, not_false_eq_true, if_true,
        if_false]
      refine ⟨_, _, rfl, fun i hi => ?_⟩
      simp only [pending, overwrite, sampleAt, if_neg hmono, if_pos hi]

/-! ### `decodeOne` -/

/-- The answer of `decodeFrame` is noted with the frame. -/
def noted : Player ρ :=
  { s.consume helix with
    decodes := s.decodes ++ [Trace.mk (s.call helix).answer.toNat (s.call helix).decoder.rate
      (s.call helix).decoder.channels (s.call helix).pcm s.volQ8] }

theorem decodeOne_of_pos {begins : Bool} {accepts : List ℕ} (h : 0 < (s.call helix).answer) :
    s.decodeOne helix begins accepts =
      if ((s.noted helix).startSink (s.call helix).decoder.rate begins).2 = true then
        (((s.noted helix).startSink (s.call helix).decoder.rate begins).1.handOver
          (s.call helix).answer.toNat).drainPending accepts
      else ((s.noted helix).startSink (s.call helix).decoder.rate begins).1 := by
  unfold decodeOne
  dsimp only
  rw [if_neg (not_le.mpr h)]
  rfl

/-- No frame comes, or the sink does not begin, or the frame is handed over to a sink that is
running. -/
theorem decodeOne_cases (begins : Bool) (accepts : List ℕ) :
    ((s.call helix).answer ≤ 0 ∧ s.decodeOne helix begins accepts = s.consume helix) ∨
    0 < (s.call helix).answer ∧
      (begins = false ∧ s.decodeOne helix begins accepts =
        { s.noted helix with sink := { s.sink with running := false } } ∨
      ∃ sink changes, sink.running = true ∧ sink.written = s.sink.written ∧
        ((s.sink.running = true → (s.call helix).decoder.rate = s.startedRate →
          s.sink.rate = (s.call helix).decoder.rate) → sink.rate = (s.call helix).decoder.rate) ∧
        s.decodeOne helix begins accepts =
          ({ s.noted helix with
              sink := sink
              startedRate := (s.call helix).decoder.rate
              rateChanges := changes }.handOver
            (s.call helix).answer.toNat).drainPending accepts) := by
  by_cases hanswer : (s.call helix).answer ≤ 0
  · left
    refine ⟨hanswer, ?_⟩
    unfold decodeOne
    dsimp only
    rw [if_pos hanswer]
  · rw [not_le] at hanswer
    refine .inr ⟨hanswer, ?_⟩
    rw [decodeOne_of_pos helix s hanswer]
    cases hstart : ((s.noted helix).startSink (s.call helix).decoder.rate begins).2 with
    | false =>
      obtain ⟨hbegins, heq⟩ := startSink_of_false _ hstart
      rw [if_neg (by decide), heq]
      exact .inl ⟨hbegins, rfl⟩
    | true =>
      obtain ⟨sink, changes, heq, hrun, hwritten, hrate⟩ := startSink_of_true _ hstart
      rw [if_pos rfl, heq]
      exact .inr ⟨sink, changes, hrun, hwritten, hrate, rfl⟩

/-! ### What the sink has no part in -/

/-- The side of the player that is before the decoder. -/
structure Intake (ρ : Type*) where
  src : List UInt8
  decoder : Decoder ρ
  ring : ℕ → UInt8
  fill : ℕ
  pcm : Samples
  primed : Bool
  running : Bool
  position : ℕ
  fed : List (ℕ × ℕ)

def intake : Intake ρ :=
  ⟨s.src, s.decoder, s.ring, s.fill, s.pcm, s.primed, s.running, s.position, s.fed⟩

theorem intake_drainPending (accepts : List ℕ) : (s.drainPending accepts).intake = s.intake := by
  obtain ⟨n, -, heq⟩ := s.drainPending_eq accepts
  rw [heq]
  split_ifs <;> rfl

theorem intake_handOver (samples : ℕ) : (s.handOver samples).intake = s.intake := by
  obtain ⟨stereo, b, heq, -⟩ := s.handOver_eq samples
  rw [heq]
  rfl

theorem intake_decodeOne (begins : Bool) (accepts : List ℕ) :
    (s.decodeOne helix begins accepts).intake = (s.consume helix).intake := by
  obtain ⟨-, heq⟩ | ⟨-, ⟨-, heq⟩ | ⟨sink, changes, -, -, -, heq⟩⟩ :=
    s.decodeOne_cases helix begins accepts
  · rw [heq]
  · rw [heq]
    rfl
  · rw [heq, intake_drainPending, intake_handOver]
    rfl

/-! ### `loop` -/

/-- What is outstanding is handed over, as far as the sink takes it. -/
def drained (accepts : List ℕ) : Player ρ :=
  if s.pendFrames = 0 then s else s.drainPending accepts

/-- The player when the ring is filled and primed, and the sink has had its turn. -/
def ready (a : Answers) : Player ρ := { s.fillRing a.reads with primed := true }.drained a.accepts

theorem intake_ready (a : Answers) :
    (s.ready a).intake = { s.fillRing a.reads with primed := true }.intake := by
  rw [ready, drained]
  split_ifs
  · rfl
  · rw [intake_drainPending]

theorem running_ready (a : Answers) : (s.ready a).running = s.running := by
  obtain ⟨n, ring, -, -, heq⟩ := fills_fillRing s a.reads
  have hrunning : (s.ready a).running = (s.fillRing a.reads).running :=
    congrArg Intake.running (s.intake_ready a)
  rw [hrunning, heq]

/-- The ring is primed already, or full enough, or no more is to come. -/
def Primes (a : Answers) : Prop :=
  s.primed = true ∨ primeBytes ≤ (s.fillRing a.reads).fill ∨
    (s.fillRing a.reads).available a.moreToPrime = false ∧ 0 < (s.fillRing a.reads).fill

theorem loop_of_not_running {a : Answers} (h : s.running = false) :
    s.loop helix a = (s, false) := by
  rw [loop, if_neg (by simp [h])]

theorem loop_of_not_primes {a : Answers} (h : s.running = true) (hprimes : ¬s.Primes a) :
    s.loop helix a = (s.fillRing a.reads, true) := by
  obtain ⟨n, ring, -, -, heq⟩ := fills_fillRing s a.reads
  have hprimed : (s.fillRing a.reads).primed = s.primed := by rw [heq]
  unfold Primes at hprimes
  push Not at hprimes
  rw [loop, if_pos h]
  dsimp only
  rw [hprimed, if_neg hprimes.1, if_neg]
  rintro (hle | ⟨hnone, hlt⟩)
  · omega
  · exact absurd (hprimes.2.2 hnone) (by omega)

theorem loop_of_primes {a : Answers} (h : s.running = true) (hprimes : s.Primes a) :
    s.loop helix a = if (s.ready a).pendFrames = 0 then (s.ready a).play helix a
      else (s.ready a, true) := by
  obtain ⟨n, ring, -, -, heq⟩ := fills_fillRing s a.reads
  have hprimed : (s.fillRing a.reads).primed = s.primed := by rw [heq]
  have hhanding : s.loop helix a = { s.fillRing a.reads with primed := true }.handing helix a := by
    rw [loop, if_pos h]
    dsimp only
    rw [hprimed]
    split_ifs with hp hgo
    · rw [hp] at hprimed
      rw [← hprimed]
    · rfl
    · obtain hp' | hgo' := hprimes
      · exact absurd hp' hp
      · exact absurd hgo' hgo
  rw [hhanding, handing, ready, drained]
  dsimp only
  split_ifs
  · rfl
  · rfl
  · rfl

/-! ### `begin` -/

/-- The player with a new stream. -/
def started (d : Decoder ρ) (src : List UInt8) (sinkRunning : Bool) (sinkRate : ℕ) : Player ρ :=
  { s with
    decoder := d
    src := src
    sink := ⟨sinkRunning, sinkRate, []⟩
    fill := 0
    rateChanges := 0
    startedRate := 0
    primed := false
    running := true
    attached := true
    decodes := []
    position := 0
    fed := [] }

theorem begin_cases (src : List UInt8) (sinkRunning : Bool) (sinkRate : ℕ)
    (init : Option (DecInfo ρ)) :
    s.begin src sinkRunning sinkRate init = s ∨
    s.running = false ∧ ∃ d,
      s.begin src sinkRunning sinkRate init = { s with decoder := d } ∨
      d.dec.isSome ∧
        s.begin src sinkRunning sinkRate init = s.started d src sinkRunning sinkRate := by
  unfold Player.begin
  dsimp only
  by_cases hrun : s.running
  · rw [if_pos hrun]
    exact .inl rfl
  · rw [if_neg hrun]
    refine .inr ⟨by simpa using hrun,
      if s.decoder.dec.isSome then s.decoder else ⟨init, 0, 0, 0, 0, 0⟩, ?_⟩
    generalize (if s.decoder.dec.isSome then s.decoder else ⟨init, 0, 0, 0, 0, 0⟩) = d
    split_ifs with hdec
    · exact .inr ⟨hdec, rfl⟩
    · exact .inl rfl

end Ch32h4.Mp3.Player
