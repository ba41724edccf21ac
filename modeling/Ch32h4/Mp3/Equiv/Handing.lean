import Ch32h4.Mp3.Equiv.Consuming

/-!
# The sink gets what was decoded

With a sink that begins whenever it is asked to, the frames it has taken since `begin` are the
decoded ones in order (`handed_of_reachable`).  What it has not taken yet is the end of the frame
that was decoded last, and stays outstanding until it is taken, or until `end` gives it up with the
sink.

A frame goes out of the buffer that it was decoded or copied into.  The invariant is that the rest
of that buffer, written to the sink as it runs now, would complete what was decoded, so that nothing
may be decoded or copied, and the sink not be restarted, as long as there is such a rest.
-/

namespace Ch32h4.Mp3

open Machine

variable {ρ : Type*} {helix : Helix ρ}

/-! ### What is promised -/

/-- What `MP3GetLastFrameInfo` has of a frame with samples. -/
structure Helix.Informed (helix : Helix ρ) : Prop where
  channels : ∀ info, 0 < (helix.lastFrameInfo info).outputSamps →
    (helix.lastFrameInfo info).nChans = 1 ∨ (helix.lastFrameInfo info).nChans = 2
  rate_ne : ∀ info, 0 < (helix.lastFrameInfo info).outputSamps →
    (helix.lastFrameInfo info).samprate ≠ 0

/-- A sample at the volume of the time when it was decoded. -/
def Trace.level (t : Trace) (i : ℕ) : ℤ := (t.pcm i).toInt * t.volQ8 / 256

/-- What a sink gets of a frame, running at the rate of the frame. -/
def Trace.frames (t : Trace) : List Written :=
  (List.range (t.samples / t.channels)).map fun i =>
    if t.channels = 1 then ⟨some t.rate, t.level i, t.level i⟩
    else ⟨some t.rate, t.level (2 * i), t.level (2 * i + 1)⟩

namespace Player

variable {s t : Player ρ}

/-- What the sink has not taken yet of the outstanding frame, as it would take it now. -/
def outstanding (s : Player ρ) : List Written :=
  (List.range (s.pendFrames - s.pendDone)).map fun i => frameOf s.sink s.pending (s.pendDone + i)

/-- Everything that was decoded, as a sink should get it. -/
def expected (s : Player ρ) : List Written := s.decodes.flatMap Trace.frames

/-- The sink has got everything but some end of the last frame, which is outstanding if the sink is
still there. -/
def Handed (s : Player ρ) : Prop :=
  ∃ rest, s.expected = s.sink.written ++ rest ∧ (s.attached = true → rest = s.outstanding) ∧
    (rest = [] ∨ ∃ t, s.decodes.getLast? = some t ∧ rest <:+ t.frames)

/-- The invariant of the player. -/
structure Handing (s : Player ρ) : Prop where
  handed : s.Handed
  stopped : s.running = false → s.pendFrames = 0
  attached : s.running = true → s.attached = true
  rate : s.sink.running = true → s.startedRate ≠ 0 → s.sink.rate = s.startedRate
  volume : s.volQ8 ≤ 256

/-! ### Handing over -/

theorem outstanding_of_pendFrames (h : s.pendFrames = 0) : s.outstanding = [] := by
  rw [outstanding, h, Nat.zero_sub]
  rfl

/-- What is written and what is outstanding make the same frames before and after. -/
theorem written_writeFrames {n : ℕ} (h : n ≤ s.pendFrames - s.pendDone) :
    (s.writeFrames n).sink.written ++ (s.writeFrames n).outstanding =
      s.sink.written ++ s.outstanding := by
  have hsplit : s.pendFrames - s.pendDone = n + (s.pendFrames - (s.pendDone + n)) := by omega
  have hlater : (s.writeFrames n).outstanding =
      (List.range (s.pendFrames - (s.pendDone + n))).map
        fun i => frameOf s.sink s.pending (s.pendDone + (n + i)) := by
    rw [outstanding]
    refine List.map_congr_left fun i _ => ?_
    rw [← Nat.add_assoc]
    rfl
  have hwritten : (s.writeFrames n).sink.written = s.sink.written ++
      (List.range n).map fun i => frameOf s.sink s.pending (s.pendDone + i) := rfl
  rw [hlater, hwritten, outstanding, hsplit, List.range_add, List.map_append, List.map_map,
    List.append_assoc]
  rfl

theorem written_drainPending (accepts : List ℕ) :
    (s.drainPending accepts).sink.written ++ (s.drainPending accepts).outstanding =
      s.sink.written ++ s.outstanding := by
  obtain ⟨n, hn, heq⟩ := s.drainPending_eq accepts
  rw [heq]
  split_ifs with hdone
  · have hnone : (s.writeFrames n).outstanding = [] := by
      have hzero : (s.writeFrames n).pendFrames - (s.writeFrames n).pendDone = 0 := by
        rw [writeFrames]
        dsimp only
        omega
      rw [outstanding, hzero]
      rfl
    rw [← written_writeFrames hn, hnone]
    rfl
  · exact written_writeFrames hn

/-- What is outstanding gets shorter from the front. -/
theorem outstanding_drainPending (accepts : List ℕ) :
    (s.drainPending accepts).outstanding <:+ s.outstanding := by
  obtain ⟨n, hn, heq⟩ := s.drainPending_eq accepts
  obtain ⟨new, hnew⟩ : ∃ new, (s.drainPending accepts).sink.written = s.sink.written ++ new := by
    rw [heq]
    split_ifs
    · exact ⟨_, rfl⟩
    · exact ⟨_, rfl⟩
  have hsame := s.written_drainPending accepts
  rw [hnew, List.append_assoc, List.append_cancel_left_eq] at hsame
  exact ⟨new, hsame⟩

theorem Handing.drainPending (h : s.Handing) (hattached : s.attached = true) (accepts : List ℕ) :
    (s.drainPending accepts).Handing := by
  obtain ⟨rest, hexpected, hrest, hlast⟩ := h.handed
  have hwritten := s.written_drainPending accepts
  have hsuffix := s.outstanding_drainPending accepts
  have hframe : (s.drainPending accepts).expected = s.expected ∧
      (s.drainPending accepts).decodes = s.decodes ∧
      (s.running = false → (s.drainPending accepts).pendFrames = 0) := by
    obtain ⟨n, -, heq⟩ := s.drainPending_eq accepts
    rw [heq]
    split_ifs
    · exact ⟨rfl, rfl, fun _ => rfl⟩
    · exact ⟨rfl, rfl, h.stopped⟩
  obtain ⟨hdecoded, hdecodes, hstopped⟩ := hframe
  have hhanded : (s.drainPending accepts).Handed := by
    refine ⟨(s.drainPending accepts).outstanding, ?_, fun _ => rfl, ?_⟩
    · rw [hdecoded, hwritten, hexpected, hrest hattached]
    · rw [hdecodes]
      obtain rfl | ⟨t, ht, hend⟩ := hlast
      · rw [← hrest hattached] at hsuffix
        exact .inl (List.suffix_nil.mp hsuffix)
      · rw [← hrest hattached] at hsuffix
        exact .inr ⟨t, ht, hsuffix.trans hend⟩
  obtain ⟨n, -, heq⟩ := s.drainPending_eq accepts
  have hrunning : (s.drainPending accepts).running = s.running := by
    rw [heq]
    split_ifs <;> rfl
  refine ⟨hhanded, hrunning ▸ hstopped, ?_, ?_, ?_⟩
  · rw [heq]
    split_ifs
    · exact h.attached
    · exact h.attached
  · rw [heq]
    split_ifs
    · exact h.rate
    · exact h.rate
  · rw [heq]
    split_ifs
    · exact h.volume
    · exact h.volume

/-! ### A new frame -/

theorem level_scale {v : ℕ} (h : v ≤ 256) (x : Int16) : (scale v x).toInt = x.toInt * v / 256 := by
  have hle : -32768 ≤ x.toInt := x.le_toInt
  have hlt : x.toInt < 32768 := x.toInt_lt
  have hlow : -32768 * (v : ℤ) ≤ x.toInt * v :=
    Int.mul_le_mul_of_nonneg_right hle (Int.natCast_nonneg v)
  have hhigh : x.toInt * v ≤ 32767 * (v : ℤ) :=
    Int.mul_le_mul_of_nonneg_right (by omega) (Int.natCast_nonneg v)
  rw [scale, Int16.toInt_ofInt_of_le (by omega) (by omega)]

/-- A frame that was decoded has one channel or two, and a rate. -/
theorem call_of_pos (hinf : helix.Informed) (h : 0 < (s.call helix).answer) :
    ((s.call helix).decoder.channels = 1 ∨ (s.call helix).decoder.channels = 2) ∧
      (s.call helix).decoder.rate ≠ 0 := by
  unfold call Decoder.decodeFrame at h ⊢
  cases hdec : s.decoder.dec with
  | none =>
    rw [hdec] at h
    exact absurd h (lt_irrefl 0)
  | some info =>
    rw [hdec] at h
    dsimp only at h ⊢
    by_cases hgo : true = false ∨ s.fill = 0 ∨ maxSamples < maxSamples
    · rw [if_pos hgo] at h
      exact absurd h (lt_irrefl 0)
    · rw [if_neg hgo] at h ⊢
      cases hsync : findSyncWord s.ring s.fill with
      | none =>
        rw [hsync] at h
        exact absurd h (lt_irrefl 0)
      | some off =>
        rw [hsync] at h
        dsimp only at h ⊢
        split_ifs at h ⊢
        · exact absurd h (lt_irrefl 0)
        · exact absurd h (show ¬(0 : ℤ) < -1 by decide)
        · have hpos := Int.natCast_pos.mp h
          exact ⟨hinf.channels _ hpos, hinf.rate_ne _ hpos⟩

/-- The frame that is handed over is all outstanding. -/
theorem outstanding_handOver {samples : ℕ} (hvol : s.volQ8 ≤ 256)
    (hchannels : s.decoder.channels = 1 ∨ s.decoder.channels = 2) (hrun : s.sink.running = true)
    (hrate : s.sink.rate = s.decoder.rate) :
    (s.handOver samples).outstanding =
      Trace.frames ⟨samples, s.decoder.rate, s.decoder.channels, s.pcm, s.volQ8⟩ := by
  obtain ⟨stereo, b, heq, hcontent⟩ := s.handOver_eq samples
  have hsink : (s.handOver samples).sink = s.sink := by rw [heq]
  have hframes : (s.handOver samples).pendFrames = frameCount s.decoder.channels samples := by
    rw [heq]
  have hdone : (s.handOver samples).pendDone = 0 := by rw [heq]
  have hcount : frameCount s.decoder.channels samples = samples / s.decoder.channels := by
    unfold frameCount
    obtain hone | htwo := hchannels
    · rw [hone, if_neg (by decide), Nat.div_one]
    · rw [htwo, if_pos rfl]
  rw [outstanding, Trace.frames, hframes, hdone, hcount]
  refine List.map_congr_left fun i hi => ?_
  rw [List.mem_range, Nat.sub_zero, ← hcount] at hi
  have hleft := hcontent (2 * i) (by omega)
  have hright := hcontent (2 * i + 1) (by omega)
  unfold frameOf
  rw [hsink, if_pos hrun, hrate, Nat.zero_add, hleft, hright, level_scale hvol, level_scale hvol]
  unfold sampleAt Trace.level
  obtain hone | htwo := hchannels
  · have hhalf : (2 * i + 1) / 2 = i := by omega
    have hhalf' : 2 * i / 2 = i := by omega
    rw [if_pos hone, if_pos hone, if_pos hone, hhalf, hhalf']
  · rw [htwo]
    rfl

theorem Handing.decodeOne (hinf : helix.Informed) (h : s.Handing) (hrunning : s.running = true)
    (hpend : s.pendFrames = 0) (accepts : List ℕ) : (s.decodeOne helix true accepts).Handing := by
  have hattached := h.attached hrunning
  obtain ⟨rest, hexpected, hrest, -⟩ := h.handed
  have hnone := outstanding_of_pendFrames hpend
  rw [hrest hattached, hnone, List.append_nil] at hexpected
  obtain ⟨-, heq⟩ | ⟨hpos, ⟨hbegins, -⟩ | ⟨sink, changes, hrun, hwritten, hrate, heq⟩⟩ :=
    s.decodeOne_cases helix true accepts
  · -- nothing is outstanding that the new contents of `_pcm` could spoil
    rw [heq]
    have hnone' : (s.consume helix).outstanding = [] := outstanding_of_pendFrames hpend
    have hexpected' : (s.consume helix).expected = (s.consume helix).sink.written ++ [] := by
      rw [List.append_nil]
      exact hexpected
    have hhanded : (s.consume helix).Handed := ⟨[], hexpected', fun _ => hnone'.symm, .inl rfl⟩
    exact ⟨hhanded, h.stopped, h.attached, h.rate, h.volume⟩
  · cases hbegins
  · obtain ⟨hchannels, hne⟩ := call_of_pos hinf hpos
    have hsame : sink.rate = (s.call helix).decoder.rate := by
      refine hrate fun hrunning hstarted => ?_
      rw [h.rate hrunning (by rw [← hstarted]; exact hne), hstarted]
    -- the player just before the frame is handed over
    let u : Player ρ := { s.noted helix with
      sink := sink
      startedRate := (s.call helix).decoder.rate
      rateChanges := changes }
    let new : Trace :=
      ⟨(s.call helix).answer.toNat, u.decoder.rate, u.decoder.channels, u.pcm, u.volQ8⟩
    have hout : (u.handOver (s.call helix).answer.toNat).outstanding = new.frames :=
      outstanding_handOver h.volume hchannels hrun hsame
    have hdecodes : u.decodes = s.decodes ++ [new] := rfl
    obtain ⟨stereo, b, hhand, -⟩ := u.handOver_eq (s.call helix).answer.toNat
    have hhanded : (u.handOver (s.call helix).answer.toNat).Handed := by
      refine ⟨new.frames, ?_, fun _ => hout.symm, .inr ⟨new, ?_, List.suffix_rfl⟩⟩
      · have hsent : (u.handOver (s.call helix).answer.toNat).sink.written = s.sink.written := by
          rw [hhand]
          exact hwritten
        have hall : (u.handOver (s.call helix).answer.toNat).expected =
            (s.decodes ++ [new]).flatMap Trace.frames := by
          rw [hhand]
          exact congrArg (·.flatMap Trace.frames) hdecodes
        rw [hall, hsent, List.flatMap_append, List.flatMap_singleton, ← hexpected]
        rfl
      · have hlater : (u.handOver (s.call helix).answer.toNat).decodes = u.decodes := by rw [hhand]
        rw [hlater, hdecodes, List.getLast?_concat]
    have hhanding : (u.handOver (s.call helix).answer.toNat).Handing := by
      refine ⟨hhanded, ?_, ?_, ?_, ?_⟩
      · rw [hhand]
        exact fun hstop => absurd (hrunning.symm.trans hstop) (by decide)
      · rw [hhand]
        exact h.attached
      · rw [hhand]
        exact fun _ _ => hsame
      · rw [hhand]
        exact h.volume
    rw [heq]
    refine hhanding.drainPending ?_ accepts
    rw [hhand]
    exact hattached

/-! ### The calls of the sketch -/

theorem Handing.fillRing (h : s.Handing) (reads : List (ℕ × ℕ)) : (s.fillRing reads).Handing := by
  obtain ⟨n, ring, -, -, heq⟩ := fills_fillRing s reads
  rw [heq]
  exact ⟨h.handed, h.stopped, h.attached, h.rate, h.volume⟩

theorem Handing.ready (h : s.Handing) (hrunning : s.running = true) (a : Answers) :
    (s.ready a).Handing := by
  have hfill := h.fillRing a.reads
  have hprimed : ({ s.fillRing a.reads with primed := true } : Player ρ).Handing :=
    ⟨hfill.handed, hfill.stopped, hfill.attached, hfill.rate, hfill.volume⟩
  have hattached : (s.fillRing a.reads).attached = true := by
    obtain ⟨n, ring, -, -, heq⟩ := fills_fillRing s a.reads
    rw [heq]
    exact h.attached hrunning
  rw [Player.ready, drained]
  split_ifs
  · exact hprimed
  · exact hprimed.drainPending hattached _

theorem Handing.loop (hinf : helix.Informed) (h : s.Handing) {a : Answers}
    (hbegins : a.sinkBegins = true) : (s.loop helix a).1.Handing := by
  cases hrun : s.running with
  | false =>
    rw [loop_of_not_running helix s hrun]
    exact h
  | true =>
    by_cases hprimes : s.Primes a
    · have hready := h.ready hrun a
      have hrunning := (s.running_ready a).trans hrun
      rw [loop_of_primes helix s hrun hprimes]
      by_cases hpend : (s.ready a).pendFrames = 0
      · rw [if_pos hpend, play]
        split_ifs
        · refine ⟨?_, fun _ => hpend, fun _ => hready.attached hrunning, hready.rate,
            hready.volume⟩
          exact hready.handed
        · rw [hbegins]
          exact hready.decodeOne hinf hrunning hpend _
      · rw [if_neg hpend]
        exact hready
    · rw [loop_of_not_primes helix s hrun hprimes]
      exact h.fillRing a.reads

theorem Handing.finish (h : s.Handing) : s.finish.Handing := by
  obtain ⟨rest, hexpected, hrest, hlast⟩ := h.handed
  refine ⟨⟨rest, hexpected, fun hno => ?_, hlast⟩, fun _ => rfl, fun hno => ?_, ?_, h.volume⟩
  · cases hno
  · cases hno
  · change (if s.attached then false else s.sink.running) = true → s.startedRate ≠ 0 →
      s.sink.rate = s.startedRate
    split_ifs
    · intro hno
      cases hno
    · exact h.rate

theorem Handing.after (hinf : helix.Informed) (h : s.Handing) {a : Action ρ}
    (hbegins : ∀ answers, a = .loop answers → answers.sinkBegins = true) :
    (s.after helix a).Handing := by
  cases a with
  | begin src sinkRunning sinkRate init =>
    obtain heq | ⟨hstopped, d, heq | ⟨-, heq⟩⟩ := s.begin_cases src sinkRunning sinkRate init
    · rw [Player.after, heq]
      exact h
    · rw [Player.after, heq]
      exact ⟨h.handed, h.stopped, h.attached, h.rate, h.volume⟩
    · rw [Player.after, heq]
      have hnone : (s.started d src sinkRunning sinkRate).outstanding = [] :=
        outstanding_of_pendFrames (h.stopped hstopped)
      exact ⟨⟨[], rfl, fun _ => hnone.symm, .inl rfl⟩, fun hno => (by cases hno), fun _ => rfl,
        fun _ hne => absurd rfl hne, h.volume⟩
  | loop a => exact h.loop hinf (hbegins a rfl)
  | setVolume q le => exact ⟨h.handed, h.stopped, h.attached, h.rate, le⟩
  | finish => exact h.finish

end Player

/-- The sink begins whenever it is asked to. -/
def SinkBegins {ρ : Type*} (_ : Player ρ) (act : Action ρ) : Prop :=
  ∀ a, act = .loop a → a.sinkBegins = true

theorem handing_of_reachable (hinf : helix.Informed) {s : Player ρ}
    (h : (machine helix).Reachable SinkBegins s) : s.Handing := by
  refine Machine.invariant (I := Player.Handing) ?_ ?_ h
  · rintro s ⟨ring, pcm, stereo, rfl⟩
    exact ⟨⟨[], rfl, fun _ => rfl, .inl rfl⟩, fun _ => rfl, fun hno => (by cases hno),
      fun hno => (by cases hno), Nat.le_refl _⟩
  · intro s a s' hs hbegins hstep
    obtain rfl := Option.some.inj hstep
    exact hs.after hinf hbegins

/-- **The sink gets the decoded frames, each once, in order and complete.**  Only the rest of the
last one may be missing: it is outstanding, or went with the sink at `end`.  When `loop` has come to
its end there is no such rest. -/
theorem handed_of_reachable (hinf : helix.Informed) {s : Player ρ}
    (h : (machine helix).Reachable SinkBegins s) :
    s.Handed ∧ (s.running = false → s.attached = true → s.sink.written = s.expected) := by
  have hs := handing_of_reachable hinf h
  refine ⟨hs.handed, fun hstopped hattached => ?_⟩
  obtain ⟨rest, hexpected, hrest, -⟩ := hs.handed
  rw [hrest hattached, Player.outstanding_of_pendFrames (hs.stopped hstopped),
    List.append_nil] at hexpected
  exact hexpected.symm

theorem silence_informed : silence.Informed :=
  ⟨fun _ _ => .inl rfl, fun _ _ => (by decide : (44100 : ℕ) ≠ 0)⟩

/-- The sink has taken five frames of the first 1152. -/
theorem handed_five_frames : ∃ s : Player Unit, s.pendFrames = 1152 ∧ s.sink.written.length = 5 ∧
    s.running = true ∧ s.Handed ∧
    (s.running = false → s.attached = true → s.sink.written = s.expected) := by
  let a : Answers := ⟨[(104, 104)], false, false, [], true, [3, 2]⟩
  have hnew : (machine silence).init (.new (fun _ => 0) (fun _ => 0) fun _ => 0) := ⟨_, _, _, rfl⟩
  have hbegin : (machine silence).Reachable SinkBegins _ := .step (.init hnew)
    (fun _ hno => (by cases hno)) (a := .begin (monoFrame []) false 0 quiet.dec) rfl
  have hloop : (machine silence).Reachable SinkBegins _ := .step hbegin
    (fun a ha => (by cases ha; rfl)) (a := .loop a) rfl
  exact ⟨_, by decide, by decide, by decide, handed_of_reachable silence_informed hloop⟩

end Ch32h4.Mp3
