import Ch32h4.Mp3.Equiv.Looping

/-!
# What is consumed is what the decoder took

`MP3Decode` takes a frame in when all its main data is there: from then on the bytes are in the bit
reservoir, whatever comes of them.  `decodeFrame` answers for them only if the frame decodes.  After
a main-data underflow it asks for the same frame again, and after any other error it goes on at the
byte behind the sync word, inside of the frame.

`truthful_iff_clean` is the exact condition for one call, and `ordered_of_reachable` follows the
player through a whole stream.
-/

namespace Ch32h4.Mp3

open Machine

variable {ρ : Type*} {helix : Helix ρ} {info i : DecInfo ρ} {buf mem : ℕ → UInt8} {left : ℤ}
  {outbuf pcm : Samples} {bytes inLen pcmCap off : ℕ} {d : Decoder ρ} {input : Bool}

/-- What is known of the parts of the decoder that are parameters. -/
structure Helix.Documented (helix : Helix ρ) : Prop where
  /-- A header has at least four bytes. -/
  header_le : ∀ {info buf i n}, helix.unpackFrameHeader info buf = (i, some n) → 4 ≤ n

/-! ### What is promised -/

/-- The header and the side information at a place, with the state after them and their bytes. -/
def Helix.header (helix : Helix ρ) (info : DecInfo ρ) (buf : ℕ → UInt8) (left : ℤ) :
    Option (DecInfo ρ × ℕ) :=
  let fh := helix.unpackFrameHeader info buf
  fh.2.bind fun fhBytes =>
    let si := helix.unpackSideInfo fh.1 fun i => buf (fhBytes + i)
    si.2.bind fun siBytes =>
      let r := helix.freeMode si.1 buf (fhBytes + siBytes) (left - (fhBytes + siBytes : ℕ))
      if r.2 then some (r.1, fhBytes + siBytes) else none

/-- A frame of which not all is there. -/
def Helix.Cut (helix : Helix ρ) (info : DecInfo ρ) (buf : ℕ → UInt8) (left : ℤ) : Prop :=
  ∃ i bytes, helix.header info buf left = some (i, bytes) ∧ left - bytes < i.nSlots

/-- A call that has nothing to decode from, or into, or for which a frame is not all there. -/
def Decoder.Wants (helix : Helix ρ) (d : Decoder ρ) (input : Bool) (mem : ℕ → UInt8)
    (inLen pcmCap : ℕ) : Prop :=
  d.dec = none ∨ input = false ∨ pcmCap < maxSamples ∨
  (findSyncWord mem inLen = none ∧ inLen ≤ 2) ∨
  ∃ info, d.dec = some info ∧ findSyncWord mem inLen = some 0 ∧ helix.Cut info mem inLen

/-- What is promised of a call. -/
structure Truthful (helix : Helix ρ) (d : Decoder ρ) (input : Bool) (mem : ℕ → UInt8)
    (inLen : ℕ) (pcm : Samples) (pcmCap : ℕ) : Prop where
  consumed_le : (d.decodeFrame helix input mem inLen pcm pcmCap).consumed ≤ inLen
  /-- What is in the decoder is not left for another call. -/
  covers : (d.decodeFrame helix input mem inLen pcm pcmCap).taken ≠ 0 →
    (d.decodeFrame helix input mem inLen pcm pcmCap).start +
      (d.decodeFrame helix input mem inLen pcm pcmCap).taken ≤
      (d.decodeFrame helix input mem inLen pcm pcmCap).consumed
  progress : (d.decodeFrame helix input mem inLen pcm pcmCap).consumed = 0 →
    d.Wants helix input mem inLen pcmCap

/-- The state in which the granules of a frame are decoded. -/
def filled (i : DecInfo ρ) (buf : ℕ → UInt8) (bytes : ℕ) : DecInfo ρ :=
  { i with mainBuf := i.mainBuf.drop (i.mainBuf.length - i.mainDataBegin) ++
      Helix.bytesAt buf bytes i.nSlots.toNat }

/-- A frame that is all there decodes: the reservoir goes back far enough, and nothing is wrong with
its main data. -/
def Helix.Clean (helix : Helix ρ) (info : DecInfo ρ) (buf : ℕ → UInt8) (left : ℤ)
    (outbuf : Samples) : Prop :=
  ∀ i bytes, helix.header info buf left = some (i, bytes) → i.nSlots ≤ left - bytes →
    0 ≤ i.nSlots ∧ i.mainDataBegin ≤ i.mainBuf.length ∧
      (helix.granules (filled i buf bytes) outbuf).2.2 = none

/-- **The condition**: so does the frame that a call of `decodeFrame` comes to. -/
def Decoder.Clean (helix : Helix ρ) (d : Decoder ρ) (input : Bool) (mem : ℕ → UInt8)
    (inLen : ℕ) (pcm : Samples) (pcmCap : ℕ) : Prop :=
  ∀ info off, d.dec = some info → input = true → maxSamples ≤ pcmCap →
    findSyncWord mem inLen = some off →
    helix.Clean info (fun i => mem (off + i)) (inLen - off : ℕ) pcm

/-! ### `MP3Decode` -/

theorem findSyncWord_lt (h : findSyncWord mem inLen = some off) : off + 1 < inLen := by
  have hin := List.mem_range.mp (List.mem_of_find?_eq_some h)
  omega

/-- What there is when there is a header. -/
theorem header_eq_some (h : helix.header info buf left = some (i, bytes)) :
    ∃ fh fhBytes si siBytes, bytes = fhBytes + siBytes ∧
      helix.unpackFrameHeader info buf = (fh, some fhBytes) ∧
      helix.unpackSideInfo fh (fun i => buf (fhBytes + i)) = (si, some siBytes) ∧
      helix.freeMode si buf bytes (left - bytes) = (i, true) := by
  unfold Helix.header at h
  obtain ⟨fhBytes, hfh, h⟩ := Option.bind_eq_some_iff.mp h
  obtain ⟨siBytes, hsi, h⟩ := Option.bind_eq_some_iff.mp h
  dsimp only at h
  split_ifs at h with hfree
  obtain ⟨hi, rfl⟩ := Prod.mk.inj (Option.some.inj h)
  exact ⟨_, fhBytes, _, siBytes, rfl, Prod.ext rfl hfh, Prod.ext rfl hsi, Prod.ext hi hfree⟩

theorem header_le (hdoc : helix.Documented) (h : helix.header info buf left = some (i, bytes)) :
    4 ≤ bytes := by
  obtain ⟨fh, fhBytes, si, siBytes, rfl, hfh, -, -⟩ := header_eq_some h
  have hle := hdoc.header_le hfh
  omega

/-- Without a header and side information nothing is taken in. -/
theorem decode_of_none (outbuf : Samples) (h : helix.header info buf left = none) :
    (helix.decode info buf left outbuf).taken = 0 ∧
    (helix.decode info buf left outbuf).err ≠ .none ∧
    (helix.decode info buf left outbuf).err ≠ .indataUnderflow ∧
    (helix.decode info buf left outbuf).err ≠ .maindataUnderflow := by
  unfold Helix.header at h
  unfold Helix.decode
  rcases hfh : helix.unpackFrameHeader info buf with ⟨fh, _ | fhBytes⟩
  · simp
  · rw [hfh] at h
    dsimp only [Option.bind_some] at h ⊢
    rcases hsi : helix.unpackSideInfo fh (fun i => buf (fhBytes + i)) with ⟨si, _ | siBytes⟩
    · simp
    · rw [hsi] at h
      dsimp only [Option.bind_some] at h ⊢
      split_ifs at h with hfree
      rw [if_neg hfree]
      simp

theorem decode_of_header (outbuf : Samples)
    (h : helix.header info buf left = some (i, bytes)) :
    helix.decode info buf left outbuf =
      if i.nSlots > left - bytes then
        ⟨i, .indataUnderflow, left - bytes, helix.clearBadFrame i outbuf, 0⟩
      else helix.mainData i buf bytes (left - bytes) outbuf := by
  obtain ⟨fh, fhBytes, si, siBytes, rfl, hfh, hsi, hfree⟩ := header_eq_some h
  unfold Helix.decode
  rw [hfh]
  dsimp only
  rw [hsi]
  dsimp only
  rw [hfree, if_pos rfl]

theorem mainData_taken :
    (helix.mainData i buf bytes left outbuf).taken = bytes + i.nSlots.toNat := by
  unfold Helix.mainData
  dsimp only
  split_ifs
  · split <;> rfl
  · rfl

theorem mainData_bytesLeft :
    (helix.mainData i buf bytes left outbuf).bytesLeft = left - i.nSlots := by
  unfold Helix.mainData
  dsimp only
  split_ifs
  · split <;> rfl
  · rfl

theorem mainData_err_ne : (helix.mainData i buf bytes left outbuf).err ≠ .indataUnderflow := by
  unfold Helix.mainData
  dsimp only
  split_ifs
  · split <;> simp
  · simp

theorem mainData_err_eq_none_iff (left : ℤ) : (helix.mainData i buf bytes left outbuf).err = .none ↔
    i.mainDataBegin ≤ i.mainBuf.length ∧
      (helix.granules (filled i buf bytes) outbuf).2.2 = none := by
  unfold Helix.mainData filled
  dsimp only
  split_ifs with hfar
  · split
    · next hstage => simpa [hstage] using hfar
    · next stage hstage => simp [hstage]
  · simp [hfar]

/-! ### `decodeFrame` -/

/-- A call that comes to a frame: there is a decoder and room for a frame, and a sync word. -/
structure Decoder.Reads (d : Decoder ρ) (input : Bool) (mem : ℕ → UInt8) (inLen pcmCap : ℕ)
    (info : DecInfo ρ) (off : ℕ) : Prop where
  dec : d.dec = some info
  input : input = true
  cap : maxSamples ≤ pcmCap
  sync : findSyncWord mem inLen = some off

theorem clean_iff_reads : d.Clean helix input mem inLen pcm pcmCap ↔
    ∀ info off, d.Reads input mem inLen pcmCap info off →
      helix.Clean info (fun i => mem (off + i)) (inLen - off : ℕ) pcm := by
  constructor
  · intro h info off hreads
    exact h info off hreads.dec hreads.input hreads.cap hreads.sync
  · intro h info off hdec hinput hcap hsync
    exact h info off ⟨hdec, hinput, hcap, hsync⟩

theorem Decoder.Reads.unique {info' : DecInfo ρ} {off' : ℕ}
    (h : d.Reads input mem inLen pcmCap info off) (h' : d.Reads input mem inLen pcmCap info' off') :
    info' = info ∧ off' = off := by
  constructor
  · exact Option.some.inj (h'.dec.symm.trans h.dec)
  · exact Option.some.inj (h'.sync.symm.trans h.sync)

/-- What `decodeFrame` makes of what `MP3Decode` comes to. -/
def Decoder.answered (helix : Helix ρ) (d : Decoder ρ) (off : ℕ) (before : ℤ) (r : Decoded ρ) :
    Call ρ :=
  let d := { d with dec := some r.info }
  if r.err = .indataUnderflow ∨ r.err = .maindataUnderflow then ⟨d, 0, off, r.outbuf, off, r.taken⟩
  else if r.err ≠ .none then
    ⟨{ d with errors := d.errors + 1 }, -1, off + 1, r.outbuf, off, r.taken⟩
  else
    let fi := helix.lastFrameInfo r.info
    ⟨{ d with
        rate := fi.samprate
        channels := fi.nChans
        bitrate := fi.bitrate
        frames := d.frames + 1 }, fi.outputSamps, off + (before - r.bytesLeft).toNat, r.outbuf, off,
      r.taken⟩

theorem decodeFrame_eq (helix : Helix ρ) (pcm : Samples)
    (h : d.Reads input mem inLen pcmCap info off) :
    d.decodeFrame helix input mem inLen pcm pcmCap = d.answered helix off (inLen - off : ℕ)
      (helix.decode info (fun i => mem (off + i)) (inLen - off : ℕ) pcm) := by
  have hlt := findSyncWord_lt h.sync
  have hgo : ¬(input = false ∨ inLen = 0 ∨ pcmCap < maxSamples) := by
    rw [h.input]
    have hcap := h.cap
    rintro (hin | hzero | hfew)
    · cases hin
    · omega
    · omega
  unfold Decoder.decodeFrame
  rw [h.dec]
  dsimp only
  rw [if_neg hgo, h.sync]
  rfl

theorem decodeFrame_of_reads (helix : Helix ρ) (pcm : Samples)
    (h : d.Reads input mem inLen pcmCap info off) :
    (d.decodeFrame helix input mem inLen pcm pcmCap).start = off ∧
    (d.decodeFrame helix input mem inLen pcm pcmCap).taken =
      (helix.decode info (fun i => mem (off + i)) (inLen - off : ℕ) pcm).taken ∧
    (d.decodeFrame helix input mem inLen pcm pcmCap).consumed =
      (let r := helix.decode info (fun i => mem (off + i)) (inLen - off : ℕ) pcm
      if r.err = .indataUnderflow ∨ r.err = .maindataUnderflow then off
      else if r.err ≠ .none then off + 1
      else off + (((inLen - off : ℕ) : ℤ) - r.bytesLeft).toNat) := by
  rw [decodeFrame_eq helix pcm h, Decoder.answered]
  dsimp only
  split_ifs <;> exact ⟨rfl, rfl, rfl⟩

/-- A call that comes to no frame takes nothing in, and keeps no more than what may be half a sync
word. -/
theorem truthful_of_not_reads (h : ∀ info off, ¬d.Reads input mem inLen pcmCap info off) :
    Truthful helix d input mem inLen pcm pcmCap := by
  have hcall : ∀ c, d.decodeFrame helix input mem inLen pcm pcmCap = c →
      c.consumed ≤ inLen ∧ c.taken = 0 ∧
        (c.consumed = 0 → d.Wants helix input mem inLen pcmCap) := by
    rintro _ rfl
    unfold Decoder.decodeFrame
    cases hdec : d.dec with
    | none => exact ⟨Nat.zero_le _, rfl, fun _ => .inl hdec⟩
    | some info =>
      dsimp only
      by_cases hgo : input = false ∨ inLen = 0 ∨ pcmCap < maxSamples
      · rw [if_pos hgo]
        refine ⟨Nat.zero_le _, rfl, fun _ => ?_⟩
        obtain hin | rfl | hfew := hgo
        · exact .inr (.inl hin)
        · exact .inr (.inr (.inr (.inl ⟨rfl, by omega⟩)))
        · exact .inr (.inr (.inl hfew))
      · rw [if_neg hgo]
        push Not at hgo
        cases hsync : findSyncWord mem inLen with
        | none =>
          dsimp only
          split_ifs with htwo
          · exact ⟨by omega, rfl, fun hzero => by omega⟩
          · exact ⟨Nat.zero_le _, rfl, fun _ => .inr (.inr (.inr (.inl ⟨hsync, by omega⟩)))⟩
        | some off =>
          have hinput : input = true := by simpa using hgo.1
          exact absurd ⟨hdec, hinput, hgo.2.2, hsync⟩ (h info off)
  obtain ⟨hle, htaken, hwants⟩ := hcall _ rfl
  exact ⟨hle, fun hne => absurd htaken hne, hwants⟩

/-! ### The main theorem -/

/-- Where there is no header, or not all of the frame, nothing is taken in. -/
theorem truthful_of_nothing (h : d.Reads input mem inLen pcmCap info off)
    (hpart : ∀ i bytes,
      helix.header info (fun i => mem (off + i)) (inLen - off : ℕ) = some (i, bytes) →
      ((inLen - off : ℕ) : ℤ) - bytes < i.nSlots) :
    Truthful helix d input mem inLen pcm pcmCap := by
  have hlt := findSyncWord_lt h.sync
  obtain ⟨hstart, htaken, hconsumed⟩ := decodeFrame_of_reads helix pcm h
  dsimp only at hconsumed
  cases hheader : helix.header info (fun i => mem (off + i)) (inLen - off : ℕ) with
  | none =>
    obtain ⟨hzero, hnone, hin, hmain⟩ := decode_of_none pcm hheader
    rw [if_neg (by simp [hin, hmain]), if_pos hnone] at hconsumed
    exact ⟨by omega, fun hne => absurd (htaken.trans hzero) hne, fun hstay => by omega⟩
  | some r =>
    obtain ⟨i, bytes⟩ := r
    have hcut := hpart i bytes hheader
    have hdecode := decode_of_header pcm hheader
    rw [if_pos (gt_iff_lt.mpr hcut)] at hdecode
    rw [hdecode] at htaken hconsumed
    rw [if_pos (.inl rfl)] at hconsumed
    refine ⟨by omega, fun hne => absurd htaken hne, fun hstay => ?_⟩
    obtain rfl : off = 0 := by omega
    simp only [Nat.zero_add, Nat.sub_zero] at hheader hcut
    exact .inr (.inr (.inr (.inr ⟨info, h.dec, h.sync, i, bytes, hheader, hcut⟩)))

/-- Where a frame is all there, it is taken in, and what is consumed tells whether it decodes. -/
theorem truthful_iff_of_frame (hdoc : helix.Documented)
    (h : d.Reads input mem inLen pcmCap info off)
    (hheader : helix.header info (fun i => mem (off + i)) (inLen - off : ℕ) = some (i, bytes))
    (hall : i.nSlots ≤ ((inLen - off : ℕ) : ℤ) - bytes) :
    Truthful helix d input mem inLen pcm pcmCap ↔
      0 ≤ i.nSlots ∧ i.mainDataBegin ≤ i.mainBuf.length ∧
        (helix.granules (filled i (fun i => mem (off + i)) bytes) pcm).2.2 = none := by
  have hlt := findSyncWord_lt h.sync
  have hfour := header_le hdoc hheader
  obtain ⟨hstart, htaken, hconsumed⟩ := decodeFrame_of_reads helix pcm h
  dsimp only at hconsumed
  have hdecode := decode_of_header pcm hheader
  rw [if_neg (not_lt.mpr hall)] at hdecode
  rw [hdecode] at htaken hconsumed
  rw [mainData_taken] at htaken
  rw [mainData_bytesLeft] at hconsumed
  rw [← mainData_err_eq_none_iff (((inLen - off : ℕ) : ℤ) - bytes)]
  constructor
  · -- at least the header is taken in, so that anything but a good frame is answered for too low
    intro htrue
    have hcovers := htrue.covers (by omega)
    rw [hstart, htaken, hconsumed] at hcovers
    by_cases herr : (helix.mainData i (fun i => mem (off + i)) bytes
        (((inLen - off : ℕ) : ℤ) - bytes) pcm).err = .none
    · rw [if_neg (by simp [herr]), if_neg (by simp [herr])] at hcovers
      exact ⟨by omega, herr⟩
    · split_ifs at hcovers
      · omega
      · omega
  · rintro ⟨hslots, herr⟩
    rw [if_neg (by simp [herr]), if_neg (by simp [herr])] at hconsumed
    exact ⟨by omega, fun _ => by omega, fun hstay => by omega⟩

theorem truthful_iff (hdoc : helix.Documented) :
    Truthful helix d input mem inLen pcm pcmCap ↔ d.Clean helix input mem inLen pcm pcmCap := by
  rw [clean_iff_reads]
  by_cases hreads : ∃ info off, d.Reads input mem inLen pcmCap info off
  · obtain ⟨info, off, hreads⟩ := hreads
    constructor
    · intro htrue info' off' hreads' i bytes hheader hall
      exact (truthful_iff_of_frame hdoc hreads' hheader hall).mp htrue
    · intro hclean
      by_cases hpart : ∃ (i : DecInfo ρ) (bytes : ℕ), i.nSlots ≤ ((inLen - off : ℕ) : ℤ) - bytes ∧
          helix.header info (fun i => mem (off + i)) (inLen - off : ℕ) = some (i, bytes)
      · obtain ⟨i, bytes, hall, hheader⟩ := hpart
        exact (truthful_iff_of_frame hdoc hreads hheader hall).mpr
          (hclean info off hreads i bytes hheader hall)
      · push Not at hpart
        refine truthful_of_nothing hreads fun i bytes hheader => ?_
        by_contra hall
        exact hpart i bytes (not_lt.mp hall) hheader
  · push Not at hreads
    exact iff_of_true (truthful_of_not_reads hreads) fun info off h => absurd h (hreads info off)

/-! ### Through a whole stream -/

/-- The parts of the stream that went into the decoder come one after the other, so that none of it
goes in twice. -/
structure Player.Ordered (s : Player ρ) : Prop where
  pairwise : s.fed.Pairwise fun p q => p.2 ≤ q.1
  behind : ∀ p ∈ s.fed, p.2 ≤ s.position

/-- The call of `decodeFrame` for what is in the ring is clean. -/
def Player.CallClean (helix : Helix ρ) (s : Player ρ) : Prop :=
  s.decoder.Clean helix true s.ring s.fill s.pcm maxSamples

/-- **The condition for a stream**: so is the one that a call of `loop` comes to. -/
def Player.CallsClean (helix : Helix ρ) (s : Player ρ) (act : Action ρ) : Prop :=
  ∀ a, act = .loop a → s.running = true → s.Primes a → (s.ready a).pendFrames = 0 →
    (s.ready a).CallClean helix

namespace Player

variable {s t : Player ρ}

/-- It is about the stream only. -/
theorem Ordered.of_intake (h : s.Ordered) (heq : t.intake = s.intake) : t.Ordered := by
  have hfed : t.fed = s.fed := congrArg Intake.fed heq
  have hposition : t.position = s.position := congrArg Intake.position heq
  exact ⟨hfed ▸ h.pairwise, hfed ▸ hposition ▸ h.behind⟩

theorem Ordered.fillRing (h : s.Ordered) (reads : List (ℕ × ℕ)) : (s.fillRing reads).Ordered := by
  obtain ⟨n, ring, -, -, heq⟩ := fills_fillRing s reads
  rw [heq]
  exact ⟨h.pairwise, h.behind⟩

/-- What is new begins in the ring, and ends in what leaves it. -/
theorem Ordered.consume (h : s.Ordered)
    (htrue : Truthful helix s.decoder true s.ring s.fill s.pcm maxSamples) :
    (s.consume helix).Ordered := by
  have hcovers := htrue.covers
  by_cases htaken : (s.call helix).taken = 0
  · have hfed : (s.consume helix).fed = s.fed := by
      rw [Player.consume]
      exact if_pos htaken
    refine ⟨hfed ▸ h.pairwise, fun p hp => ?_⟩
    rw [hfed] at hp
    exact (h.behind p hp).trans (Nat.le_add_right _ _)
  · have hfed : (s.consume helix).fed = s.fed ++ [(s.position + (s.call helix).start,
        s.position + (s.call helix).start + (s.call helix).taken)] := by
      rw [Player.consume]
      exact if_neg htaken
    have hend : (s.call helix).start + (s.call helix).taken ≤ (s.call helix).consumed :=
      hcovers htaken
    have hposition : (s.consume helix).position = s.position + (s.call helix).consumed := rfl
    refine ⟨?_, fun p hp => ?_⟩
    · rw [hfed, List.pairwise_append]
      refine ⟨h.pairwise, List.pairwise_singleton _ _, fun p hp q hq => ?_⟩
      obtain rfl := List.mem_singleton.mp hq
      exact (h.behind p hp).trans (Nat.le_add_right _ _)
    · rw [hfed, List.mem_append, List.mem_singleton] at hp
      rw [hposition]
      obtain hp | rfl := hp
      · exact (h.behind p hp).trans (Nat.le_add_right _ _)
      · dsimp only
        omega

theorem Ordered.ready (h : s.Ordered) (a : Answers) : (s.ready a).Ordered := by
  have hprimed : ({ s.fillRing a.reads with primed := true } : Player ρ).Ordered :=
    ⟨(h.fillRing a.reads).pairwise, (h.fillRing a.reads).behind⟩
  exact hprimed.of_intake (s.intake_ready a)

theorem Ordered.loop (hdoc : helix.Documented) (h : s.Ordered) {a : Answers}
    (hclean : s.CallsClean helix (.loop a)) : (s.loop helix a).1.Ordered := by
  cases hrun : s.running with
  | false =>
    rw [loop_of_not_running helix s hrun]
    exact h
  | true =>
    by_cases hprimes : s.Primes a
    · rw [loop_of_primes helix s hrun hprimes]
      by_cases hpend : (s.ready a).pendFrames = 0
      · rw [if_pos hpend, play]
        split_ifs
        · exact ⟨(h.ready a).pairwise, (h.ready a).behind⟩
        · have htrue := (truthful_iff hdoc).mpr (hclean a rfl hrun hprimes hpend)
          exact ((h.ready a).consume htrue).of_intake (intake_decodeOne helix _ _ _)
      · rw [if_neg hpend]
        exact h.ready a
    · rw [loop_of_not_primes helix s hrun hprimes]
      exact h.fillRing a.reads

theorem Ordered.after (hdoc : helix.Documented) (h : s.Ordered) {a : Action ρ}
    (hclean : s.CallsClean helix a) : (s.after helix a).Ordered := by
  cases a with
  | begin src sinkRunning sinkRate init =>
    obtain heq | ⟨-, d, heq | ⟨-, heq⟩⟩ := s.begin_cases src sinkRunning sinkRate init
    · rw [Player.after, heq]
      exact h
    · rw [Player.after, heq]
      exact ⟨h.pairwise, h.behind⟩
    · rw [Player.after, heq]
      exact ⟨List.Pairwise.nil, fun p hp => by cases hp⟩
  | loop a => exact h.loop hdoc hclean
  | setVolume q le => exact ⟨h.pairwise, h.behind⟩
  | finish => exact ⟨h.pairwise, h.behind⟩

end Player

theorem ordered_of_reachable (hdoc : helix.Documented) {s : Player ρ}
    (h : (machine helix).Reachable (Player.CallsClean helix) s) : s.Ordered := by
  refine Machine.invariant (I := Player.Ordered) ?_ ?_ h
  · rintro s ⟨ring, pcm, stereo, rfl⟩
    exact ⟨List.Pairwise.nil, fun p hp => nomatch hp⟩
  · intro s a s' hs hclean hstep
    obtain rfl := Option.some.inj hstep
    exact hs.after hdoc hclean

/-! ### A decoder that knows one header -/

/-- What `UnpackFrameHeader` sees of a mono frame of 32 kbit/s at 44.1 kHz, without checksum and
padding. -/
def monoHeader (buf : ℕ → UInt8) : Bool :=
  buf 0 = 0xFF && buf 1 = 0xFB && buf 2 = 0x10 && buf 3 = 0xC0

/-- The decoder as it is on such frames, whose 17 bytes of side information say how far back the
main data begins, and nothing of sound. -/
def silence : Helix Unit where
  unpackFrameHeader info buf :=
    if monoHeader buf then ({ info with bitrate := 32000, nSlots := 104 - 17 - 4 }, some 4)
    else (info, none)
  unpackSideInfo info buf :=
    ({ info with mainDataBegin := 2 * (buf 0).toNat + (buf 1).toNat / 128 }, some 17)
  findFreeSync _ _ _ := -1
  freeBitrate _ _ := 0
  checkPadBit _ := 0
  clearBadFrame _ _ := fun _ => 0
  granules info _ := (info, fun _ => 0, none)
  lastFrameInfo _ := ⟨32000, 1, 44100, 1152⟩

theorem silence_documented : silence.Documented where
  header_le := by
    intro info buf i n h
    simp only [silence] at h
    split_ifs at h
    · obtain ⟨-, hn⟩ := Prod.mk.inj h
      exact (Option.some.inj hn).le
    · cases (Prod.mk.inj h).2

/-- A decoder that has not decoded anything yet. -/
def quiet : Decoder Unit := ⟨some ⟨0, false, 0, 0, 0, [], ()⟩, 0, 0, 0, 0, 0⟩

/-- A mono frame whose main data begins as far back as its side information says. -/
def monoFrame (side : List UInt8) : List UInt8 :=
  [0xFF, 0xFB, 0x10, 0xC0] ++ side ++ List.replicate (100 - side.length) 0

/-- Some bytes in memory. -/
def inMemory (bytes : List UInt8) (i : ℕ) : UInt8 := (bytes[i]?).getD 0

/-! ### The main theorem -/

/-- **What is consumed is what was taken in, exactly where a frame that is all there decodes.**
Then no part of a stream goes into the decoder twice. -/
theorem truthful_iff_clean (hdoc : helix.Documented) :
    (∀ (d : Decoder ρ) input mem inLen pcm pcmCap,
      Truthful helix d input mem inLen pcm pcmCap ↔ d.Clean helix input mem inLen pcm pcmCap) ∧
    ∀ s, (machine helix).Reachable (Player.CallsClean helix) s → s.Ordered :=
  ⟨fun _ _ _ _ _ _ => truthful_iff hdoc, fun _ h => ordered_of_reachable hdoc h⟩

theorem truthful_first_frame :
    Truthful silence quiet true (inMemory (monoFrame [])) 104 (fun _ => 0) maxSamples := by
  refine ((truthful_iff_clean silence_documented).1 _ _ _ _ _ _).mpr ?_
  intro info off hdec _ _ hsync i bytes hheader _
  have hquiet : quiet.dec = some ⟨0, false, 0, 0, 0, [], ()⟩ := rfl
  have hzero : findSyncWord (inMemory (monoFrame [])) 104 = some 0 := by decide
  obtain rfl := Option.some.inj (hquiet.symm.trans hdec)
  obtain rfl := Option.some.inj (hzero.symm.trans hsync)
  have hsilence : silence.header ⟨0, false, 0, 0, 0, [], ()⟩
      (fun i => inMemory (monoFrame []) (0 + i)) (104 - 0 : ℕ) =
      some (⟨32000, false, 0, 83, 0, [], ()⟩, 21) := by rfl
  obtain ⟨rfl, rfl⟩ := Prod.mk.inj (Option.some.inj (hsilence.symm.trans hheader))
  exact ⟨by decide, Nat.le_refl _, rfl⟩

/-- A frame whose main data begins one byte before it, with nothing before it: after a call it is in
the reservoir, and `consumed` is zero.  A player feeds it again with each call of `loop`. -/
theorem not_truthful_of_underflow :
    (¬Truthful silence quiet true (inMemory (monoFrame [0, 0x80])) 104 (fun _ => 0) maxSamples) ∧
    ∃ s, (machine silence).Reachable anyStep s ∧ s.fed = [(0, 104), (0, 104)] := by
  constructor
  · intro h
    have hcovers := h.covers (by decide)
    revert hcovers
    decide
  · let a : Answers := ⟨[(104, 104)], false, false, [], true, []⟩
    have hnew : (machine silence).init (.new (fun _ => 0) (fun _ => 0) fun _ => 0) := ⟨_, _, _, rfl⟩
    have hbegin : (machine silence).Reachable anyStep _ := .step (.init hnew) trivial
      (a := .begin (monoFrame [0, 0x80]) false 0 quiet.dec) rfl
    refine ⟨_, .step (.step hbegin trivial (a := .loop a) rfl) trivial (a := .loop a) rfl, ?_⟩
    decide

end Ch32h4.Mp3
