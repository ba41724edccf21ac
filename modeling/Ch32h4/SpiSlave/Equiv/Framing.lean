import Ch32h4.SpiSlave.Slave

/-!
# The frames of the SPI slave

`setData` loads the first byte ahead only if the peripheral holds none, and nothing takes back the
one that it holds.  Such a byte is left over from an earlier `setData` whenever a frame was shorter
than what was queued, or there was none in between, and then goes out first in the next frame.

`separate_of_reachable` says that nothing else goes wrong: where each `setData` finds the peripheral
empty and the frame before it reported, and the interrupts are served in time, every frame is its
own.
-/

namespace Ch32h4.SpiSlave

open Machine

variable {s t : Slave}

/-! ### What is promised -/

/-- The first bytes of some data, and nothing behind its end. -/
def served (call : ℕ) (data : List UInt8) (n : ℕ) : List (Option Queued) :=
  (List.range n).map fun k => data[k]?.map (Queued.mk call)

/-- A frame behind a `setData` sends its data from the first byte on, and none of another. -/
def Frame.Fresh (f : Frame) : Prop :=
  ∀ call data, f.data = some (call, data) → f.sent = served call data f.sent.length

/-- The frames in which something was received, as they are to be reported. -/
def heard (frames : List Frame) : List (List UInt8) :=
  ((frames.map Frame.received).filter fun bytes => !bytes.isEmpty).map (List.take bufferLength)

/-- Every frame sends what it should, and is reported once with its own bytes, when the interrupt
for its end is served. -/
structure Slave.Separate (s : Slave) : Prop where
  fresh : ∀ f ∈ s.frames ++ s.frame.toList, f.Fresh
  reports : s.reports <+: heard s.frames
  complete : s.spi.rise = false → s.reports = heard s.frames

/-- **The condition**: `setData` finds the peripheral empty and the frame before it handled, and the
interrupts are served in time: a byte to send is there before the next byte begins, one that was
received is read, and the frame before handled, before the next one is over, and the last byte of a
frame is read before its end is handled. -/
def InTime (s : Slave) : Action → Prop
  | .setData data => data ≠ none → s.spi.tx = none ∧ s.spi.rise = false
  | .byteBegins => s.spi.txie = true → s.spi.tx ≠ none
  | .byteEnds _ => s.spi.rx = none ∧ s.spi.rise = false
  | .csIrq => s.spi.rx = none
  | _ => True

instance : ∀ s a, Decidable (InTime s a)
  | s, .setData data =>
    inferInstanceAs (Decidable (data ≠ none → s.spi.tx = none ∧ s.spi.rise = false))
  | s, .byteBegins => inferInstanceAs (Decidable (s.spi.txie = true → s.spi.tx ≠ none))
  | s, .byteEnds _ => inferInstanceAs (Decidable (s.spi.rx = none ∧ s.spi.rise = false))
  | s, .csIrq => inferInstanceAs (Decidable (s.spi.rx = none))
  | _, .csFall => inferInstanceAs (Decidable True)
  | _, .csRise => inferInstanceAs (Decidable True)
  | _, .irq => inferInstanceAs (Decidable True)

/-! ### What is sent -/

theorem served_succ (call : ℕ) (data : List UInt8) (n : ℕ) :
    served call data (n + 1) = served call data n ++ [data[n]?.map (Queued.mk call)] := by
  rw [served, List.range_succ, List.map_append]
  rfl

theorem length_served (call : ℕ) (data : List UInt8) (n : ℕ) :
    (served call data n).length = n := by simp [served]

/-- Where `n` bytes of some data have begun, the next one is held, or the interrupt that brings it
is to come, or there is none. -/
structure Slave.Sends (s : Slave) (call : ℕ) (data : List UInt8) (n : ℕ) : Prop where
  txBuf : s.txBuf = data.map (Queued.mk call)
  held : ∀ q, s.spi.tx = some q → data[n]?.map (Queued.mk call) = some q ∧ s.txIndex = n + 1
  empty : s.spi.tx = none → s.txIndex = min n data.length
  txie : s.txIndex < data.length → s.spi.txie = true

/-- The invariant of what is sent. -/
structure Slave.Sending (s : Slave) : Prop where
  frames : ∀ f ∈ s.frames, f.Fresh
  /-- A `setData` is waiting for a frame. -/
  waiting : ∀ call data, s.data = some (call, data) → s.spi.rise = false ∧ s.Sends call data 0
  /-- A frame has sent some bytes, and begun with another. -/
  going : ∀ f call data, s.frame = some f → f.data = some (call, data) → s.spi.rise = false ∧
    f.Fresh ∧ (s.spi.shift = none → s.Sends call data f.sent.length) ∧
    ∀ out, s.spi.shift = some out → s.Sends call data (f.sent.length + 1) ∧
      out = data[f.sent.length]?.map (Queued.mk call)
  idle : s.frame = none → s.spi.shift = none
  taken : s.frame ≠ none → s.data = none

/-- A `setData` that finds the peripheral empty loads the first byte. -/
theorem setData_eq (s : Slave) (data : List UInt8) : ∃ tx txie i,
    (s.setData (some data)).1 = { s with
      spi := { s.spi with tx := tx, txie := txie }
      txBuf := (data.take bufferLength).map (Queued.mk (s.calls + 1))
      txIndex := i
      sentFired := (data.take bufferLength).length = 0
      calls := s.calls + 1
      data := some (s.calls + 1, data.take bufferLength) } ∧
    (s.spi.tx = none → tx = (data.take bufferLength)[0]?.map (Queued.mk (s.calls + 1)) ∧
      i = min 1 (data.take bufferLength).length ∧
      (i < (data.take bufferLength).length → txie = true)) := by
  unfold Slave.setData
  dsimp only
  generalize data.take bufferLength = data
  by_cases hload : 0 < data.length ∧ s.spi.tx = none
  · rw [if_pos hload]
    simp only [Slave.load, List.length_map, List.getElem?_map]
    split_ifs with hmore
    · exact ⟨_, _, _, rfl, fun _ => ⟨rfl, by omega, fun _ => rfl⟩⟩
    · exact ⟨_, _, _, rfl, fun _ => ⟨rfl, by omega, fun hlt => absurd hlt hmore⟩⟩
  · rw [if_neg hload]
    dsimp only
    have hnone : s.spi.tx = none → data = [] := by
      intro htx
      by_contra hne
      exact hload ⟨List.length_pos_of_ne_nil hne, htx⟩
    split_ifs with hmore
    · refine ⟨_, _, _, rfl, fun htx => ?_⟩
      rw [hnone htx] at hmore
      exact absurd hmore (Nat.lt_irrefl 0)
    · refine ⟨_, _, _, rfl, fun htx => ?_⟩
      rw [htx, hnone htx]
      exact ⟨rfl, rfl, fun hno => absurd hno (Nat.lt_irrefl 0)⟩

theorem readByte_eq (s : Slave) : ∃ rx buf, s.readByte = { s with
    spi := { s.spi with rx := rx }
    rxBuf := buf } := by
  unfold Slave.readByte
  split
  · exact ⟨s.spi.rx, s.rxBuf, rfl⟩
  · exact ⟨_, _, rfl⟩

theorem writeByte_eq (s : Slave) : ∃ tx txie i fired sents, s.writeByte = { s with
    spi := { s.spi with tx := tx, txie := txie }
    txIndex := i
    sentFired := fired
    sents := sents } := by
  unfold Slave.writeByte
  by_cases hgo : s.spi.tx = none ∧ s.spi.txie = true
  · rw [if_pos hgo]
    by_cases hmore : s.txIndex < s.txBuf.length
    · rw [if_pos hmore]
      dsimp only
      split_ifs
      · exact ⟨_, _, _, _, _, rfl⟩
      · exact ⟨_, _, _, _, _, rfl⟩
    · rw [if_neg hmore]
      dsimp only
      split_ifs
      · exact ⟨s.spi.tx, _, s.txIndex, _, _, rfl⟩
      · exact ⟨s.spi.tx, s.spi.txie, s.txIndex, s.sentFired, s.sents, rfl⟩
  · rw [if_neg hgo]
    exact ⟨s.spi.tx, s.spi.txie, s.txIndex, s.sentFired, s.sents, rfl⟩

section

variable {call n : ℕ} {data : List UInt8}

theorem Slave.Sends.load (h : s.Sends call data n) (htx : s.spi.tx = none)
    (hmore : s.txIndex < s.txBuf.length) : s.load.Sends call data n := by
  have hlen : s.txBuf.length = data.length := by rw [h.txBuf, List.length_map]
  have hindex := h.empty htx
  have hn : s.txIndex = n := by omega
  have hsome : s.load.spi.tx = s.txBuf[s.txIndex]? := rfl
  have hnext : s.load.txIndex = n + 1 := congrArg (· + 1) hn
  refine ⟨h.txBuf, fun q hq => ⟨?_, hnext⟩, fun hnone => ?_, fun hlt => ?_⟩
  · rw [← hq, hsome, h.txBuf, List.getElem?_map, hn]
  · rw [hsome, List.getElem?_eq_getElem hmore] at hnone
    cases hnone
  · exact h.txie (by omega)

theorem Slave.Sends.mask (h : s.Sends call data n) (hlast : s.txBuf.length ≤ s.txIndex) :
    s.mask.Sends call data n := by
  have hlen : s.txBuf.length = data.length := by rw [h.txBuf, List.length_map]
  exact ⟨h.txBuf, h.held, h.empty, fun hlt => absurd (hlen ▸ hlast) (Nat.not_le.mpr hlt)⟩

theorem Slave.Sends.writeByte (h : s.Sends call data n) : s.writeByte.Sends call data n := by
  unfold Slave.writeByte
  by_cases hgo : s.spi.tx = none ∧ s.spi.txie = true
  · rw [if_pos hgo]
    by_cases hmore : s.txIndex < s.txBuf.length
    · rw [if_pos hmore]
      dsimp only
      split_ifs with hlast
      · exact (h.load hgo.1 hmore).mask hlast
      · exact h.load hgo.1 hmore
    · rw [if_neg hmore]
      dsimp only
      split_ifs with hlast
      · exact h.mask hlast
      · exact h
  · rw [if_neg hgo]
    exact h

theorem Slave.Sends.readByte (h : s.Sends call data n) : s.readByte.Sends call data n := by
  obtain ⟨rx, buf, heq⟩ := readByte_eq s
  rw [heq]
  exact ⟨h.txBuf, h.held, h.empty, h.txie⟩

/-- A byte begins with the next one of the data, if it is in time. -/
theorem Slave.Sends.byteBegins (h : s.Sends call data n)
    (htime : s.spi.txie = true → s.spi.tx ≠ none) :
    s.byteBegins.Sends call data (n + 1) ∧ s.spi.tx = data[n]?.map (Queued.mk call) := by
  cases htx : s.spi.tx with
  | none =>
    have hmasked : ¬s.txIndex < data.length := fun hlt => htime (h.txie hlt) htx
    have hindex := h.empty htx
    have hend : data.length ≤ n := by omega
    refine ⟨⟨h.txBuf, fun q hq => (by cases hq), fun _ => ?_, h.txie⟩, ?_⟩
    · change s.txIndex = min (n + 1) data.length
      omega
    · rw [List.getElem?_eq_none hend]
      rfl
  | some q =>
    obtain ⟨hq, hindex⟩ := h.held q htx
    have hlt : n < data.length := by
      by_contra hend
      rw [List.getElem?_eq_none (Nat.not_lt.mp hend)] at hq
      cases hq
    refine ⟨⟨h.txBuf, fun q hq => (by cases hq), fun _ => ?_, h.txie⟩, hq.symm⟩
    change s.txIndex = min (n + 1) data.length
    omega

end

theorem Slave.Sending.setData (h : s.Sending) (hframe : s.frame = none) (data : Option (List UInt8))
    (htime : data ≠ none → s.spi.tx = none ∧ s.spi.rise = false) :
    (s.setData data).1.Sending := by
  cases data with
  | none => exact h
  | some data =>
    obtain ⟨hempty, hrise⟩ := htime (by simp)
    obtain ⟨tx, txie, i, heq, hload⟩ := setData_eq s data
    obtain ⟨htx, hindex, htxie⟩ := hload hempty
    rw [heq]
    refine ⟨h.frames, fun call d hd => ?_, fun f _ _ hf => ?_, fun _ => h.idle hframe,
      fun hne => absurd hframe hne⟩
    · obtain ⟨rfl, rfl⟩ := Prod.mk.inj (Option.some.inj hd)
      refine ⟨hrise, rfl, fun q hq => ?_, fun hnone => ?_, htxie⟩
      · have hq' : (data.take bufferLength)[0]?.map (Queued.mk (s.calls + 1)) = some q :=
          htx.symm.trans hq
        refine ⟨hq', ?_⟩
        change i = 1
        have hsome : 0 < (data.take bufferLength).length := by
          by_contra hzero
          rw [List.getElem?_eq_none (Nat.not_lt.mp hzero)] at hq'
          cases hq'
        omega
      · have hnone' : (data.take bufferLength)[0]?.map (Queued.mk (s.calls + 1)) = none :=
          htx.symm.trans hnone
        change i = min 0 _
        rw [Option.map_eq_none_iff, List.getElem?_eq_none_iff] at hnone'
        omega
    · exact absurd (hframe.symm.trans hf) (by simp)

theorem Slave.Sending.csFall (h : s.Sending) (hframe : s.frame = none) : s.csFall.Sending := by
  refine ⟨h.frames, fun _ _ hd => (by cases hd), fun f call data hf hd => ?_,
    fun hne => (by cases hne), fun _ => rfl⟩
  obtain rfl := Option.some.inj hf
  obtain ⟨hrise, hsends⟩ := h.waiting call data hd
  have hsame : s.csFall.Sends call data 0 :=
    ⟨hsends.txBuf, hsends.held, hsends.empty, hsends.txie⟩
  refine ⟨hrise, fun call data _ => rfl, fun _ => hsame, fun out hout => ?_⟩
  exact absurd ((h.idle hframe).symm.trans hout) (by simp)

theorem Slave.Sending.byteBegins (h : s.Sending) (hframe : s.frame ≠ none)
    (hshift : s.spi.shift = none) (htime : s.spi.txie = true → s.spi.tx ≠ none) :
    s.byteBegins.Sending := by
  refine ⟨h.frames, fun call data hd => ?_, fun f call data hf hd => ?_,
    fun hne => absurd hne hframe, h.taken⟩
  · exact absurd ((h.taken hframe).symm.trans hd) (by simp)
  · obtain ⟨hrise, hfresh, hsends, -⟩ := h.going f call data hf hd
    obtain ⟨hnext, hout⟩ := (hsends hshift).byteBegins htime
    refine ⟨hrise, hfresh, fun hno => (by cases hno), fun out hbegun => ⟨hnext, ?_⟩⟩
    rw [← hout]
    exact (Option.some.inj hbegun).symm

theorem Slave.Sending.byteEnds (h : s.Sending) {out : Option Queued}
    (hshift : s.spi.shift = some out) (b : UInt8) : (s.byteEnds out b).Sending := by
  cases hframe : s.frame with
  | none => exact absurd ((h.idle hframe).symm.trans hshift) (by simp)
  | some f =>
    have htaken := h.taken (by simp [hframe])
    have hnew : (s.byteEnds out b).frame =
        some { f with sent := f.sent ++ [out], received := f.received ++ [b] } := by
      rw [Slave.byteEnds, hframe]
      rfl
    refine ⟨h.frames, fun call data hd => ?_, fun g call data hg hd => ?_, fun _ => rfl,
      fun _ => htaken⟩
    · exact absurd (htaken.symm.trans hd) (by simp)
    · obtain rfl := Option.some.inj (hnew.symm.trans hg)
      obtain ⟨hrise, hfresh, -, hgoing⟩ := h.going f call data hframe hd
      obtain ⟨hsends, hout⟩ := hgoing out hshift
      refine ⟨hrise, fun call' data' hd' => ?_, fun _ => ?_, fun out hno => (by cases hno)⟩
      · obtain ⟨rfl, rfl⟩ := Prod.mk.inj (Option.some.inj (hd.symm.trans hd'))
        change f.sent ++ [out] = served call data (f.sent ++ [out]).length
        rw [List.length_append, List.length_singleton, served_succ, ← hfresh call data hd, ← hout]
      · change Slave.Sends _ call data (f.sent ++ [out]).length
        rw [List.length_append, List.length_singleton]
        exact ⟨hsends.txBuf, hsends.held, hsends.empty, hsends.txie⟩

theorem Slave.Sending.csRise (h : s.Sending) {f : Frame} (hframe : s.frame = some f)
    (hshift : s.spi.shift = none) : (s.csRise f).Sending := by
  have htaken := h.taken (by simp [hframe])
  refine ⟨fun g hg => ?_, fun call data hd => ?_, fun g call data hg => (by cases hg),
    fun _ => hshift, fun hno => absurd rfl hno⟩
  · change g ∈ s.frames ++ [f] at hg
    rw [List.mem_append, List.mem_singleton] at hg
    obtain hg | rfl := hg
    · exact h.frames g hg
    · intro call data hd
      obtain ⟨-, hfresh, -⟩ := h.going g call data hframe hd
      exact hfresh call data hd
  · exact absurd (htaken.symm.trans hd) (by simp)

/-- An interrupt of the peripheral brings the next byte, and changes nothing of what is sent. -/
theorem Slave.Sending.handleIRQ (h : s.Sending) : s.handleIRQ.Sending := by
  obtain ⟨rx, buf, hread⟩ := readByte_eq s
  obtain ⟨tx, txie, i, fired, sents, hwrite⟩ := writeByte_eq s.readByte
  have hsends : ∀ {call data n}, s.Sends call data n → s.handleIRQ.Sends call data n :=
    fun h => h.readByte.writeByte
  have hframe : s.handleIRQ.frame = s.frame := by rw [Slave.handleIRQ, hwrite, hread]
  have hdata : s.handleIRQ.data = s.data := by rw [Slave.handleIRQ, hwrite, hread]
  have hframes : s.handleIRQ.frames = s.frames := by rw [Slave.handleIRQ, hwrite, hread]
  have hshift : s.handleIRQ.spi.shift = s.spi.shift := by rw [Slave.handleIRQ, hwrite, hread]
  have hrise : s.handleIRQ.spi.rise = s.spi.rise := by rw [Slave.handleIRQ, hwrite, hread]
  refine ⟨?_, ?_, ?_, ?_, ?_⟩
  · rw [hframes]
    exact h.frames
  · rw [hdata, hrise]
    intro call data hd
    obtain ⟨hlow, hwaits⟩ := h.waiting call data hd
    exact ⟨hlow, hsends hwaits⟩
  · rw [hframe, hrise, hshift]
    intro f call data hf hd
    obtain ⟨hlow, hfresh, hnone, hsome⟩ := h.going f call data hf hd
    refine ⟨hlow, hfresh, fun hno => hsends (hnone hno), fun out hout => ?_⟩
    obtain ⟨hnext, hbyte⟩ := hsome out hout
    exact ⟨hsends hnext, hbyte⟩
  · rw [hframe, hshift]
    exact h.idle
  · rw [hframe, hdata]
    exact h.taken

/-- The end of a frame is handled, and what is sent next is not there yet. -/
theorem Slave.Sending.handleCSRise (h : s.Sending) (hrise : s.spi.rise = true) :
    s.handleCSRise.Sending := by
  have hside : s.handleCSRise.frame = s.frame ∧ s.handleCSRise.data = s.data ∧
      s.handleCSRise.frames = s.frames ∧ s.handleCSRise.spi.shift = s.spi.shift := by
    unfold Slave.handleCSRise
    dsimp only
    split_ifs <;> exact ⟨rfl, rfl, rfl, rfl⟩
  obtain ⟨hframe, hdata, hframes, hshift⟩ := hside
  refine ⟨?_, ?_, ?_, ?_, ?_⟩
  · rw [hframes]
    exact h.frames
  · rw [hdata]
    intro call data hd
    exact absurd ((h.waiting call data hd).1.symm.trans hrise) (by decide)
  · rw [hframe]
    intro f call data hf hd
    exact absurd ((h.going f call data hf hd).1.symm.trans hrise) (by decide)
  · rw [hframe, hshift]
    exact h.idle
  · rw [hframe, hdata]
    exact h.taken

/-! ### What is reported -/

/-- Some bytes have come, of which the last may be still to be read. -/
structure Slave.Reads (s : Slave) (now : List UInt8) : Prop where
  all : s.spi.rx = none → s.rxBuf = now.take bufferLength
  unread : ∀ b, s.spi.rx = some b → ∃ before, now = before ++ [b] ∧
    s.rxBuf = before.take bufferLength

/-- What has come in the frame that is going on. -/
def Slave.now (s : Slave) : List UInt8 := (s.frame.map Frame.received).getD []

/-- The invariant of what is reported: the bytes of the frame that is going on are in the buffer, or
those of the last one, if its end is not handled yet. -/
structure Slave.Hearing (s : Slave) : Prop where
  going : s.spi.rise = false → s.reports = heard s.frames ∧ s.Reads s.now
  ended : s.spi.rise = true → s.now = [] ∧ ∃ last, s.Reads last ∧
    s.reports ++ (if last = [] then [] else [last.take bufferLength]) = heard s.frames

theorem heard_append (frames : List Frame) (f : Frame) : heard (frames ++ [f]) =
    heard frames ++ if f.received = [] then [] else [f.received.take bufferLength] := by
  unfold heard
  rw [List.map_append, List.filter_append, List.map_append]
  congr 1
  cases hreceived : f.received with
  | nil => simp [hreceived]
  | cons b bytes => simp [hreceived]

theorem Slave.Reads.readByte {now : List UInt8} (h : s.Reads now) : s.readByte.Reads now := by
  unfold Slave.readByte
  cases hrx : s.spi.rx with
  | none => exact h
  | some b =>
    obtain ⟨before, rfl, hbuf⟩ := h.unread b hrx
    refine ⟨fun _ => ?_, fun _ hno => (by cases hno)⟩
    dsimp only
    split_ifs with hroom
    · rw [hbuf, List.length_take] at hroom
      rw [hbuf, List.take_of_length_le (by omega), List.take_of_length_le]
      rw [List.length_append, List.length_singleton]
      omega
    · rw [hbuf, List.length_take] at hroom
      rw [hbuf, List.take_append_of_le_length (by omega)]

theorem Slave.Hearing.handleIRQ (h : s.Hearing) : s.handleIRQ.Hearing := by
  obtain ⟨rx, buf, hread⟩ := readByte_eq s
  obtain ⟨tx, txie, i, fired, sents, hwrite⟩ := writeByte_eq s.readByte
  have hreads : ∀ {now}, s.Reads now → s.handleIRQ.Reads now := by
    intro now hnow
    have hnow := hnow.readByte
    rw [Slave.handleIRQ, hwrite]
    exact ⟨hnow.all, hnow.unread⟩
  have hnow : s.handleIRQ.now = s.now := by rw [Slave.handleIRQ, hwrite, hread]; rfl
  have hframes : s.handleIRQ.frames = s.frames := by rw [Slave.handleIRQ, hwrite, hread]
  have hreports : s.handleIRQ.reports = s.reports := by rw [Slave.handleIRQ, hwrite, hread]
  have hrise : s.handleIRQ.spi.rise = s.spi.rise := by rw [Slave.handleIRQ, hwrite, hread]
  refine ⟨?_, ?_⟩
  · rw [hrise, hreports, hframes, hnow]
    intro hlow
    exact ⟨(h.going hlow).1, hreads (h.going hlow).2⟩
  · rw [hrise, hreports, hframes, hnow]
    intro hhigh
    obtain ⟨hnone, last, hlast, hheard⟩ := h.ended hhigh
    exact ⟨hnone, last, hreads hlast, hheard⟩

theorem Slave.Hearing.setData (h : s.Hearing) (data : Option (List UInt8)) :
    (s.setData data).1.Hearing := by
  cases data with
  | none => exact h
  | some data =>
    obtain ⟨tx, txie, i, heq, -⟩ := setData_eq s data
    rw [heq]
    refine ⟨fun hlow => ?_, fun hhigh => ?_⟩
    · obtain ⟨hreports, hreads⟩ := h.going hlow
      exact ⟨hreports, hreads.all, hreads.unread⟩
    · obtain ⟨hnone, last, hreads, hheard⟩ := h.ended hhigh
      exact ⟨hnone, last, ⟨hreads.all, hreads.unread⟩, hheard⟩

theorem Slave.Hearing.csFall (h : s.Hearing) (hframe : s.frame = none) : s.csFall.Hearing := by
  have hnow : s.now = [] := by
    rw [Slave.now, hframe]
    rfl
  refine ⟨fun hlow => ?_, fun hhigh => ?_⟩
  · obtain ⟨hreports, hreads⟩ := h.going hlow
    rw [hnow] at hreads
    exact ⟨hreports, hreads.all, hreads.unread⟩
  · obtain ⟨-, last, hreads, hheard⟩ := h.ended hhigh
    exact ⟨rfl, last, ⟨hreads.all, hreads.unread⟩, hheard⟩

theorem Slave.Hearing.byteBegins (h : s.Hearing) : s.byteBegins.Hearing := by
  refine ⟨fun hlow => ?_, fun hhigh => ?_⟩
  · obtain ⟨hreports, hreads⟩ := h.going hlow
    exact ⟨hreports, hreads.all, hreads.unread⟩
  · obtain ⟨hnone, last, hreads, hheard⟩ := h.ended hhigh
    exact ⟨hnone, last, ⟨hreads.all, hreads.unread⟩, hheard⟩

theorem Slave.Hearing.byteEnds (h : s.Hearing) (hframe : s.frame ≠ none) (out : Option Queued)
    (b : UInt8) (hrx : s.spi.rx = none) (hlow : s.spi.rise = false) :
    (s.byteEnds out b).Hearing := by
  obtain ⟨f, hf⟩ := Option.ne_none_iff_exists'.mp hframe
  obtain ⟨hreports, hreads⟩ := h.going hlow
  have hnow : s.now = f.received := by rw [Slave.now, hf]; rfl
  have hnew : (s.byteEnds out b).now = f.received ++ [b] := by
    rw [Slave.now, Slave.byteEnds, hf]
    rfl
  have hrx' : (s.byteEnds out b).spi.rx = some b := by
    rw [Slave.byteEnds]
    exact if_pos hrx
  refine ⟨fun _ => ⟨hreports, fun hno => ?_, fun b' hb' => ?_⟩, fun hhigh => ?_⟩
  · exact absurd (hrx'.symm.trans hno) (by simp)
  · obtain rfl := Option.some.inj (hrx'.symm.trans hb')
    refine ⟨f.received, hnew, ?_⟩
    rw [← hnow]
    exact hreads.all hrx
  · exact absurd (hlow.symm.trans hhigh) (by decide)

theorem Slave.Hearing.csRise (h : s.Hearing) {f : Frame} (hf : s.frame = some f) :
    (s.csRise f).Hearing := by
  have hnow : s.now = f.received := by rw [Slave.now, hf]; rfl
  have hframes : (s.csRise f).frames = s.frames ++ [f] := rfl
  refine ⟨fun hlow => (by cases hlow), fun _ => ⟨rfl, ?_⟩⟩
  rw [hframes, heard_append]
  cases hrise : s.spi.rise with
  | false =>
    obtain ⟨hreports, hreads⟩ := h.going hrise
    rw [hnow] at hreads
    refine ⟨f.received, ⟨hreads.all, hreads.unread⟩, ?_⟩
    rw [← hreports]
    rfl
  | true =>
    -- nothing has come since the end that is still to be handled
    obtain ⟨hnone, last, hreads, hheard⟩ := h.ended hrise
    rw [hnow] at hnone
    refine ⟨last, ⟨hreads.all, hreads.unread⟩, ?_⟩
    rw [if_pos hnone, List.append_nil]
    exact hheard

theorem Slave.Hearing.handleCSRise (h : s.Hearing) (hrise : s.spi.rise = true)
    (hrx : s.spi.rx = none) : s.handleCSRise.Hearing := by
  obtain ⟨hnone, last, hreads, hheard⟩ := h.ended hrise
  have hbuf := hreads.all hrx
  unfold Slave.handleCSRise
  dsimp only
  split_ifs with hempty
  · have hlast : last = [] := by
      rw [hempty] at hbuf
      simpa using hbuf.symm
    rw [if_pos hlast, List.append_nil] at hheard
    refine ⟨fun _ => ⟨hheard, fun _ => ?_, fun b hb => ?_⟩, fun hno => (by cases hno)⟩
    · change s.rxBuf = s.now.take bufferLength
      rw [hnone, hempty]
      rfl
    · exact absurd (hrx.symm.trans hb) (by simp)
  · have hlast : last ≠ [] := by
      rintro rfl
      exact hempty hbuf
    rw [if_neg hlast, ← hbuf] at hheard
    refine ⟨fun _ => ⟨hheard, fun _ => ?_, fun b hb => ?_⟩, fun hno => (by cases hno)⟩
    · change [] = s.now.take bufferLength
      rw [hnone]
      rfl
    · exact absurd (hrx.symm.trans hb) (by simp)

/-! ### The main theorem -/

theorem Slave.Sending.step {a : Action} (h : s.Sending) (htime : InTime s a)
    (hstep : s.step a = some t) : t.Sending := by
  cases a with
  | setData data =>
    rw [Slave.step] at hstep
    split_ifs at hstep with hframe
    obtain rfl := Option.some.inj hstep
    exact h.setData hframe data htime
  | csFall =>
    rw [Slave.step] at hstep
    split_ifs at hstep with hframe
    obtain rfl := Option.some.inj hstep
    exact h.csFall hframe
  | byteBegins =>
    rw [Slave.step] at hstep
    split_ifs at hstep with hbegins
    obtain rfl := Option.some.inj hstep
    exact h.byteBegins hbegins.1 hbegins.2 htime
  | byteEnds b =>
    obtain ⟨out, hshift, rfl⟩ := Option.map_eq_some_iff.mp hstep
    exact h.byteEnds hshift b
  | csRise =>
    rw [Slave.step] at hstep
    split_ifs at hstep with hshift
    obtain ⟨f, hframe, rfl⟩ := Option.map_eq_some_iff.mp hstep
    exact h.csRise hframe hshift
  | irq =>
    obtain rfl := Option.some.inj hstep
    exact h.handleIRQ
  | csIrq =>
    rw [Slave.step] at hstep
    split_ifs at hstep with hrise
    obtain rfl := Option.some.inj hstep
    exact h.handleCSRise hrise

theorem Slave.Hearing.step {a : Action} (h : s.Hearing) (hs : s.Sending) (htime : InTime s a)
    (hstep : s.step a = some t) : t.Hearing := by
  cases a with
  | setData data =>
    rw [Slave.step] at hstep
    split_ifs at hstep
    obtain rfl := Option.some.inj hstep
    exact h.setData data
  | csFall =>
    rw [Slave.step] at hstep
    split_ifs at hstep with hframe
    obtain rfl := Option.some.inj hstep
    exact h.csFall hframe
  | byteBegins =>
    rw [Slave.step] at hstep
    split_ifs at hstep
    obtain rfl := Option.some.inj hstep
    exact h.byteBegins
  | byteEnds b =>
    obtain ⟨out, hshift, rfl⟩ := Option.map_eq_some_iff.mp hstep
    have hframe : s.frame ≠ none := fun hnone =>
      absurd ((hs.idle hnone).symm.trans hshift) (by simp)
    exact h.byteEnds hframe out b htime.1 htime.2
  | csRise =>
    rw [Slave.step] at hstep
    split_ifs at hstep
    obtain ⟨f, hframe, rfl⟩ := Option.map_eq_some_iff.mp hstep
    exact h.csRise hframe
  | irq =>
    obtain rfl := Option.some.inj hstep
    exact h.handleIRQ
  | csIrq =>
    rw [Slave.step] at hstep
    split_ifs at hstep with hrise
    obtain rfl := Option.some.inj hstep
    exact h.handleCSRise hrise htime

theorem invariant_of_reachable (h : machine.Reachable InTime s) : s.Sending ∧ s.Hearing := by
  refine Machine.invariant (I := fun s => s.Sending ∧ s.Hearing) ?_ ?_ h
  · rintro s rfl
    constructor
    · exact ⟨fun f hf => (by cases hf), fun _ _ hd => (by cases hd),
        fun f _ _ hf => (by cases hf), fun _ => rfl, fun hno => absurd rfl hno⟩
    · exact ⟨fun _ => ⟨rfl, fun _ => rfl, fun _ hno => (by cases hno)⟩, fun hno => (by cases hno)⟩
  · intro s a t hs htime hstep
    exact ⟨hs.1.step htime hstep, hs.2.step hs.1 htime hstep⟩

/-- **Every frame is its own**, in every run in which `setData` finds the peripheral empty and the
interrupts are served in time. -/
theorem separate_of_reachable (h : machine.Reachable InTime s) : s.Separate := by
  obtain ⟨hsending, hhearing⟩ := invariant_of_reachable h
  refine ⟨fun f hf => ?_, ?_, fun hlow => (hhearing.going hlow).1⟩
  · rw [List.mem_append, Option.mem_toList] at hf
    obtain hf | hf := hf
    · exact hsending.frames f hf
    · intro call data hd
      obtain ⟨-, hfresh, -⟩ := hsending.going f call data hf hd
      exact hfresh call data hd
  · cases hrise : s.spi.rise with
    | false =>
      obtain ⟨hheard, -⟩ := hhearing.going hrise
      exact hheard ▸ List.prefix_rfl
    | true =>
      obtain ⟨-, last, -, hheard⟩ := hhearing.ended hrise
      exact ⟨_, hheard⟩

/-- A byte of a frame, with the interrupts for it. -/
def exchange (b : UInt8) : List Action := [.byteBegins, .irq, .byteEnds b, .irq]

/-- Two frames as long as what was queued for them. -/
theorem separate_two_frames : ∃ s, machine.Reachable InTime s ∧
    s.frames = [⟨some (1, [1, 2]), [some ⟨1, 1⟩, some ⟨1, 2⟩], [7, 8]⟩,
      ⟨some (2, [3]), [some ⟨2, 3⟩], [9]⟩] ∧ s.reports = [[7, 8], [9]] ∧ s.Separate := by
  have hrun : (machine.run InTime .started
      ([.setData (some [1, 2]), .csFall] ++ exchange 7 ++ exchange 8 ++ [.csRise, .csIrq] ++
        [.setData (some [3]), .csFall] ++ exchange 9 ++ [.csRise, .csIrq])).map
      (fun s => (s.frames, s.reports)) = some
      ([⟨some (1, [1, 2]), [some ⟨1, 1⟩, some ⟨1, 2⟩], [7, 8]⟩,
        ⟨some (2, [3]), [some ⟨2, 3⟩], [9]⟩], [[7, 8], [9]]) := by
    decide +kernel
  obtain ⟨s, hs, heq⟩ := Option.map_eq_some_iff.mp hrun
  obtain ⟨hframes, hreports⟩ := Prod.mk.inj heq
  have hreachable := reachable_of_run (.init rfl) hs
  exact ⟨s, hreachable, hframes, hreports, separate_of_reachable hreachable⟩

/-- Two bytes are queued for a frame of one.  The frame behind the next `setData` begins with the
one that is left, though every interrupt is served at once. -/
theorem not_separate_of_reachable : ∃ s, machine.Reachable anyStep s ∧
    s.frame = some ⟨some (2, [3]), [some ⟨1, 2⟩], [9]⟩ ∧ ¬s.Separate := by
  have hrun : (machine.run anyStep .started
      ([.setData (some [1, 2]), .csFall] ++ exchange 7 ++ [.csRise, .csIrq] ++
        [.setData (some [3]), .csFall] ++ exchange 9)).map Slave.frame =
      some (some ⟨some (2, [3]), [some ⟨1, 2⟩], [9]⟩) := by
    decide +kernel
  obtain ⟨s, hs, hframe⟩ := Option.map_eq_some_iff.mp hrun
  refine ⟨s, reachable_of_run (.init rfl) hs, hframe, fun hseparate => ?_⟩
  have hfresh := hseparate.fresh ⟨some (2, [3]), [some ⟨1, 2⟩], [9]⟩ (by rw [hframe]; simp)
  exact absurd (hfresh 2 [3] rfl) (by decide)

end Ch32h4.SpiSlave
