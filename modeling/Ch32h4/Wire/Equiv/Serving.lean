import Ch32h4.Wire.Slave

/-!
# What the I²C slave reports and serves

A master may end what it writes with a STOP or with a repeated START.  Only the STOP is reported,
and only if it is seen before the next address; one that is seen before the last byte is read
reports too little, as `handleEvent` serves `STOPF` before `RXNE`.  The acknowledge failure at the
end of a read takes the answer to the next one away if it is served behind its address.

`answered_of_reachable` says that nothing else goes wrong.
-/

namespace Ch32h4.Wire

open Machine

variable {s t : Slave}

/-! ### What is promised -/

/-- A byte of the answer to a read. -/
def Read.byteAt (r : Read) (k : ℕ) : UInt8 := ((r.wrote.take bufferLength)[k]?).getD 0xFF

/-- A read is served what was written for it, from the first byte on. -/
def Read.Served (r : Read) : Prop := r.served = (List.range r.served.length).map r.byteAt

/-- What the bus asks for is called, once and in order, as soon as the interrupt for it is served,
and each read is served its own answer. -/
structure Slave.Faithful (s : Slave) : Prop where
  order : s.calls <+: s.due
  complete : s.i2c.addr = none → s.i2c.stopf = false → s.calls = s.due
  served : ∀ r ∈ s.reads ++ s.read.toList, r.Served

/-- **The condition**: something is written and ends with a STOP, its bytes are read before that,
the STOP is served before the next address is seen, and the end of a read before the address of the
next one is served. -/
def InTime (s : Slave) : Action → Prop
  | .address _ => s.bus = .free ∧ s.i2c.stopf = false
  | .stop => s.bus ≠ .writing [] ∧ s.i2c.rx = []
  | .event _ => s.i2c.addr = some true → s.i2c.af = false
  | _ => True

instance : ∀ s a, Decidable (InTime s a)
  | s, .address _ => inferInstanceAs (Decidable (s.bus = .free ∧ s.i2c.stopf = false))
  | s, .stop => inferInstanceAs (Decidable (s.bus ≠ .writing [] ∧ s.i2c.rx = []))
  | s, .event _ => inferInstanceAs (Decidable (s.i2c.addr = some true → s.i2c.af = false))
  | _, .byteIn _ => inferInstanceAs (Decidable True)
  | _, .byteOut => inferInstanceAs (Decidable True)
  | _, .nack => inferInstanceAs (Decidable True)
  | _, .error => inferInstanceAs (Decidable True)
  | _, .read => inferInstanceAs (Decidable True)

/-! ### The answer to a read -/

/-- The bytes that the peripheral holds for the bus. -/
def I2c.held (i2c : I2c) : ℕ := i2c.shift.toList.length + i2c.tx.toList.length

/-- The peripheral holds the next bytes of the answer, and the handler goes on behind them. -/
structure Slave.Feeds (s : Slave) (r : Read) : Prop where
  txBuf : s.txBuf = r.wrote.take bufferLength
  served : r.Served
  shift : ∀ b, s.i2c.shift = some b → b = r.byteAt r.served.length
  tx : ∀ b, s.i2c.tx = some b → s.i2c.shift ≠ none ∧ b = r.byteAt (r.served.length + 1)
  txIndex : s.txIndex = min (r.served.length + s.i2c.held) s.txBuf.length

/-- The invariant of what is read. -/
structure Slave.Feeding (s : Slave) : Prop where
  done : ∀ r ∈ s.reads, r.Served
  free : s.bus ≠ .reading → s.read = none
  addressed : s.i2c.addr = some true → s.read = none ∧ s.i2c.shift = none ∧ s.i2c.tx = none
  going : s.bus = .reading → s.i2c.addr = none →
    s.i2c.af = false ∧ ∃ r, s.read = some r ∧ s.Feeds r

/-- What the invariant of what is read looks at. -/
def Slave.answer (s : Slave) : Option Bool × Bool × Option UInt8 × Option UInt8 × Bus ×
    List UInt8 × ℕ × Option Read × List Read :=
  (s.i2c.addr, s.i2c.af, s.i2c.tx, s.i2c.shift, s.bus, s.txBuf, s.txIndex, s.read, s.reads)

theorem Slave.Feeding.of_answer (h : s.Feeding) (heq : t.answer = s.answer) : t.Feeding := by
  simp only [Slave.answer, Prod.mk.injEq] at heq
  obtain ⟨haddr, haf, htx, hshift, hbus, htxBuf, hindex, hread, hreads⟩ := heq
  have hheld : t.i2c.held = s.i2c.held := by rw [I2c.held, I2c.held, htx, hshift]
  refine ⟨?_, ?_, ?_, ?_⟩
  · rw [hreads]
    exact h.done
  · rw [hbus, hread]
    exact h.free
  · rw [haddr, hread, hshift, htx]
    exact h.addressed
  · rw [hbus, haddr, haf, hread]
    intro hreading hnone
    obtain ⟨hno, r, hr, hfeeds⟩ := h.going hreading hnone
    refine ⟨hno, r, hr, htxBuf.trans hfeeds.txBuf, hfeeds.served, ?_, ?_, ?_⟩
    · rw [hshift]
      exact hfeeds.shift
    · rw [htx, hshift]
      exact hfeeds.tx
    · rw [hindex, hheld, htxBuf]
      exact hfeeds.txIndex

theorem writeAll_eq (data : List UInt8) : s.writeAll data =
    { s with txBuf := s.txBuf ++ data.take (bufferLength - s.txBuf.length) } := by
  induction data generalizing s with
  | nil =>
    rw [Slave.writeAll, List.take_nil, List.append_nil]
  | cons b data ih =>
    rw [Slave.writeAll, Slave.write]
    by_cases hfull : bufferLength ≤ s.txBuf.length
    · rw [if_pos hfull, if_pos rfl, Nat.sub_eq_zero_of_le hfull, List.take_zero, List.append_nil]
    · rw [if_neg hfull, if_neg Nat.one_ne_zero, ih]
      have hroom : bufferLength - s.txBuf.length =
          bufferLength - (s.txBuf.length + 1) + 1 := by omega
      simp only [List.length_append, List.length_singleton, List.append_assoc, hroom,
        List.take_succ_cons, List.singleton_append]

/-- The next byte of the answer is there to be sent. -/
theorem Slave.Feeds.sendNext {r : Read} (h : s.Feeds r) (htx : s.i2c.tx = none) :
    s.sendNext.Feeds r := by
  have hbyte : ∀ i b, i = min (r.served.length + s.i2c.held + 1) s.txBuf.length →
      b = r.byteAt (r.served.length + s.i2c.held) →
      (Slave.setDATAR { s with txIndex := i } b).Feeds r := by
    rintro i b rfl rfl
    unfold Slave.setDATAR
    dsimp only
    cases hshift : s.i2c.shift with
    | none =>
      have hheld : s.i2c.held = 0 := by simp [I2c.held, hshift, htx]
      rw [if_pos rfl]
      refine ⟨h.txBuf, h.served, fun b hb => ?_, fun b hb => ?_, ?_⟩
      · obtain rfl := Option.some.inj hb
        rw [hheld, Nat.add_zero]
      · exact absurd (htx.symm.trans hb) (by simp)
      · rw [hheld]
        simp [I2c.held, htx]
    | some c =>
      have hheld : s.i2c.held = 1 := by simp [I2c.held, hshift, htx]
      rw [if_neg (by simp)]
      refine ⟨h.txBuf, h.served, fun b hb => h.shift b (hshift.trans hb), fun b hb => ?_, ?_⟩
      · obtain rfl := Option.some.inj hb
        rw [hheld]
        exact ⟨by simp, rfl⟩
      · rw [hheld]
        simp [I2c.held, Nat.add_assoc]
  unfold Slave.sendNext
  have hindex := h.txIndex
  cases hnext : s.txBuf[s.txIndex]? with
  | none =>
    have hend := List.getElem?_eq_none_iff.mp hnext
    have hsame : s = { s with txIndex := s.txIndex } := rfl
    dsimp only
    rw [hsame]
    refine hbyte s.txIndex 0xFF (by omega) ?_
    rw [Read.byteAt, ← h.txBuf, List.getElem?_eq_none (by omega)]
    rfl
  | some b =>
    have hlt : s.txIndex < s.txBuf.length := by
      by_contra hend
      rw [List.getElem?_eq_none (Nat.not_lt.mp hend)] at hnext
      cases hnext
    refine hbyte (s.txIndex + 1) b (by omega) ?_
    have hk : s.txIndex = r.served.length + s.i2c.held := by omega
    rw [Read.byteAt, ← h.txBuf, ← hk, hnext]
    rfl

theorem sendNext_eq (s : Slave) : ∃ shift tx i, s.sendNext = { s with
    i2c := { s.i2c with shift := shift, tx := tx }
    txIndex := i } := by
  have hset : ∀ i b, ∃ shift tx i', Slave.setDATAR { s with txIndex := i } b = { s with
      i2c := { s.i2c with shift := shift, tx := tx }
      txIndex := i' } := by
    intro i b
    unfold Slave.setDATAR
    dsimp only
    split_ifs
    · exact ⟨_, _, _, rfl⟩
    · exact ⟨_, _, _, rfl⟩
  unfold Slave.sendNext
  cases s.txBuf[s.txIndex]? with
  | none => exact hset s.txIndex 0xFF
  | some b => exact hset (s.txIndex + 1) b

/-- A byte of the answer is sent, and the next one moves up. -/
theorem Slave.Feeds.onBusRead {r : Read} {b : UInt8} (h : s.Feeds r)
    (hshift : s.i2c.shift = some b) :
    (s.onBusRead b).Feeds { r with served := r.served ++ [b] } := by
  have hlen : (r.served ++ [b]).length = r.served.length + 1 := by simp
  have hheld : s.i2c.held = 1 + s.i2c.tx.toList.length := by simp [I2c.held, hshift]
  refine ⟨h.txBuf, ?_, fun c hc => ?_, fun c hc => (by cases hc), ?_⟩
  · have hb := h.shift b hshift
    have hserved := h.served
    unfold Read.Served at hserved ⊢
    rw [hlen, List.range_succ, List.map_append]
    exact congrArg₂ (· ++ ·) hserved (congrArg (fun c => [c]) hb)
  · obtain ⟨-, hc⟩ := h.tx c hc
    rw [hlen]
    exact hc
  · have hindex := h.txIndex
    have hheld' : (s.onBusRead b).i2c.held = s.i2c.tx.toList.length := by
      simp [Slave.onBusRead, I2c.held]
    change s.txIndex = min ((r.served ++ [b]).length + (s.onBusRead b).i2c.held) s.txBuf.length
    rw [hlen, hheld']
    omega

/-- The slave when `_onRequest` has written its answer. -/
def Slave.answering (s : Slave) (wrote : List UInt8) : Slave :=
  { s with
    i2c := { s.i2c with addr := none }
    txBuf := wrote.take bufferLength
    txIndex := 0
    calls := s.calls ++ [.request]
    read := some ⟨wrote, []⟩ }

theorem onAddrRead_eq (s : Slave) (wrote : List UInt8) :
    s.onAddrRead wrote = (s.answering wrote).sendNext := by
  unfold Slave.onAddrRead
  dsimp only
  rw [writeAll_eq]
  rfl

/-- An answer to a read begins, with nothing of another. -/
theorem Slave.Feeding.onAddrRead (h : s.Feeding) (haddr : s.i2c.addr = some true)
    (hbus : s.bus = .reading) (haf : s.i2c.af = false) (wrote : List UInt8) :
    (s.onAddrRead wrote).Feeding := by
  obtain ⟨-, hshift, htx⟩ := h.addressed haddr
  have hfeeds : (s.answering wrote).Feeds ⟨wrote, []⟩ := by
    refine ⟨rfl, rfl, fun b hb => ?_, fun b hb => ?_, ?_⟩
    · exact absurd (hshift.symm.trans hb) (by simp)
    · exact absurd (htx.symm.trans hb) (by simp)
    · have hheld : (s.answering wrote).i2c.held = 0 := by
        simp [Slave.answering, I2c.held, hshift, htx]
      rw [hheld]
      exact (Nat.zero_min _).symm
  have hsends := hfeeds.sendNext htx
  obtain ⟨shift, tx, i, heq⟩ := sendNext_eq (s.answering wrote)
  rw [onAddrRead_eq]
  rw [heq] at hsends ⊢
  exact ⟨h.done, fun hno => absurd hbus hno, fun hno => (by cases hno),
    fun _ _ => ⟨haf, _, rfl, hsends⟩⟩

/-! ### The calls of the handlers -/

/-- So many bytes were written, of which the last may be still to be read. -/
def Slave.Reads (s : Slave) (bytes : List UInt8) : Prop :=
  ∃ got, bytes = got ++ s.i2c.rx ∧ s.rxBuf = got.take bufferLength

/-- The invariant of the calls: what is due and not called yet is what `ADDR` or `STOPF` is for. -/
structure Slave.Calling (s : Slave) : Prop where
  addressed : ∀ read, s.i2c.addr = some read → s.i2c.stopf = false ∧ s.i2c.rx = [] ∧
    s.bus = (if read then .reading else .writing []) ∧
    s.due = s.calls ++ if read then [Callback.request] else []
  stopped : s.i2c.addr = none → s.i2c.stopf = true → s.bus = .free ∧ s.i2c.rx = [] ∧
    s.rxBuf ≠ [] ∧ s.due = s.calls ++ [.receive s.rxBuf]
  going : s.i2c.addr = none → s.i2c.stopf = false → s.due = s.calls ∧
    (∀ bytes, s.bus = .writing bytes → s.Reads bytes) ∧
    ((∀ bytes, s.bus ≠ .writing bytes) → s.i2c.rx = [])

theorem Slave.Calling.onBusAddress (h : s.Calling) (haddr : s.i2c.addr = none)
    (hbus : s.bus = .free) (hstop : s.i2c.stopf = false) (read : Bool) :
    (s.onBusAddress read).Calling := by
  obtain ⟨hdue, -, hrx⟩ := h.going haddr hstop
  refine ⟨fun read' hread => ?_, fun hno => (by cases hno), fun hno => (by cases hno)⟩
  obtain rfl : read = read' := Option.some.inj hread
  refine ⟨hstop, hrx (by simp [hbus]), rfl, ?_⟩
  change s.due ++ s.bus.report ++ (if read then [Callback.request] else []) = _
  rw [hbus, hdue]
  exact congrArg (· ++ _) (List.append_nil _)

theorem Slave.Calling.onBusByte (h : s.Calling) {bytes : List UInt8} (hbus : s.bus = .writing bytes)
    (haddr : s.i2c.addr = none) (b : UInt8) : (s.onBusByte bytes b).Calling := by
  cases hstop : s.i2c.stopf with
  | true =>
    have hfree := (h.stopped haddr hstop).1
    exact absurd (hbus.symm.trans hfree) (by simp)
  | false =>
    obtain ⟨hdue, hreads, -⟩ := h.going haddr hstop
    obtain ⟨got, hgot, hbuf⟩ := hreads bytes hbus
    refine ⟨fun _ hno => absurd (haddr.symm.trans hno) (by simp),
      fun _ hno => absurd (hstop.symm.trans hno) (by simp), fun _ _ => ⟨hdue, ?_, fun hno => ?_⟩⟩
    · intro bytes' hbytes
      obtain rfl : bytes ++ [b] = bytes' := Bus.writing.inj hbytes
      refine ⟨got, ?_, hbuf⟩
      rw [hgot, List.append_assoc]
      rfl
    · exact absurd rfl (hno (bytes ++ [b]))

theorem Slave.Calling.onBusStop (h : s.Calling) {bytes : List UInt8} (hbus : s.bus = .writing bytes)
    (haddr : s.i2c.addr = none) (hbytes : bytes ≠ []) (hrx : s.i2c.rx = []) :
    s.onBusStop.Calling := by
  cases hstop : s.i2c.stopf with
  | true =>
    have hfree := (h.stopped haddr hstop).1
    exact absurd (hbus.symm.trans hfree) (by simp)
  | false =>
    obtain ⟨hdue, hreads, -⟩ := h.going haddr hstop
    obtain ⟨got, hgot, hbuf⟩ := hreads bytes hbus
    rw [hrx, List.append_nil] at hgot
    subst hgot
    refine ⟨fun _ hno => absurd (haddr.symm.trans hno) (by simp), fun _ _ => ⟨rfl, hrx, ?_, ?_⟩,
      fun _ hno => (by cases hno)⟩
    · change s.rxBuf ≠ []
      rw [hbuf]
      simpa using hbytes
    · change s.due ++ s.bus.report = s.calls ++ [.receive s.rxBuf]
      rw [hbus, hdue, hbuf]
      rfl

theorem Slave.Calling.sendNext (h : s.Calling) : s.sendNext.Calling := by
  obtain ⟨shift, tx, i, heq⟩ := sendNext_eq s
  rw [heq]
  exact ⟨h.addressed, h.stopped, h.going⟩

/-- One interrupt serves one flag, and calls what is due for it. -/
theorem Slave.Calling.handleEvent (h : s.Calling) (wrote : List UInt8) :
    (s.handleEvent wrote).Calling := by
  unfold Slave.handleEvent
  rcases haddr : s.i2c.addr with _ | read | read
  · dsimp only
    cases hstop : s.i2c.stopf with
    | true =>
      obtain ⟨hbus, hrx, hsome, hdue⟩ := h.stopped haddr hstop
      rw [if_pos rfl, Slave.onStop]
      dsimp only
      rw [if_neg hsome]
      refine ⟨fun _ hno => absurd (haddr.symm.trans hno) (by simp), fun _ hno => (by cases hno),
        fun _ _ => ⟨hdue, fun bytes hno => ?_, fun _ => hrx⟩⟩
      exact absurd (hbus.symm.trans hno) (by simp)
    | false =>
      rw [if_neg (by decide)]
      obtain ⟨hdue, hreads, hother⟩ := h.going haddr hstop
      rcases hrx : s.i2c.rx with _ | ⟨b, rest⟩
      · dsimp only
        split_ifs
        · exact h.sendNext
        · exact h
      · refine ⟨fun _ hno => absurd (haddr.symm.trans hno) (by simp),
          fun _ hno => absurd (hstop.symm.trans hno) (by simp),
          fun _ _ => ⟨hdue, fun bytes hbus => ?_, fun hno => ?_⟩⟩
        · obtain ⟨got, hgot, hbuf⟩ := hreads bytes hbus
          refine ⟨got ++ [b], ?_, ?_⟩
          · rw [hgot, hrx, List.append_assoc]
            rfl
          · change (if s.rxBuf.length < bufferLength then s.rxBuf ++ [b] else s.rxBuf) = _
            rw [hbuf, List.length_take]
            split_ifs with hroom
            · rw [List.take_of_length_le (by omega), List.take_of_length_le]
              rw [List.length_append, List.length_singleton]
              omega
            · rw [List.take_append_of_le_length (by omega)]
        · exact absurd ((hother hno).symm.trans hrx) (by simp)
  · -- an address to write to
    obtain ⟨hstop, hrx, hbus, hdue⟩ := h.addressed false haddr
    refine ⟨fun _ hno => (by cases hno), fun _ hno => absurd (hstop.symm.trans hno) (by simp),
      fun _ _ => ⟨?_, fun bytes hbytes => ⟨[], ?_, rfl⟩, fun _ => hrx⟩⟩
    · rw [if_neg (by decide), List.append_nil] at hdue
      exact hdue
    · have hempty : bytes = [] := Bus.writing.inj (hbytes.symm.trans hbus)
      rw [hempty]
      exact hrx.symm
  · -- an address to read from
    obtain ⟨hstop, hrx, hbus, hdue⟩ := h.addressed true haddr
    dsimp only
    rw [onAddrRead_eq]
    have hanswer : (s.answering wrote).Calling := by
      refine ⟨fun _ hno => (by cases hno), fun _ hno => absurd (hstop.symm.trans hno) (by simp),
        fun _ _ => ⟨hdue, fun bytes hbytes => ?_, fun _ => hrx⟩⟩
      exact absurd (hbus.symm.trans hbytes) (by simp)
    exact hanswer.sendNext

theorem Slave.Feeding.sendNext (h : s.Feeding) (haddr : s.i2c.addr = none) (hbus : s.bus = .reading)
    (htx : s.i2c.tx = none) : s.sendNext.Feeding := by
  obtain ⟨haf, r, hr, hfeeds⟩ := h.going hbus haddr
  have hsends := hfeeds.sendNext htx
  obtain ⟨shift, tx, i, heq⟩ := sendNext_eq s
  rw [heq] at hsends ⊢
  exact ⟨h.done, h.free, fun hno => absurd (haddr.symm.trans hno) (by simp),
    fun _ _ => ⟨haf, r, hr, hsends⟩⟩

theorem Slave.Feeding.handleEvent (h : s.Feeding) (hs : s.Calling) (wrote : List UInt8)
    (htime : s.i2c.addr = some true → s.i2c.af = false) : (s.handleEvent wrote).Feeding := by
  unfold Slave.handleEvent
  rcases haddr : s.i2c.addr with _ | read | read
  · dsimp only
    by_cases hstop : s.i2c.stopf = true
    · rw [if_pos hstop, Slave.onStop]
      dsimp only
      split_ifs
      · exact h.of_answer rfl
      · exact h.of_answer rfl
    · rw [if_neg hstop]
      rcases s.i2c.rx with _ | ⟨b, rest⟩
      · dsimp only
        split_ifs with hsend
        · exact h.sendNext haddr hsend.1 hsend.2
        · exact h
      · exact h.of_answer rfl
  · obtain ⟨-, -, hbus, -⟩ := hs.addressed false haddr
    refine ⟨h.done, h.free, fun hno => (by cases hno), fun hreading => ?_⟩
    exact absurd (hbus.symm.trans hreading) (by simp)
  · obtain ⟨-, -, hbus, -⟩ := hs.addressed true haddr
    exact h.onAddrRead haddr hbus (htime haddr) wrote

/-! ### The main theorem -/

theorem Slave.Feeding.step {a : Action} (h : s.Feeding) (hs : s.Calling) (htime : InTime s a)
    (hstep : s.step a = some t) : t.Feeding := by
  cases a with
  | address read =>
    rw [Slave.step] at hstep
    split_ifs at hstep with hgo
    obtain rfl := Option.some.inj hstep
    have hnone := h.free hgo.2.1
    refine ⟨h.done, fun _ => hnone, fun _ => ⟨hnone, rfl, rfl⟩, fun _ hno => (by cases hno)⟩
  | byteIn b =>
    rw [Slave.step] at hstep
    cases hbus : s.bus with
    | free => rw [hbus] at hstep; cases hstep
    | reading => rw [hbus] at hstep; cases hstep
    | writing bytes =>
      rw [hbus] at hstep
      dsimp only at hstep
      split_ifs at hstep with hgo
      obtain rfl := Option.some.inj hstep
      have hnone := h.free (by simp [hbus])
      exact ⟨h.done, fun _ => hnone, h.addressed, fun hno => (by cases hno)⟩
  | stop =>
    rw [Slave.step] at hstep
    cases hbus : s.bus with
    | free => rw [hbus] at hstep; cases hstep
    | reading => rw [hbus] at hstep; cases hstep
    | writing bytes =>
      rw [hbus] at hstep
      dsimp only at hstep
      split_ifs at hstep with hgo
      obtain rfl := Option.some.inj hstep
      have hnone := h.free (by simp [hbus])
      exact ⟨h.done, fun _ => hnone, h.addressed, fun hno => (by cases hno)⟩
  | byteOut =>
    rw [Slave.step] at hstep
    split_ifs at hstep with hgo
    obtain ⟨b, hshift, rfl⟩ := Option.map_eq_some_iff.mp hstep
    obtain ⟨haf, r, hr, hfeeds⟩ := h.going hgo.2 hgo.1
    refine ⟨h.done, fun hno => absurd hgo.2 hno, fun hno => ?_, fun _ _ => ⟨haf, _, ?_,
      hfeeds.onBusRead hshift⟩⟩
    · exact absurd (hgo.1.symm.trans hno) (by simp)
    · rw [Slave.onBusRead, hr]
      rfl
  | nack =>
    rw [Slave.step] at hstep
    split_ifs at hstep with hgo
    obtain rfl := Option.some.inj hstep
    obtain ⟨-, r, hr, hfeeds⟩ := h.going hgo.2 hgo.1
    refine ⟨fun r' hr' => ?_, fun _ => rfl, fun hno => ?_, fun hno => (by cases hno)⟩
    · change r' ∈ s.reads ++ s.read.toList at hr'
      rw [hr, List.mem_append] at hr'
      obtain hr' | hr' := hr'
      · exact h.done r' hr'
      · obtain rfl := List.mem_singleton.mp hr'
        exact hfeeds.served
    · exact absurd (hgo.1.symm.trans hno) (by simp)
  | event wrote =>
    obtain rfl := Option.some.inj hstep
    exact h.handleEvent hs wrote htime
  | error =>
    obtain rfl := Option.some.inj hstep
    unfold Slave.handleError
    split_ifs with haf
    · refine ⟨h.done, h.free, h.addressed, fun hbus haddr => ?_⟩
      obtain ⟨hno, -⟩ := h.going hbus haddr
      exact absurd (haf.symm.trans hno) (by decide)
    · exact h
  | read =>
    obtain rfl := Option.some.inj hstep
    unfold Slave.readByte
    split_ifs
    · exact h
    · exact h.of_answer rfl

theorem Slave.Calling.step {a : Action} (h : s.Calling) (htime : InTime s a)
    (hstep : s.step a = some t) : t.Calling := by
  cases a with
  | address read =>
    rw [Slave.step] at hstep
    split_ifs at hstep with hgo
    obtain rfl := Option.some.inj hstep
    exact h.onBusAddress hgo.1 htime.1 htime.2 read
  | byteIn b =>
    rw [Slave.step] at hstep
    cases hbus : s.bus with
    | free => rw [hbus] at hstep; cases hstep
    | reading => rw [hbus] at hstep; cases hstep
    | writing bytes =>
      rw [hbus] at hstep
      dsimp only at hstep
      split_ifs at hstep with hgo
      obtain rfl := Option.some.inj hstep
      exact h.onBusByte hbus hgo.1 b
  | stop =>
    rw [Slave.step] at hstep
    cases hbus : s.bus with
    | free => rw [hbus] at hstep; cases hstep
    | reading => rw [hbus] at hstep; cases hstep
    | writing bytes =>
      rw [hbus] at hstep
      dsimp only at hstep
      split_ifs at hstep with hgo
      obtain rfl := Option.some.inj hstep
      refine h.onBusStop hbus hgo.1 (fun hempty => htime.1 ?_) htime.2
      rw [hbus, hempty]
  | byteOut =>
    rw [Slave.step] at hstep
    split_ifs at hstep
    obtain ⟨b, -, rfl⟩ := Option.map_eq_some_iff.mp hstep
    exact ⟨h.addressed, h.stopped, h.going⟩
  | nack =>
    rw [Slave.step] at hstep
    split_ifs at hstep with hgo
    obtain rfl := Option.some.inj hstep
    refine ⟨fun _ hno => ?_, fun haddr hstop => ?_, fun haddr hstop => ?_⟩
    · exact absurd (hgo.1.symm.trans hno) (by simp)
    · exact absurd (hgo.2.symm.trans (h.stopped haddr hstop).1) (by simp)
    · obtain ⟨hdue, -, hrx⟩ := h.going haddr hstop
      exact ⟨hdue, fun _ hno => (by cases hno), fun _ => hrx (by simp [hgo.2])⟩
  | event wrote =>
    obtain rfl := Option.some.inj hstep
    exact h.handleEvent wrote
  | error =>
    obtain rfl := Option.some.inj hstep
    unfold Slave.handleError
    split_ifs
    · exact ⟨h.addressed, h.stopped, h.going⟩
    · exact h
  | read =>
    obtain rfl := Option.some.inj hstep
    unfold Slave.readByte
    split_ifs
    · exact h
    · exact ⟨h.addressed, h.stopped, h.going⟩

theorem invariant_of_reachable (h : machine.Reachable InTime s) : s.Calling ∧ s.Feeding := by
  refine Machine.invariant (I := fun s => s.Calling ∧ s.Feeding) ?_ ?_ h
  · rintro s rfl
    constructor
    · exact ⟨fun _ hno => (by cases hno), fun _ hno => (by cases hno),
        fun _ _ => ⟨rfl, fun _ hno => (by cases hno), fun _ => rfl⟩⟩
    · exact ⟨fun r hr => (by cases hr), fun _ => rfl, fun hno => (by cases hno),
        fun hno => (by cases hno)⟩
  · intro s a t hs htime hstep
    exact ⟨hs.1.step htime hstep, hs.2.step hs.1 htime hstep⟩

/-- **What is written is reported, and a read served its own answer**, in every run in which what is
written ends with a STOP and the interrupts are served in time. -/
theorem answered_of_reachable (h : machine.Reachable InTime s) : s.Faithful := by
  obtain ⟨hcalling, hfeeding⟩ := invariant_of_reachable h
  refine ⟨?_, fun haddr hstop => (hcalling.going haddr hstop).1.symm, fun r hr => ?_⟩
  · rcases haddr : s.i2c.addr with _ | read
    · cases hstop : s.i2c.stopf with
      | true =>
        obtain ⟨-, -, -, hdue⟩ := hcalling.stopped haddr hstop
        exact ⟨_, hdue.symm⟩
      | false =>
        obtain ⟨hserved, -⟩ := hcalling.going haddr hstop
        exact hserved ▸ List.prefix_rfl
    · obtain ⟨-, -, -, hdue⟩ := hcalling.addressed read haddr
      exact ⟨_, hdue.symm⟩
  · rw [List.mem_append, Option.mem_toList] at hr
    obtain hr | hr := hr
    · exact hfeeding.done r hr
    · by_cases hbus : s.bus = .reading
      · rcases haddr : s.i2c.addr with _ | read | read
        · obtain ⟨-, r', hr', hfeeds⟩ := hfeeding.going hbus haddr
          obtain rfl := Option.some.inj (hr'.symm.trans hr)
          exact hfeeds.served
        · obtain ⟨-, -, hwriting, -⟩ := hcalling.addressed false haddr
          exact absurd (hbus.symm.trans hwriting) (by simp)
        · exact absurd ((hfeeding.addressed haddr).1.symm.trans hr) (by simp)
      · exact absurd ((hfeeding.free hbus).symm.trans hr) (by simp)

/-- A write of two bytes, and a read of three. -/
theorem answered_write_read : ∃ s, machine.Reachable InTime s ∧
    s.calls = [.receive [1, 2], .request] ∧ s.reads = [⟨[10, 11], [10, 11, 0xFF]⟩] ∧
    s.Faithful := by
  have hrun : (machine.run InTime .started
      [.address false, .event [], .byteIn 1, .event [], .byteIn 2, .event [], .stop, .event [],
        .address true, .event [10, 11], .event [], .byteOut, .event [], .byteOut, .byteOut, .nack,
        .error]).map (fun s => (s.calls, s.reads)) =
      some ([.receive [1, 2], .request], [⟨[10, 11], [10, 11, 0xFF]⟩]) := by
    decide +kernel
  obtain ⟨s, hs, heq⟩ := Option.map_eq_some_iff.mp hrun
  obtain ⟨hcalls, hreads⟩ := Prod.mk.inj heq
  have hreachable := reachable_of_run (.init rfl) hs
  exact ⟨s, hreachable, hcalls, hreads, answered_of_reachable hreachable⟩

/-- A byte is written, and a repeated START goes on with a read, as for a register of a device: only
the request is called.  A byte is written and followed by a STOP before it is read: nothing is
called. -/
theorem not_answered_of_reachable :
    (∃ s, machine.Reachable anyStep s ∧ s.calls = [.request] ∧
      s.due = [.receive [1], .request] ∧ ¬s.Faithful) ∧
    ∃ s, machine.Reachable anyStep s ∧ s.calls = [] ∧ s.due = [.receive [1]] ∧
      s.i2c.addr = none ∧ s.i2c.stopf = false ∧ ¬s.Faithful := by
  constructor
  · have hrun : (machine.run anyStep .started
        [.address false, .event [], .byteIn 1, .event [], .address true, .event [10]]).map
        (fun s => (s.calls, s.due)) = some ([.request], [.receive [1], .request]) := by
      decide +kernel
    obtain ⟨s, hs, heq⟩ := Option.map_eq_some_iff.mp hrun
    obtain ⟨hcalls, hdue⟩ := Prod.mk.inj heq
    refine ⟨s, reachable_of_run (.init rfl) hs, hcalls, hdue, fun hfaithful => ?_⟩
    have horder := hfaithful.order
    rw [hcalls, hdue] at horder
    exact absurd horder (by decide)
  · have hrun : (machine.run anyStep .started
        [.address false, .event [], .byteIn 1, .stop, .event []]).map
        (fun s => (s.calls, s.due, s.i2c.addr, s.i2c.stopf)) =
        some ([], [.receive [1]], none, false) := by
      decide +kernel
    obtain ⟨s, hs, heq⟩ := Option.map_eq_some_iff.mp hrun
    simp only [Prod.mk.injEq] at heq
    obtain ⟨hcalls, hdue, haddr, hstop⟩ := heq
    refine ⟨s, reachable_of_run (.init rfl) hs, hcalls, hdue, haddr, hstop, fun hfaithful => ?_⟩
    have hcomplete := hfaithful.complete haddr hstop
    rw [hcalls, hdue] at hcomplete
    cases hcomplete

end Ch32h4.Wire
