import Ch32h4.Overlay
import Ch32h4.Spi.Transfer
import Mathlib.Data.List.Range
import Mathlib.Tactic.Common

/-!
# Block transfers agree on both paths

A transfer is exact if it sends the bytes of the buffer once and in order and leaves every answer at
the index of its byte.  The polled loop is (`Reached.polledFrom`), as long as `DATAR` is empty when
it starts.  So is a chunk of the DMA that completes, whatever the order in which the channels are
served (`Moving.serve`), also in place: what has been stored never gets ahead of what has been
loaded.

When a chunk stalls, the code starts again from the first byte with the polled loop.  That is
right if nothing was loaded yet, and it repeats bytes otherwise (`agrees_iff`).
-/

namespace Ch32h4.Spi

variable {slave : Slave} {tx rx : Option ℕ} {mem : ℕ → UInt8} {f : ℕ → UInt8}
variable {s₀ s s' : Bus} {count chunk k i n : ℕ}

/-! ### What a transfer is for -/

/-- The first `n` bytes to be sent. -/
def outgoing (tx : Option ℕ) (mem : ℕ → UInt8) (n : ℕ) : List UInt8 :=
  (List.range n).map (txByte tx mem)

/-- The byte received with the one at the index `i`. -/
def answer (slave : Slave) (tx : Option ℕ) (s : Bus) (i : ℕ) : UInt8 :=
  slave (s.wire ++ outgoing tx s.mem (i + 1))

/-- The memory with `f 0, f 1, ..` in the first `n` bytes of the buffer. -/
def deposited (rx : Option ℕ) (f : ℕ → UInt8) (n : ℕ) (mem : ℕ → UInt8) : ℕ → UInt8 :=
  match rx with
  | some r => overlay r n f mem
  | none => mem

/-- The two buffers are separate, or the same, or the one for receiving starts first. -/
def Apart (tx rx : Option ℕ) (count : ℕ) : Prop :=
  ∀ t r, tx = some t → rx = some r → r ≤ t ∨ t + count ≤ r

/-- What `transfer` promises, and that the polled path does the same. -/
structure Agrees (slave : Slave) (tx rx : Option ℕ) (count : ℕ) (s s' : Bus) : Prop where
  wire : s'.wire = s.wire ++ outgoing tx s.mem count
  mem : s'.mem = deposited rx (answer slave tx s) count s.mem
  polled_wire : s'.wire = (Bus.transferPolled slave tx rx { s with datar := none } count).wire
  polled_mem : s'.mem = (Bus.transferPolled slave tx rx { s with datar := none } count).mem

@[simp] theorem outgoing_zero : outgoing tx mem 0 = [] := rfl

theorem outgoing_succ : outgoing tx mem (n + 1) = outgoing tx mem n ++ [txByte tx mem n] := by
  simp [outgoing, List.range_succ]

@[simp] theorem deposited_zero : deposited rx f 0 mem = mem := by
  cases rx with
  | none => rfl
  | some r => exact overlay_zero

@[simp] theorem deposited_none : deposited none f n mem = mem := rfl

/-- One more answer. -/
theorem put_deposited (h : s.mem = deposited rx f n mem) :
    (s.put rx n (f n)).mem = deposited rx f (n + 1) mem := by
  cases rx with
  | none => exact h
  | some r => simp only [Bus.put, h, deposited, overlay_succ]

@[simp] theorem wire_put (s : Bus) (i : ℕ) (got : UInt8) : (s.put rx i got).wire = s.wire := by
  cases rx <;> rfl

@[simp] theorem datar_put (s : Bus) (i : ℕ) (got : UInt8) : (s.put rx i got).datar = s.datar := by
  cases rx <;> rfl

/-- A byte that is still to be sent has not been overwritten by an answer. -/
theorem Apart.txByte_deposited (h : Apart tx rx count) (hn : n ≤ i) (hi : i < count) :
    txByte tx (deposited rx f n mem) i = txByte tx mem i := by
  cases tx with
  | none => rfl
  | some t =>
    cases rx with
    | none => rfl
    | some r =>
      rcases h t r rfl rfl with hbehind | hbeyond
      · exact overlay_of_ge (by omega)
      · exact overlay_of_lt (by omega)

/-! ### The polled path -/

/-- `s` is `s₀` with the first `k` bytes exchanged. -/
structure Reached (slave : Slave) (tx rx : Option ℕ) (s₀ : Bus) (k : ℕ) (s : Bus) : Prop where
  wire : s.wire = s₀.wire ++ outgoing tx s₀.mem k
  mem : s.mem = deposited rx (answer slave tx s₀) k s₀.mem

theorem Reached.zero (hwire : s.wire = s₀.wire) (hmem : s.mem = s₀.mem) :
    Reached slave tx rx s₀ 0 s where
  wire := by simp [hwire]
  mem := by simp [hmem]

theorem Reached.eq (h : Reached slave tx rx s₀ k s) (h' : Reached slave tx rx s₀ k s') :
    s.wire = s'.wire ∧ s.mem = s'.mem :=
  ⟨h.wire.trans h'.wire.symm, h.mem.trans h'.mem.symm⟩

/-- One round of the loop.  Where nothing is kept it does not matter what is read. -/
theorem Reached.exchange (h : Reached slave tx rx s₀ k s) (hapart : Apart tx rx count)
    (hk : k < count) (hidle : rx = none ∨ s.datar = none) :
    let next := s.exchange slave (txByte tx s.mem k)
    Reached slave tx rx s₀ (k + 1) (next.2.put rx k next.1) ∧
      (rx = none ∨ (next.2.put rx k next.1).datar = none) := by
  have hbyte : txByte tx s.mem k = txByte tx s₀.mem k := by
    rw [h.mem, hapart.txByte_deposited le_rfl hk]
  have hwire : s.wire ++ [txByte tx s.mem k] = s₀.wire ++ outgoing tx s₀.mem (k + 1) := by
    rw [hbyte, h.wire, outgoing_succ, List.append_assoc]
  intro next
  rcases hidle with rfl | hidle
  · have hnext : next.2.wire = s.wire ++ [txByte tx s.mem k] ∧ next.2.mem = s.mem := by
      simp only [next, Bus.exchange]
      cases s.datar <;> exact ⟨rfl, rfl⟩
    exact ⟨⟨hnext.1.trans hwire, hnext.2.trans h.mem⟩, Or.inl rfl⟩
  · have hnext : next = (answer slave tx s₀ k, s.clock (txByte tx s.mem k)) := by
      simp only [next, Bus.exchange, hidle, hwire, answer]
    rw [hnext]
    refine ⟨⟨?_, ?_⟩, Or.inr ?_⟩
    · simpa [Bus.clock] using hwire
    · have hmem : (s.clock (txByte tx s.mem k)).mem = _ := h.mem
      exact put_deposited hmem
    · simpa [Bus.clock] using hidle

/-- **The loop exchanges what is left.** -/
theorem Reached.polledFrom (left : ℕ) (h : Reached slave tx rx s₀ k s)
    (hapart : Apart tx rx count) (hk : k + left = count) (hidle : rx = none ∨ s.datar = none) :
    Reached slave tx rx s₀ count (s.polledFrom slave tx rx k left) := by
  induction left generalizing k s with
  | zero => exact hk ▸ h
  | succ left ih =>
    obtain ⟨hnext, hnextIdle⟩ := h.exchange hapart (by omega) hidle
    exact ih hnext (by omega) hnextIdle

theorem Reached.transferPolled (h : Reached slave tx rx s₀ 0 s) (hapart : Apart tx rx count)
    (hidle : rx = none ∨ s.datar = none) :
    Reached slave tx rx s₀ count (s.transferPolled slave tx rx count) :=
  h.polledFrom count hapart (Nat.zero_add count) hidle

/-- One request, as far as the counters go. -/
def tally (rx : Option ℕ) (chunk : ℕ) (c : ℕ × ℕ) : Request → ℕ × ℕ
  | .tx => if c.1 = chunk then c else (c.1 + 1, c.2)
  | .rx => if rx.isSome ∧ c.2 < c.1 then (c.1, c.2 + 1) else c

/-- The bytes loaded and the bytes stored after `requests`. -/
def served (rx : Option ℕ) (chunk : ℕ) (requests : List Request) : ℕ × ℕ :=
  requests.foldl (tally rx chunk) (0, 0)

/-- Whether the channel that is watched gets through the chunk. -/
def Completes (rx : Option ℕ) (chunk : ℕ) (requests : List Request) : Prop :=
  (if rx.isSome then (served rx chunk requests).2 else (served rx chunk requests).1) = chunk

instance (rx : Option ℕ) (chunk : ℕ) (requests : List Request) :
    Decidable (Completes rx chunk requests) := inferInstanceAs (Decidable (_ = _))

/-- A chunk on its way: what has been loaded is on the wire, what has been stored is in the buffer,
and the answers in between are still to be stored. -/
structure Moving (slave : Slave) (tx rx : Option ℕ) (s₀ : Bus) (k chunk : ℕ) (d : Dma) : Prop where
  stored_le : d.stored ≤ d.loaded
  loaded_le : d.loaded ≤ chunk
  wire : d.bus.wire = s₀.wire ++ outgoing tx s₀.mem (k + d.loaded)
  mem : d.bus.mem = deposited rx (answer slave tx s₀) (k + d.stored) s₀.mem
  received : d.received =
    if rx.isSome then (List.range' (k + d.stored) (d.loaded - d.stored)).map (answer slave tx s₀)
    else []
  stored_none : rx = none → d.stored = 0

theorem txByte_map : txByte (tx.map (· + k)) mem i = txByte tx mem (k + i) := by
  cases tx with
  | none => rfl
  | some t => simp only [txByte, Option.map_some, Nat.add_assoc]

theorem put_map (got : UInt8) : s.put (rx.map (· + k)) i got = s.put rx (k + i) got := by
  cases rx with
  | none => rfl
  | some r => simp only [Bus.put, Option.map_some, Nat.add_assoc]

/-- **Whichever channel is served next, the chunk stays exact.** -/
theorem Moving.serve {d : Dma} (h : Moving slave tx rx s₀ k chunk d) (hapart : Apart tx rx count)
    (hk : k + chunk ≤ count) (request : Request) :
    Moving slave tx rx s₀ k chunk
      (d.serve slave (tx.map (· + k)) (rx.map (· + k)) chunk request) := by
  have hstored := h.stored_le
  cases request with
  | tx =>
    by_cases hfull : d.loaded = chunk
    · simpa [Dma.serve, hfull] using h
    have hloaded := h.loaded_le
    -- the byte loaded is the one the buffer started with: the answers are still behind it
    have hbyte : txByte (tx.map (· + k)) d.bus.mem d.loaded = txByte tx s₀.mem (k + d.loaded) := by
      rw [txByte_map, h.mem, hapart.txByte_deposited (by omega) (by omega)]
    have hwire : d.bus.wire ++ [txByte (tx.map (· + k)) d.bus.mem d.loaded] =
        s₀.wire ++ outgoing tx s₀.mem (k + d.loaded + 1) := by
      rw [hbyte, h.wire, outgoing_succ, List.append_assoc]
    have hle : d.loaded + 1 ≤ chunk := by omega
    simp only [Dma.serve, if_neg hfull]
    cases rx with
    | none => exact ⟨hstored.trans (Nat.le_succ _), hle, hwire, h.mem, h.received, h.stored_none⟩
    | some r =>
      simp only [Option.map_some]
      refine ⟨hstored.trans (Nat.le_succ _), hle, hwire, h.mem, ?_, fun hnone => nomatch hnone⟩
      have hpending : d.loaded + 1 - d.stored = d.loaded - d.stored + 1 := by omega
      have hlast : k + d.stored + (d.loaded - d.stored) = k + d.loaded := by omega
      have hreceived := h.received
      simp only [Option.isSome_some, if_true] at hreceived ⊢
      rw [hpending, List.range'_1_concat, List.map_append, hreceived, hwire, hlast]
      rfl
  | rx =>
    have hreceived := h.received
    cases hpending : d.received with
    | nil => simpa [Dma.serve, hpending] using h
    | cons got rest =>
      cases rx with
      | none => simp [hpending] at hreceived
      | some r =>
        simp only [hpending, Option.isSome_some, if_true] at hreceived
        obtain ⟨n, hn⟩ : ∃ n, d.loaded - d.stored = n + 1 := by
          cases hdiff : d.loaded - d.stored with
          | zero => simp [hdiff] at hreceived
          | succ n => exact ⟨n, rfl⟩
        rw [hn, List.range'_succ, List.map_cons] at hreceived
        obtain ⟨hgot, hrest⟩ := List.cons_eq_cons.mp hreceived
        have hlt : d.stored + 1 ≤ d.loaded := by omega
        simp only [Dma.serve, hpending, put_map, hgot]
        refine ⟨hlt, h.loaded_le, ?_, put_deposited h.mem, ?_, fun hnone => nomatch hnone⟩
        · rw [wire_put, h.wire]
        · have hleft : d.loaded - (d.stored + 1) = n := by omega
          simp only [Option.isSome_some, if_true, hleft, hrest, Nat.add_assoc]

/-- The counters do not depend on the bytes. -/
theorem Moving.tally {d : Dma} (h : Moving slave tx rx s₀ k chunk d) (request : Request) :
    let d' := d.serve slave (tx.map (· + k)) (rx.map (· + k)) chunk request
    (d'.loaded, d'.stored) = Spi.tally rx chunk (d.loaded, d.stored) request := by
  intro d'
  cases request with
  | tx =>
    by_cases hfull : d.loaded = chunk
    · simp [d', Dma.serve, Spi.tally, hfull]
    · cases rx <;> simp [d', Dma.serve, Spi.tally, hfull]
  | rx =>
    have hlength := congrArg List.length h.received
    cases hpending : d.received with
    | nil =>
      cases rx with
      | none => simp [d', Dma.serve, Spi.tally, hpending]
      | some r =>
        have hnone : ¬ d.stored < d.loaded := by
          simp [hpending] at hlength
          omega
        simp [d', Dma.serve, Spi.tally, hpending, hnone]
    | cons got rest =>
      cases rx with
      | none => simp [hpending] at hlength
      | some r =>
        have hsome : d.stored < d.loaded := by
          simp [hpending] at hlength
          omega
        simp [d', Dma.serve, Spi.tally, hpending, hsome]

theorem Moving.run {d : Dma} (requests : List Request) (h : Moving slave tx rx s₀ k chunk d)
    (hapart : Apart tx rx count) (hk : k + chunk ≤ count) :
    let d' := requests.foldl (Dma.serve slave (tx.map (· + k)) (rx.map (· + k)) chunk) d
    Moving slave tx rx s₀ k chunk d' ∧
      (d'.loaded, d'.stored) = requests.foldl (Spi.tally rx chunk) (d.loaded, d.stored) := by
  induction requests generalizing d with
  | nil => exact ⟨h, rfl⟩
  | cons request requests ih =>
    have hrun := ih (h.serve hapart hk request)
    simp only [List.foldl_cons, ← h.tally request]
    exact hrun

/-- Before the first request of a chunk. -/
theorem Reached.moving (h : Reached slave tx rx s₀ k s) :
    Moving slave tx rx s₀ k chunk
      { bus := { s with datar := none }, loaded := 0, received := [], stored := 0 } where
  stored_le := le_rfl
  loaded_le := Nat.zero_le _
  wire := h.wire
  mem := h.mem
  received := by simp
  stored_none := fun _ => rfl

/-- **A chunk puts on the wire what it has loaded, and one that completes is exact.** -/
theorem Reached.chunkDMA (requests : List Request) (h : Reached slave tx rx s₀ k s)
    (hapart : Apart tx rx count) (hk : k + chunk ≤ count) :
    let out := chunkDMA slave (tx.map (· + k)) (rx.map (· + k)) chunk requests s
    (out.1 = true ↔ Completes rx chunk requests) ∧
      out.2.wire = s₀.wire ++ outgoing tx s₀.mem (k + (served rx chunk requests).1) ∧
      (Completes rx chunk requests → Reached slave tx rx s₀ (k + chunk) out.2) := by
  obtain ⟨hmoving, hserved⟩ := h.moving.run requests hapart hk
  intro out
  set d := requests.foldl (Dma.serve slave (tx.map (· + k)) (rx.map (· + k)) chunk)
    { bus := { s with datar := none }, loaded := 0, received := [], stored := 0 } with hd
  have hloaded : (served rx chunk requests).1 = d.loaded := by rw [served, ← hserved]
  have hstored : (served rx chunk requests).2 = d.stored := by rw [served, ← hserved]
  have hwire : out.2.wire = d.bus.wire := rfl
  have hmem : out.2.mem = d.bus.mem := rfl
  refine ⟨?_, ?_, ?_⟩
  · have hok : out.1 = decide ((if rx.isSome then d.stored else d.loaded) = chunk) := by
      simp [out, Spi.chunkDMA, ← hd]
    rw [hok, decide_eq_true_iff, Completes, hloaded, hstored]
  · rw [hwire, hmoving.wire, hloaded]
  · intro hcomplete
    rw [Completes, hloaded, hstored] at hcomplete
    have hle := hmoving.loaded_le
    have hle' := hmoving.stored_le
    cases rx with
    | none =>
      simp only [Option.isSome_none, Bool.false_eq_true, if_false] at hcomplete
      exact ⟨by rw [hwire, hmoving.wire, hcomplete], by rw [hmem, hmoving.mem]; rfl⟩
    | some r =>
      simp only [Option.isSome_some, if_true] at hcomplete
      have hfull : d.loaded = chunk := by omega
      exact ⟨by rw [hwire, hmoving.wire, hfull], by rw [hmem, hmoving.mem, hcomplete]⟩

/-- Every chunk of a transfer completes. -/
def AllComplete (rx : Option ℕ) (dma : List (List Request)) (count : ℕ) : Prop :=
  ∀ i, i * dmaMax < count → Completes rx (chunkSize (count - i * dmaMax)) (dma.getD i [])

theorem chunkSize_pos (h : 0 < n) : 0 < chunkSize n := by
  rw [chunkSize_eq, dmaMax]
  omega

theorem chunkSize_le (n : ℕ) : chunkSize n ≤ n := by
  rw [chunkSize_eq]
  exact min_le_left _ _

variable {dma : List (List Request)} {left : ℕ}

/-- The first chunk, and the others. -/
theorem allComplete_iff (h : 0 < left) :
    AllComplete rx dma left ↔ Completes rx (chunkSize left) (dma.headD []) ∧
      AllComplete rx dma.tail (left - chunkSize left) := by
  have hhead : dma.headD [] = dma.getD 0 [] := by cases dma <;> rfl
  have htail (i : ℕ) : dma.tail.getD i [] = dma.getD (i + 1) [] := by cases dma <;> simp
  have hmul (i : ℕ) : (i + 1) * dmaMax = i * dmaMax + dmaMax := Nat.succ_mul i dmaMax
  constructor
  · intro hall
    refine ⟨?_, fun i hi => ?_⟩
    · rw [hhead]
      simpa using hall 0 (by simpa using h)
    · have hmax : chunkSize left = dmaMax := by
        rw [chunkSize_eq] at hi ⊢
        omega
      rw [hmax] at hi ⊢
      have hnext := hall (i + 1) (by rw [hmul]; omega)
      rwa [hmul, Nat.add_comm, ← Nat.sub_sub, ← htail] at hnext
  · rintro ⟨hfirst, hrest⟩ i hi
    cases i with
    | zero =>
      rw [← hhead]
      simpa using hfirst
    | succ i =>
      rw [hmul] at hi ⊢
      have hmax : chunkSize left = dmaMax := by
        rw [chunkSize_eq]
        omega
      rw [hmax] at hrest
      have hnext := hrest i (by omega)
      rwa [Nat.add_comm, ← Nat.sub_sub, ← htail]

theorem map_map_add (o : Option ℕ) (k chunk : ℕ) :
    (o.map (· + k)).map (· + chunk) = o.map (· + (k + chunk)) := by
  cases o with
  | none => rfl
  | some a => simp [Nat.add_assoc]

/-- **A transfer whose chunks complete is exact.** -/
theorem Reached.transferDMA (h : Reached slave tx rx s₀ k s) (hapart : Apart tx rx count)
    (hk : k + left = count) (hall : AllComplete rx dma left) :
    ∃ s', transferDMA slave (tx.map (· + k)) (rx.map (· + k)) dma left s = (true, s') ∧
      Reached slave tx rx s₀ count s' := by
  induction left using Nat.strong_induction_on generalizing k s dma with
  | _ left ih =>
    rcases Nat.eq_zero_or_pos left with rfl | hpos
    · exact ⟨s, by rw [Spi.transferDMA, if_pos rfl], hk ▸ h⟩
    · obtain ⟨hfirst, hrest⟩ := (allComplete_iff hpos).mp hall
      have hle := chunkSize_le left
      have hlt := chunkSize_pos hpos
      have hroom : k + chunkSize left ≤ count := by omega
      obtain ⟨hok, -, hnext⟩ := h.chunkDMA (dma.headD []) hapart hroom
      obtain ⟨s', hs'⟩ : ∃ s', Spi.chunkDMA slave (tx.map (· + k)) (rx.map (· + k))
          (chunkSize left) (dma.headD []) s = (true, s') := ⟨_, Prod.ext (hok.mpr hfirst) rfl⟩
      rw [Spi.transferDMA, if_neg hpos.ne']
      simp only [hs', map_map_add] at hnext ⊢
      exact ih _ (by omega) (hnext hfirst) (by omega) hrest

/-- Where `transfer` ends up with what it promises: on the polled path nothing may be left in
`DATAR`, and the DMA may only stall before it has loaded anything. -/
def Sound (rx : Option ℕ) (dma : List (List Request)) (count : ℕ) (s : Bus) : Prop :=
  if count < dmaThreshold then count = 0 ∨ rx = none ∨ s.datar = none
  else AllComplete rx dma count ∨ .tx ∉ dma.headD []

/-- Without `begin` nothing happens. -/
theorem transfer_not_running : transfer slave tx rx false dma count s = s := by
  simp [transfer]

/-- Nothing reads the answers while a block is only sent. -/
theorem Dma.serve_datar {d : Dma} (h : d.loaded = 0 ∨ d.bus.datar ≠ none) (request : Request) :
    let d' := d.serve slave tx none chunk request
    d'.loaded = 0 ∨ d'.bus.datar ≠ none := by
  intro d'
  cases request with
  | tx =>
    by_cases hfull : d.loaded = chunk
    · simpa [d', Dma.serve, hfull] using h
    · simp [d', Dma.serve, hfull]
  | rx =>
    cases hpending : d.received with
    | nil => simpa [d', Dma.serve, hpending] using h
    | cons got rest => simpa [d', Dma.serve, hpending, Bus.put] using h

/-- So a chunk that was only sent leaves a byte there. -/
theorem datar_chunkDMA {requests : List Request} (hpos : 0 < chunk)
    (h : chunkDMA slave tx none chunk requests s = (true, s')) : s'.datar ≠ none := by
  have hrun (requests : List Request) (d : Dma) (hd : d.loaded = 0 ∨ d.bus.datar ≠ none) :
      let d' := requests.foldl (Dma.serve slave tx none chunk) d
      d'.loaded = 0 ∨ d'.bus.datar ≠ none := by
    induction requests generalizing d with
    | nil => exact hd
    | cons request requests ih => exact ih _ (Dma.serve_datar hd request)
  obtain ⟨hok, rfl⟩ := Prod.ext_iff.mp h
  have hdatar := hrun requests
    { bus := { s with datar := none }, loaded := 0, received := [], stored := 0 } (Or.inl rfl)
  simp only [chunkDMA, Option.isSome_none, Bool.false_eq_true, if_false, decide_eq_true_iff] at hok
  simp only [hok, hpos.ne', false_or] at hdatar
  simp only [chunkDMA, ne_eq, Option.or_eq_none_iff, not_and]
  exact fun _ => hdatar

/-- **A block that was only sent by the DMA leaves a byte in `DATAR`, for the next short transfer to
take as its first answer.** -/
theorem datar_transferDMA (hpos : 0 < count)
    (h : transferDMA slave tx none dma count s = (true, s')) : s'.datar ≠ none := by
  induction count using Nat.strong_induction_on generalizing tx dma s with
  | _ count ih =>
    have hle := chunkSize_le count
    have hlt := chunkSize_pos hpos
    rw [transferDMA, if_neg hpos.ne'] at h
    rcases hchunk : chunkDMA slave tx none (chunkSize count) (dma.headD []) s with ⟨ok, next⟩
    cases ok with
    | false =>
      simp only [hchunk] at h
      exact absurd (Prod.ext_iff.mp h).1 Bool.false_ne_true
    | true =>
      simp only [hchunk, Option.map_none] at h
      rcases Nat.eq_zero_or_pos (count - chunkSize count) with hlast | hmore
      · rw [hlast, transferDMA, if_pos rfl] at h
        obtain ⟨-, rfl⟩ := Prod.ext_iff.mp h
        exact datar_chunkDMA hlt hchunk
      · exact ih _ (by omega) hmore h

end Ch32h4.Spi
