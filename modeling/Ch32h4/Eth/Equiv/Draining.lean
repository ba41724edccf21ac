import Ch32h4.Eth.Receive

/-!
# The receive path loses no frame

`received_of_reachable`: whenever a frame waits in a descriptor, the flag is set, or the interrupt
has yet to set it, or a drain is under way that gets to that descriptor; and the descriptors are
consumed in the order in which the DMA has completed them, each once, and given back.

Completions, reads and returns are counted from the start.  The descriptor of a count is its
residue, so the ring is the window of the completions that were not given back yet, and the DMA
owns the rest of it.
-/

namespace Ch32h4.Eth

open Circular Machine

/-! ### Calls -/

/-- In the loop of `eth_rx_drain`. -/
def Pc.draining : Pc → Bool
  | .polling | .examining | .filling _ | .input | .handing | .advancing => true
  | _ => false

/-- Between setting `in_rx` and clearing it. -/
def Pc.inside : Pc → Bool
  | .reading | .guarding | .entering => false
  | _ => true

/-- One descriptor has been read since `eth_rx_cur` moved on. -/
def Pc.behind : Pc → ℕ
  | .filling _ | .input | .handing | .advancing => 1
  | _ => 0

/-- One descriptor has been given back since `eth_rx_cur` moved on. -/
def Pc.handed : Pc → ℕ
  | .advancing => 1
  | _ => 0

/-- A call from inside lwIP does not get past `in_rx`. -/
def Guarded : List Pc → Bool → Prop
  | [], in_rx => in_rx = false
  | [pc], in_rx => in_rx = pc.inside
  | [pc, outer], in_rx => (pc = .reading ∨ pc = .guarding) ∧ outer = .input ∧ in_rx = true
  | _, _ => False

/-- Where the outermost call is. -/
def System.outermost (s : System) : Pc := s.calls.getLast?.getD .reading

/-- The accesses that the handler has yet to make. -/
def Irq.rest : Irq → List Access
  | .acting rest => rest
  | _ => []

/-- Where a receive interrupt is acknowledged the flag is set afterwards. -/
def Recorded : List Access → Prop
  | [] => True
  | a :: rest => (a = .ackRs → .setRxPending ∈ rest) ∧ Recorded rest

theorem recorded_ethIrqHandler (status : Dmasr) : Recorded (ethIrqHandler status) := by
  obtain ⟨rs, ts, physr, rbus⟩ := status
  cases rs <;> cases ts <;> cases physr <;> cases rbus <;>
    simp [ethIrqHandler, Dmasr.nis, Dmasr.ais, Recorded]

/-- A handler that finds a receive interrupt sets the flag. -/
theorem setRxPending_mem {status : Dmasr} (hrs : status.rs = true) :
    .setRxPending ∈ ethIrqHandler status := by
  unfold ethIrqHandler Dmasr.nis
  rw [hrs]
  exact List.mem_append_left _ (List.mem_append_left _ (List.mem_append_left _
    (List.mem_append_left _ (List.mem_cons_of_mem _ List.mem_cons_self))))

/-! ### The ring -/

/-- The ring, when the drain is at `pc` and has left `k` descriptors behind. -/
structure Window (s : System) (pc : Pc) (k : ℕ) : Prop where
  cur : s.cur = k % rxDescNum
  dma : s.dma = s.completed.length % rxDescNum
  length : s.examined.length = k + pc.behind
  returned : s.returned = (List.range (k + pc.handed)).map (· % rxDescNum)
  examined : s.examined <+: s.completed
  room : s.completed.length ≤ s.returned.length + rxDescNum
  /-- What was not given back is in the ring. -/
  holds : Holds s.ring rxDescNum s.returned.length (s.completed.drop s.returned.length)
  /-- The rest of the ring belongs to the DMA. -/
  owned : ∀ j, s.completed.length ≤ j → j < s.returned.length + rxDescNum →
    (s.ring (j % rxDescNum)).status.own = true
  done : ∀ d ∈ s.completed, d.status.own = false

section

variable {s s' : System} {pc pc' : Pc} {k : ℕ}

theorem handed_le_behind (pc : Pc) : pc.handed ≤ pc.behind := by
  cases pc <;> simp [Pc.handed, Pc.behind]

theorem Window.length_returned (h : Window s pc k) : s.returned.length = k + pc.handed := by
  rw [h.returned, List.length_map, List.length_range]

theorem Window.returned_le (h : Window s pc k) : s.returned.length ≤ s.completed.length := by
  have hle := handed_le_behind pc
  have hprefix := h.examined.length_le
  rw [h.length_returned]
  rw [h.length] at hprefix
  omega

/-- A completion that was not given back is in the ring. -/
theorem Window.ring_eq (h : Window s pc k) {j : ℕ} {d : Descriptor} (hj : s.returned.length ≤ j)
    (hd : s.completed[j]? = some d) : s.ring (j % rxDescNum) = d := by
  have hmem := h.holds (j - s.returned.length) d
  rw [List.getElem?_drop, show s.returned.length + (j - s.returned.length) = j by omega] at hmem
  exact hmem hd

/-- Where the DMA still owns a descriptor of the window, it is beyond what was completed. -/
theorem Window.not_own (h : Window s pc k) {j : ℕ} (hj : s.returned.length ≤ j)
    (hlt : j < s.completed.length) : (s.ring (j % rxDescNum)).status.own = false := by
  rw [h.ring_eq hj (List.getElem?_eq_getElem hlt)]
  exact h.done _ (List.getElem_mem hlt)

/-- Every descriptor of the ring is in the window. -/
theorem exists_count (r : ℕ) {i : ℕ} (hi : i < rxDescNum) :
    ∃ j, r ≤ j ∧ j < r + rxDescNum ∧ j % rxDescNum = i := by
  unfold rxDescNum at *
  exact ⟨r + (i + 12 - r % 12) % 12, by omega, by omega, by omega⟩

theorem concat_length {α : Type*} (xs : List α) (x : α) : (xs ++ [x]).length = xs.length + 1 := by
  rw [List.length_append, List.length_singleton]

/-- A prefix goes on with the element that comes next. -/
theorem concat_prefix {α : Type*} {xs ys : List α} {y : α} (h : xs <+: ys)
    (hy : ys[xs.length]? = some y) : xs ++ [y] <+: ys := by
  obtain ⟨zs, rfl⟩ := h
  rw [List.getElem?_append_right (Nat.le_refl _), Nat.sub_self] at hy
  cases zs with
  | nil => cases hy
  | cons z zs =>
    rw [← Option.some.inj hy]
    exact ⟨zs, by rw [List.append_assoc, List.singleton_append]⟩

/-- **The DMA completes a descriptor.** -/
theorem Window.complete (h : Window s pc k) (status : Status) (buffer : List UInt8)
    (hown : (s.ring s.dma).status.own = true) : Window (s.complete status buffer) pc k := by
  have hle := h.returned_le
  have hroom : s.completed.length < s.returned.length + rxDescNum := by
    refine lt_of_le_of_ne h.room fun hfull => ?_
    have hlt : s.returned.length < s.completed.length := hfull ▸ Nat.lt_add_of_pos_right (by decide)
    rw [h.dma, hfull, Nat.add_mod_right, h.not_own (Nat.le_refl _) hlt] at hown
    cases hown
  have hlen : (s.completed.drop s.returned.length).length =
      s.completed.length - s.returned.length := List.length_drop
  refine ⟨h.cur, ?_, h.length, h.returned, h.examined.trans (List.prefix_append _ _), ?_, ?_,
    fun j hj hlt => ?_, fun d hd => ?_⟩
  · show (s.dma + 1) % rxDescNum = (s.completed ++ [_]).length % rxDescNum
    rw [h.dma, concat_length, Nat.mod_add_mod]
  · show (s.completed ++ [_]).length ≤ s.returned.length + rxDescNum
    rw [concat_length]
    exact hroom
  · show Holds (Function.update s.ring s.dma _) rxDescNum s.returned.length
      ((s.completed ++ [_]).drop s.returned.length)
    rw [List.drop_append_of_le_length hle, h.dma,
      show s.completed.length = s.returned.length +
        (s.completed.drop s.returned.length).length by omega]
    exact h.holds.push (by omega)
  · replace hj : (s.completed ++ [_]).length ≤ j := hj
    rw [concat_length] at hj
    show (Function.update s.ring s.dma _ (j % rxDescNum)).status.own = true
    have hlap : j < s.completed.length + rxDescNum :=
      Nat.lt_of_lt_of_le hlt (Nat.add_le_add_right hle _)
    rw [h.dma, Function.update_of_ne (mod_ne_mod hj hlap).symm]
    exact h.owned j (Nat.le_of_succ_le hj) hlt
  · rcases List.mem_append.mp hd with hd | hd
    · exact h.done d hd
    · rw [List.mem_singleton.mp hd]

/-- The drain has come to a descriptor that is complete. -/
theorem Window.lt_completed (h : Window s pc k) (hbehind : pc.behind = 0)
    (hown : (s.ring s.cur).status.own = false) : s.examined.length < s.completed.length := by
  have hlength := h.length
  have hhanded := handed_le_behind pc
  have hreturned := h.length_returned
  by_contra hge
  have htrue := h.owned k (by omega) (by unfold rxDescNum; omega)
  rw [← h.cur, hown] at htrue
  cases htrue

/-- The descriptor at hand. -/
theorem Window.ring_cur (h : Window s pc k) (hhanded : pc.handed = 0)
    (hlt : k < s.completed.length) : s.ring s.cur = s.completed[k] := by
  have hreturned := h.length_returned
  rw [h.cur]
  exact h.ring_eq (by omega) (List.getElem?_eq_getElem hlt)

/-- What the window does not mention may change. -/
theorem Window.frame (h : Window s pc k)
    (hpc : (pc'.behind, pc'.handed) = (pc.behind, pc.handed))
    (hs : (s'.ring, s'.dma, s'.cur, s'.completed, s'.examined, s'.returned) =
      (s.ring, s.dma, s.cur, s.completed, s.examined, s.returned)) : Window s' pc' k := by
  simp only [Prod.mk.injEq] at hpc hs
  obtain ⟨hbehind, hhanded⟩ := hpc
  obtain ⟨hring, hdma, hcur, hcompleted, hexamined, hreturned⟩ := hs
  refine ⟨?_, ?_, ?_, ?_, ?_, ?_, ?_, ?_, ?_⟩
  · exact hcur ▸ h.cur
  · exact hdma ▸ hcompleted ▸ h.dma
  · rw [hexamined, hbehind]
    exact h.length
  · rw [hreturned, hhanded]
    exact h.returned
  · exact hexamined ▸ hcompleted ▸ h.examined
  · exact hcompleted ▸ hreturned ▸ h.room
  · rw [hring, hreturned, hcompleted]
    exact h.holds
  · rw [hring, hreturned, hcompleted]
    exact h.owned
  · exact hcompleted ▸ h.done

/-- **The drain reads a descriptor.** -/
theorem Window.examine (h : Window s pc k) (hpc : (pc.behind, pc.handed) = (0, 0))
    (hown : (s.ring s.cur).status.own = false) :
    Window { s with examined := s.examined ++ [s.ring s.cur] } .handing k := by
  simp only [Prod.mk.injEq] at hpc
  have hlength := h.length
  have hlt := h.lt_completed hpc.1 hown
  obtain rfl : k = s.examined.length := by omega
  refine ⟨h.cur, h.dma, ?_, ?_, ?_, h.room, h.holds, h.owned, h.done⟩
  · show (s.examined ++ [_]).length = _
    rw [concat_length]
    rfl
  · show s.returned = _
    rw [h.returned, hpc.2]
    rfl
  · show s.examined ++ [s.ring s.cur] <+: s.completed
    rw [h.ring_cur hpc.2 hlt]
    exact concat_prefix h.examined (List.getElem?_eq_getElem hlt)

/-- **It gives the descriptor back.** -/
theorem Window.hand (h : Window s .handing k) :
    Window { s with
      ring := Function.update s.ring s.cur (s.ring s.cur).handBack,
      returned := s.returned ++ [s.cur] } .advancing k := by
  have hlength : s.examined.length = k + 1 := h.length
  have hreturned : s.returned.length = k := h.length_returned
  have hlt : k < s.completed.length := by
    have := h.examined.length_le
    omega
  refine ⟨h.cur, h.dma, h.length, ?_, h.examined, ?_, ?_, fun j hj hlt => ?_, h.done⟩
  · show s.returned ++ [s.cur] = (List.range (k + 1)).map (· % rxDescNum)
    rw [List.range_succ, List.map_append, h.returned, h.cur]
    rfl
  · show s.completed.length ≤ (s.returned ++ [_]).length + rxDescNum
    rw [concat_length]
    exact Nat.le_trans h.room (by omega)
  · show Holds (Function.update s.ring s.cur _) rxDescNum (s.returned ++ [_]).length
      (s.completed.drop (s.returned ++ [_]).length)
    have hholds := h.holds
    have hroom := h.room
    rw [hreturned] at hholds hroom
    rw [List.drop_eq_getElem_cons hlt] at hholds
    rw [concat_length, hreturned, h.cur]
    refine hholds.tail.update_behind (Nat.lt_succ_self k) ?_
    rw [List.length_drop]
    omega
  · replace hlt : j < (s.returned ++ [_]).length + rxDescNum := hlt
    rw [concat_length, hreturned] at hlt
    show (Function.update s.ring s.cur _ (j % rxDescNum)).status.own = true
    rw [h.cur]
    by_cases hlap : j = k + rxDescNum
    · rw [hlap, Nat.add_mod_right, Function.update_self]
      rfl
    · have hkj : k < j := Nat.lt_of_lt_of_le ‹k < s.completed.length› hj
      rw [Function.update_of_ne (mod_ne_mod hkj (by omega)).symm]
      exact h.owned j hj (by omega)

/-- **It moves on.** -/
theorem Window.advance (h : Window s .advancing k) :
    Window { s with cur := (s.cur + 1) % rxDescNum } .polling (k + 1) := by
  refine ⟨?_, h.dma, h.length, h.returned, h.examined, h.room, h.holds, h.owned, h.done⟩
  show (s.cur + 1) % rxDescNum = (k + 1) % rxDescNum
  rw [h.cur, Nat.mod_add_mod]

/-! ### What lwIP gets -/

/-- The frame in a descriptor, if the drain hands one on. -/
def Descriptor.frame (maxPacketSize : ℕ) (d : Descriptor) : Option (List UInt8) :=
  (d.status.length maxPacketSize).map fun len => d.buffer.take len

/-- lwIP has been given no frame twice, and none out of order; the one at hand may follow. -/
def Delivered (maxPacketSize : ℕ) (s : System) : Pc → Prop
  | .filling len => ∃ past d, s.examined = past ++ [d] ∧ s.ring s.cur = d ∧
      d.status.length maxPacketSize = some len ∧
      s.delivered.Sublist (past.filterMap (Descriptor.frame maxPacketSize))
  | _ => s.delivered.Sublist (s.examined.filterMap (Descriptor.frame maxPacketSize))

theorem Delivered.frame {maxPacketSize : ℕ} (h : Delivered maxPacketSize s pc)
    (hs : (s'.ring, s'.cur, s'.examined, s'.delivered) =
      (s.ring, s.cur, s.examined, s.delivered)) : Delivered maxPacketSize s' pc := by
  simp only [Prod.mk.injEq] at hs
  obtain ⟨hring, hcur, hexamined, hdelivered⟩ := hs
  unfold Delivered at h ⊢
  rw [hring, hcur, hexamined, hdelivered]
  exact h

/-- Reading one more descriptor leaves room for what it holds. -/
theorem sublist_concat {α β : Type*} {xs : List α} {ys : List β} {f : α → Option β} {x : α}
    (h : ys.Sublist (xs.filterMap f)) : ys.Sublist ((xs ++ [x]).filterMap f) := by
  rw [List.filterMap_append]
  exact h.trans (List.sublist_append_left _ _)

/-! ### The invariant -/

/-- The interrupt is pending or running, with the event still to be recorded. -/
def Pending (s : System) : Prop := s.dmasr.rs = true ∨ .setRxPending ∈ s.irq.rest

structure Sound (maxPacketSize : ℕ) (s : System) : Prop where
  guarded : Guarded s.calls s.in_rx
  window : ∃ k, Window s s.outermost k
  ahead : s.outermost = .examining → s.examined.length < s.completed.length
  recorded : Recorded s.irq.rest
  wake : ∀ j d, s.examined.length ≤ j → s.completed[j]? = some d → d.status.ls = true →
    s.rx_pending = true ∨ Pending s ∨ s.outermost.draining = true
  delivered : Delivered maxPacketSize s s.outermost

variable {maxPacketSize : ℕ}

/-- The DMA does not touch the descriptor at hand. -/
theorem Delivered.complete (h : Delivered maxPacketSize s pc) (hwindow : Window s pc k)
    (status : Status) (buffer : List UInt8) (hown : (s.ring s.dma).status.own = true) :
    Delivered maxPacketSize (s.complete status buffer) pc := by
  cases pc with
  | filling len =>
    obtain ⟨past, d, hexamined, hring, hlen, hsub⟩ := h
    refine ⟨past, d, hexamined, ?_, hlen, hsub⟩
    show Function.update s.ring s.dma _ s.cur = d
    rw [Function.update_of_ne ?_, hring]
    rintro heq
    have hmem : d ∈ s.examined := by
      rw [hexamined]
      exact List.mem_append_right _ (List.mem_singleton_self d)
    rw [← heq, hring, hwindow.done d (hwindow.examined.subset hmem)] at hown
    cases hown
  | _ => exact h

theorem Sound.complete (h : Sound maxPacketSize s) (status : Status) (buffer : List UInt8)
    (hown : (s.ring s.dma).status.own = true) :
    Sound maxPacketSize (s.complete status buffer) := by
  obtain ⟨k, hwindow⟩ := h.window
  refine ⟨h.guarded, ⟨k, hwindow.complete status buffer hown⟩, fun hpc => ?_, h.recorded,
    fun j d hj hd hls => ?_, h.delivered.complete hwindow status buffer hown⟩
  · show s.examined.length < (s.completed ++ [_]).length
    rw [concat_length]
    exact Nat.lt_succ_of_lt (h.ahead hpc)
  · replace hd : (s.completed ++ [_])[j]? = some d := hd
    by_cases hlt : j < s.completed.length
    · rw [List.getElem?_append_left hlt] at hd
      obtain hset | (hrs | hmem) | hdraining := h.wake j d hj hd hls
      · exact .inl hset
      · refine .inr (.inl (.inl ?_))
        show (s.dmasr.rs || status.ls) = true
        rw [hrs, Bool.true_or]
      · exact .inr (.inl (.inr hmem))
      · exact .inr (.inr hdraining)
    · rw [List.getElem?_append_right (Nat.not_lt.mp hlt)] at hd
      have hlast : d = ⟨{ status with own := false }, buffer⟩ :=
        List.mem_singleton.mp (List.mem_of_getElem? hd)
      refine .inr (.inl (.inl ?_))
      show (s.dmasr.rs || status.ls) = true
      rw [hlast] at hls
      rw [show status.ls = true from hls, Bool.or_true]

/-- An access of the handler. -/
theorem Sound.access (h : Sound maxPacketSize s) {a : Access} {rest : List Access}
    (hirq : s.irq = .acting (a :: rest)) :
    Sound maxPacketSize { s.access a with irq := .acting rest } := by
  obtain ⟨k, hwindow⟩ := h.window
  have hrecorded := h.recorded
  have hwake := h.wake
  unfold Pending at hwake
  rw [hirq] at hrecorded hwake
  have hpending (hnot : a ≠ .ackRs) (hnot' : a ≠ .setRxPending)
      (hmem : s.dmasr.rs = true ∨ .setRxPending ∈ a :: rest) :
      s.dmasr.rs = true ∨ .setRxPending ∈ rest :=
    hmem.imp_right fun hmem => (List.mem_cons.mp hmem).resolve_left (Ne.symm hnot')
  cases a with
  | ackRs =>
    exact ⟨h.guarded, ⟨k, hwindow.frame rfl rfl⟩, h.ahead, hrecorded.2,
      fun _ _ _ _ _ => .inr (.inl (.inr (hrecorded.1 rfl))), h.delivered.frame rfl⟩
  | setRxPending =>
    exact ⟨h.guarded, ⟨k, hwindow.frame rfl rfl⟩, h.ahead, hrecorded.2, fun _ _ _ _ _ => .inl rfl,
      h.delivered.frame rfl⟩
  | ackTs | ackPhysr | ackRbus | ackNis | ackAis | setLinkEvent | countRxBufUnavail =>
    exact ⟨h.guarded, ⟨k, hwindow.frame rfl rfl⟩, h.ahead, hrecorded.2, fun j d hj hd hls =>
      (hwake j d hj hd hls).imp_right (.imp_left (hpending nofun nofun)),
      h.delivered.frame rfl⟩

/-- What the foreground does while no handler runs. -/
theorem Sound.of_idle (hidle : s'.irq = .idle) (hguarded : Guarded s'.calls s'.in_rx)
    (hwindow : Window s' s'.outermost k)
    (hahead : s'.outermost = .examining → s'.examined.length < s'.completed.length)
    (hwake : s'.outermost.draining = true ∨ ∀ j d, s'.examined.length ≤ j →
      s'.completed[j]? = some d → d.status.ls = true → s'.rx_pending = true ∨ Pending s')
    (hdelivered : Delivered maxPacketSize s' s'.outermost) : Sound maxPacketSize s' := by
  refine ⟨hguarded, ⟨k, hwindow⟩, hahead, ?_, fun j d hj hd hls => ?_, hdelivered⟩
  · rw [hidle]
    trivial
  · obtain hdraining | hwake := hwake
    · exact .inr (.inr hdraining)
    · exact (hwake j d hj hd hls).imp_right .inl

/-- Outside of the loop something is to come for a frame that waits. -/
theorem Sound.wake_outside (h : Sound maxPacketSize s) (hpc : s.outermost.draining = false)
    (j : ℕ) (d : Descriptor) (hj : s.examined.length ≤ j) (hd : s.completed[j]? = some d)
    (hls : d.status.ls = true) : s.rx_pending = true ∨ Pending s := by
  obtain hset | hpending | hdraining := h.wake j d hj hd hls
  · exact .inl hset
  · exact .inr hpending
  · rw [hpc] at hdraining
    cases hdraining

/-- A call goes on to an access that changes nothing but the call and `in_rx`. -/
theorem Sound.skip (h : Sound maxPacketSize s) (hidle : s.irq = .idle)
    (hpc : s.outermost.draining = false) (calls : List Pc) (in_rx : Bool)
    (hguarded : Guarded calls in_rx)
    (hpc' : (calls.getLast?.getD .reading).draining = false) :
    Sound maxPacketSize { s with calls, in_rx } := by
  obtain ⟨k, hwindow⟩ := h.window
  have hdelivered := h.delivered
  have hat (pc : Pc) (hpc : pc.draining = false) : (pc.behind, pc.handed) = (0, 0) ∧
      pc ≠ .examining ∧ ∀ s, Delivered maxPacketSize s pc =
        s.delivered.Sublist (s.examined.filterMap (Descriptor.frame maxPacketSize)) := by
    cases pc with
    | polling | examining | filling | input | handing | advancing => cases hpc
    | _ => exact ⟨rfl, nofun, fun _ => rfl⟩
  obtain ⟨hzero, -, heq⟩ := hat _ hpc
  obtain ⟨hzero', hnot, heq'⟩ := hat _ hpc'
  refine .of_idle hidle hguarded (hwindow.frame (hzero'.trans hzero.symm) rfl)
    (fun hexamining => absurd hexamining hnot) (.inr (h.wake_outside hpc)) ?_
  show Delivered maxPacketSize _ (calls.getLast?.getD .reading)
  rw [heq']
  rw [heq] at hdelivered
  exact hdelivered

/-- **The outermost call goes on.** -/
theorem Sound.run_single (h : Sound maxPacketSize s) (hidle : s.irq = .idle)
    (hcalls : s.calls = [pc]) (ok : Bool) :
    Sound maxPacketSize (s.access_rx maxPacketSize [] ok pc) := by
  have hpc : s.outermost = pc := by
    unfold System.outermost
    rw [hcalls]
    rfl
  have hguarded := h.guarded
  rw [hcalls] at hguarded
  obtain ⟨k, hwindow⟩ := h.window
  have hahead := h.ahead
  have hdelivered := h.delivered
  rw [hpc] at hwindow hahead hdelivered
  cases pc with
  | reading =>
    unfold System.access_rx
    dsimp only
    split_ifs
    · exact h.skip hidle (hpc ▸ rfl) [.guarding] s.in_rx hguarded rfl
    · exact h.skip hidle (hpc ▸ rfl) [] s.in_rx hguarded rfl
  | guarding =>
    unfold System.access_rx
    dsimp only
    split_ifs
    · exact h.skip hidle (hpc ▸ rfl) [] s.in_rx hguarded rfl
    · exact h.skip hidle (hpc ▸ rfl) [.entering] s.in_rx hguarded rfl
  | entering => exact h.skip hidle (hpc ▸ rfl) [.clearing] true rfl rfl
  | clearing =>
    exact .of_idle hidle hguarded (hwindow.frame rfl rfl) nofun (.inl rfl) (hdelivered.frame rfl)
  | polling =>
    unfold System.access_rx
    dsimp only
    split_ifs with hown
    · refine .of_idle hidle hguarded (hwindow.frame rfl rfl) nofun
        (.inr fun j d hj hd _ => ?_) (hdelivered.frame rfl)
      have hlength : s.examined.length = k := hwindow.length
      have hreturned : s.returned.length = k := hwindow.length_returned
      have hlt : j < s.completed.length := (List.getElem?_eq_some_iff.mp hd).1
      replace hj : s.examined.length ≤ j := hj
      rw [hwindow.cur, hwindow.not_own (by omega) (by omega)] at hown
      cases hown
    · refine .of_idle hidle hguarded (hwindow.frame rfl rfl) (fun _ => ?_) (.inl rfl)
        (hdelivered.frame rfl)
      exact hwindow.lt_completed rfl (Bool.eq_false_iff.mpr hown)
  | examining =>
    have hlt := hahead rfl
    have hlength : s.examined.length = k := hwindow.length
    have hreturned : s.returned.length = k := hwindow.length_returned
    have hown : (s.ring s.cur).status.own = false := by
      rw [hwindow.cur]
      exact hwindow.not_own (by omega) (by omega)
    have hexamine := hwindow.examine rfl hown
    unfold System.access_rx
    dsimp only
    cases hlen : (s.ring s.cur).status.length maxPacketSize with
    | none =>
      exact .of_idle hidle hguarded (hexamine.frame rfl rfl) nofun (.inl rfl)
        (sublist_concat hdelivered)
    | some len =>
      exact .of_idle hidle hguarded (hexamine.frame rfl rfl) nofun (.inl rfl)
        ⟨s.examined, s.ring s.cur, rfl, rfl, hlen, hdelivered⟩
  | filling len =>
    obtain ⟨past, d, hexamined, hring, hlen, hsub⟩ := hdelivered
    unfold System.access_rx
    dsimp only
    split_ifs
    · refine .of_idle hidle hguarded (hwindow.frame rfl rfl) nofun (.inl rfl) ?_
      show (s.delivered ++ [(s.ring s.cur).buffer.take len]).Sublist (s.examined.filterMap _)
      have hframe : d.frame maxPacketSize = some (d.buffer.take len) := by
        unfold Descriptor.frame
        rw [hlen]
        rfl
      rw [hexamined, hring, List.filterMap_append, List.filterMap_cons, hframe]
      exact hsub.append (List.Sublist.refl _)
    · refine .of_idle hidle hguarded (hwindow.frame rfl rfl) nofun (.inl rfl) ?_
      show s.delivered.Sublist (s.examined.filterMap _)
      rw [hexamined]
      exact sublist_concat hsub
  | input =>
    unfold System.access_rx
    dsimp only
    split_ifs <;>
      exact .of_idle hidle hguarded (hwindow.frame rfl rfl) nofun (.inl rfl)
        (hdelivered.frame rfl)
  | handing =>
    exact .of_idle hidle hguarded (hwindow.hand.frame rfl rfl) nofun (.inl rfl) hdelivered
  | advancing =>
    exact .of_idle hidle hguarded (hwindow.advance.frame rfl rfl) nofun (.inl rfl) hdelivered
  | demanding => exact h.skip hidle (hpc ▸ rfl) [.leaving] s.in_rx hguarded rfl
  | leaving => exact h.skip hidle (hpc ▸ rfl) [] false rfl rfl

/-- A call from inside lwIP returns. -/
theorem Sound.run_nested (h : Sound maxPacketSize s) (hidle : s.irq = .idle)
    (hpc : pc = .reading ∨ pc = .guarding) (hin : s.in_rx = true) (hcalls : s.calls = [pc, .input])
    (ok : Bool) : Sound maxPacketSize (s.access_rx maxPacketSize [.input] ok pc) := by
  have hinput : s.outermost = .input := by
    unfold System.outermost
    rw [hcalls]
    rfl
  obtain ⟨k, hwindow⟩ := h.window
  have hdelivered := h.delivered
  rw [hinput] at hwindow hdelivered
  have hmove (calls : List Pc) (hlast : calls.getLast? = some .input)
      (hguarded : Guarded calls s.in_rx) : Sound maxPacketSize { s with calls } := by
    have houter : ({ s with calls } : System).outermost = .input := by
      unfold System.outermost
      rw [show ({ s with calls } : System).calls = calls from rfl, hlast]
      rfl
    refine .of_idle hidle hguarded (k := k) ?_ ?_ (.inl ?_) ?_
    · rw [houter]
      exact hwindow.frame rfl rfl
    · rw [houter]
      exact nofun
    · rw [houter]
      rfl
    · rw [houter]
      exact hdelivered.frame rfl
  obtain rfl | rfl := hpc
  · unfold System.access_rx
    dsimp only
    split_ifs
    · exact hmove [.guarding, .input] rfl ⟨.inr rfl, rfl, hin⟩
    · exact hmove [.input] rfl hin
  · unfold System.access_rx
    dsimp only
    rw [if_pos hin]
    exact hmove [.input] rfl hin

/-! ### Steps and runs -/

/-- The forms that the calls can have. -/
theorem Guarded.cases {outer : List Pc} {in_rx : Bool} (h : Guarded (pc :: outer) in_rx) :
    outer = [] ∨ ((pc = .reading ∨ pc = .guarding) ∧ outer = [.input] ∧ in_rx = true) := by
  match outer, h with
  | [], _ => exact .inl rfl
  | [_], ⟨hpc, rfl, hin⟩ => exact .inr ⟨hpc, rfl, hin⟩

theorem of_interrupt (hstep : step maxPacketSize s .interrupt = some s') :
    s.irq = .idle ∧ s' = { s with irq := .entered } := by
  unfold Eth.step at hstep
  dsimp only at hstep
  cases hirq : s.irq with
  | idle =>
    rw [hirq] at hstep
    dsimp only at hstep
    split_ifs at hstep
    exact ⟨rfl, (Option.some.inj hstep).symm⟩
  | entered | acting =>
    rw [hirq] at hstep
    cases hstep

theorem of_irq (hstep : step maxPacketSize s .irq = some s') :
    (s.irq = .entered ∧ s' = { s with irq := .acting (ethIrqHandler s.dmasr) }) ∨
      (s.irq = .acting [] ∧ s' = { s with irq := .idle }) ∨
      ∃ a rest, s.irq = .acting (a :: rest) ∧ s' = { s.access a with irq := .acting rest } := by
  unfold Eth.step at hstep
  dsimp only at hstep
  cases hirq : s.irq with
  | idle =>
    rw [hirq] at hstep
    cases hstep
  | entered =>
    rw [hirq] at hstep
    exact .inl ⟨rfl, (Option.some.inj hstep).symm⟩
  | acting rest =>
    rw [hirq] at hstep
    cases rest with
    | nil => exact .inr (.inl ⟨rfl, (Option.some.inj hstep).symm⟩)
    | cons a rest => exact .inr (.inr ⟨a, rest, rfl, (Option.some.inj hstep).symm⟩)

theorem of_process (hstep : step maxPacketSize s .process = some s') :
    s.irq = .idle ∧ callable s.calls = true ∧ s' = s.goto .reading s.calls := by
  unfold Eth.step at hstep
  dsimp only at hstep
  cases hirq : s.irq with
  | idle =>
    rw [hirq] at hstep
    dsimp only at hstep
    split_ifs at hstep with hcallable
    exact ⟨rfl, hcallable, (Option.some.inj hstep).symm⟩
  | entered | acting =>
    rw [hirq] at hstep
    cases hstep

theorem of_run {ok : Bool} (hstep : step maxPacketSize s (.run ok) = some s') :
    ∃ pc outer, s.irq = .idle ∧ s.calls = pc :: outer ∧
      s' = s.access_rx maxPacketSize outer ok pc := by
  unfold Eth.step at hstep
  dsimp only at hstep
  cases hirq : s.irq with
  | idle =>
    cases hcalls : s.calls with
    | nil =>
      rw [hirq, hcalls] at hstep
      cases hstep
    | cons pc outer =>
      rw [hirq, hcalls] at hstep
      exact ⟨pc, outer, rfl, rfl, (Option.some.inj hstep).symm⟩
  | entered | acting =>
    rw [hirq] at hstep
    cases hstep

/-- A call begins: from outside, or from what lwIP has called. -/
theorem Sound.process (h : Sound maxPacketSize s) (hidle : s.irq = .idle)
    (hcallable : callable s.calls = true) : Sound maxPacketSize (s.goto .reading s.calls) := by
  obtain ⟨k, hwindow⟩ := h.window
  have hguarded := h.guarded
  have hahead := h.ahead
  have hdelivered := h.delivered
  cases hcalls : s.calls with
  | nil =>
    have hpc : s.outermost = .reading := by
      unfold System.outermost
      rw [hcalls]
      rfl
    rw [hcalls] at hguarded
    exact h.skip hidle (hpc ▸ rfl) [.reading] s.in_rx hguarded rfl
  | cons pc outer =>
    rw [hcalls] at hguarded hcallable
    obtain rfl : pc = .input := by simpa [callable] using hcallable
    obtain rfl | ⟨hpc, -, -⟩ := hguarded.cases
    · have hpc : s.outermost = .input := by
        unfold System.outermost
        rw [hcalls]
        rfl
      rw [hpc] at hwindow hdelivered
      exact .of_idle hidle ⟨.inl rfl, rfl, hguarded⟩ (hwindow.frame rfl rfl) nofun (.inl rfl)
        (hdelivered.frame rfl)
    · obtain hpc | hpc := hpc <;> cases hpc

/-- **Every step** keeps the invariant. -/
theorem Sound.step (h : Sound maxPacketSize s) {a : Action}
    (hstep : step maxPacketSize s a = some s') : Sound maxPacketSize s' := by
  obtain ⟨k, hwindow⟩ := h.window
  cases a with
  | complete status buffer =>
    unfold Eth.step at hstep
    dsimp only at hstep
    split_ifs at hstep with hown
    rw [← Option.some.inj hstep]
    exact h.complete status buffer hown
  | starve =>
    unfold Eth.step at hstep
    dsimp only at hstep
    split_ifs at hstep with hown
    rw [← Option.some.inj hstep]
    exact ⟨h.guarded, ⟨k, hwindow.frame rfl rfl⟩, h.ahead, h.recorded, h.wake,
      h.delivered.frame rfl⟩
  | sent =>
    rw [← Option.some.inj hstep]
    exact ⟨h.guarded, ⟨k, hwindow.frame rfl rfl⟩, h.ahead, h.recorded, h.wake,
      h.delivered.frame rfl⟩
  | link =>
    rw [← Option.some.inj hstep]
    exact ⟨h.guarded, ⟨k, hwindow.frame rfl rfl⟩, h.ahead, h.recorded, h.wake,
      h.delivered.frame rfl⟩
  | interrupt =>
    obtain ⟨hidle, rfl⟩ := of_interrupt hstep
    have hwake := h.wake
    unfold Pending at hwake
    rw [hidle] at hwake
    exact ⟨h.guarded, ⟨k, hwindow.frame rfl rfl⟩, h.ahead, trivial, hwake, h.delivered.frame rfl⟩
  | irq =>
    obtain ⟨hirq, rfl⟩ | ⟨hirq, rfl⟩ | ⟨a, rest, hirq, rfl⟩ := of_irq hstep
    · have hwake := h.wake
      unfold Pending at hwake
      rw [hirq] at hwake
      refine ⟨h.guarded, ⟨k, hwindow.frame rfl rfl⟩, h.ahead, recorded_ethIrqHandler s.dmasr,
        fun j d hj hd hls => ?_, h.delivered.frame rfl⟩
      exact (hwake j d hj hd hls).imp_right (.imp_left fun hpending => .inl
        (hpending.resolve_right List.not_mem_nil))
    · have hwake := h.wake
      unfold Pending at hwake
      rw [hirq] at hwake
      exact ⟨h.guarded, ⟨k, hwindow.frame rfl rfl⟩, h.ahead, trivial, hwake,
        h.delivered.frame rfl⟩
    · exact h.access hirq
  | process =>
    obtain ⟨hidle, hcallable, rfl⟩ := of_process hstep
    exact h.process hidle hcallable
  | run ok =>
    obtain ⟨pc, outer, hidle, hcalls, rfl⟩ := of_run hstep
    have hguarded := h.guarded
    rw [hcalls] at hguarded
    obtain rfl | ⟨hpc, rfl, hin⟩ := hguarded.cases
    · exact h.run_single hidle hcalls ok
    · exact h.run_nested hidle hpc hin hcalls ok

theorem sound_start : Sound maxPacketSize start := by
  have hwindow : Window start .reading 0 :=
    ⟨rfl, rfl, rfl, rfl, List.prefix_rfl, Nat.zero_le _, .nil, fun _ _ _ => rfl, nofun⟩
  refine ⟨rfl, ⟨0, hwindow⟩, nofun, trivial, fun j d _ hd => ?_, List.Sublist.refl []⟩
  cases hd

theorem sound_of_reachable (h : (machine maxPacketSize).Reachable anyStep s) :
    Sound maxPacketSize s := by
  refine invariant (I := Sound maxPacketSize) ?_ ?_ h
  · rintro s rfl
    exact sound_start
  · intro s a s' hs _ hstep
    exact hs.step hstep

/-! ### What the drain will examine -/

/-- The drain is under way, reads the descriptor of the count `s.examined.length` next, and finds
all complete from there to that of the count `j`. -/
structure WillExamine (s : System) (j : ℕ) : Prop where
  draining : s.outermost.draining = true
  next : (s.cur + s.outermost.behind) % rxDescNum = s.examined.length % rxDescNum
  completed : j < s.completed.length
  done : ∀ i, s.examined.length ≤ i → i ≤ j → (s.ring (i % rxDescNum)).status.own = false

/-- A drain gets to all that is complete. -/
theorem Window.willExamine (h : Window s s.outermost k) (hdraining : s.outermost.draining = true)
    {j : ℕ} (hj : j < s.completed.length) : WillExamine s j := by
  have hlength := h.length
  have hreturned := h.length_returned
  have hle := handed_le_behind s.outermost
  refine ⟨hdraining, ?_, hj, fun i hi hij => h.not_own (by omega) (by omega)⟩
  rw [h.cur, hlength, Nat.mod_add_mod]

/-- Nothing that was completed or read is forgotten by the foreground. -/
theorem access_rx_grows (maxPacketSize : ℕ) (s : System) (outer : List Pc) (ok : Bool) (pc : Pc) :
    (s.access_rx maxPacketSize outer ok pc).completed = s.completed ∧
      s.examined.length ≤ (s.access_rx maxPacketSize outer ok pc).examined.length := by
  cases pc with
  | reading | guarding | polling | filling | input =>
    unfold System.access_rx
    dsimp only
    split_ifs <;> exact ⟨rfl, Nat.le_refl _⟩
  | examining =>
    have hle : s.examined.length ≤ (s.examined ++ [s.ring s.cur]).length := by
      rw [concat_length]
      exact Nat.le_succ _
    unfold System.access_rx
    dsimp only
    cases (s.ring s.cur).status.length maxPacketSize <;> exact ⟨rfl, hle⟩
  | entering | clearing | handing | advancing | demanding | leaving => exact ⟨rfl, Nat.le_refl _⟩

theorem access_frame (s : System) (a : Access) :
    (s.access a).completed = s.completed ∧ (s.access a).examined = s.examined ∧
      (s.access a).outermost = s.outermost := by
  cases a <;> exact ⟨rfl, rfl, rfl⟩

theorem step_grows {a : Action} (hstep : step maxPacketSize s a = some s') :
    s.completed.length ≤ s'.completed.length ∧ s.examined.length ≤ s'.examined.length := by
  cases a with
  | complete status buffer =>
    unfold Eth.step at hstep
    dsimp only at hstep
    split_ifs at hstep
    rw [← Option.some.inj hstep]
    refine ⟨?_, Nat.le_refl _⟩
    show s.completed.length ≤ (s.completed ++ [_]).length
    rw [concat_length]
    exact Nat.le_succ _
  | starve =>
    unfold Eth.step at hstep
    dsimp only at hstep
    split_ifs at hstep
    rw [← Option.some.inj hstep]
    exact ⟨Nat.le_refl _, Nat.le_refl _⟩
  | sent | link =>
    rw [← Option.some.inj hstep]
    exact ⟨Nat.le_refl _, Nat.le_refl _⟩
  | interrupt =>
    obtain ⟨-, rfl⟩ := of_interrupt hstep
    exact ⟨Nat.le_refl _, Nat.le_refl _⟩
  | irq =>
    obtain ⟨-, rfl⟩ | ⟨-, rfl⟩ | ⟨a, rest, -, rfl⟩ := of_irq hstep
    · exact ⟨Nat.le_refl _, Nat.le_refl _⟩
    · exact ⟨Nat.le_refl _, Nat.le_refl _⟩
    · obtain ⟨hcompleted, hexamined, -⟩ := access_frame s a
      exact ⟨Nat.le_of_eq (congrArg _ hcompleted.symm), Nat.le_of_eq (congrArg _ hexamined.symm)⟩
  | process =>
    obtain ⟨-, -, rfl⟩ := of_process hstep
    exact ⟨Nat.le_refl _, Nat.le_refl _⟩
  | run ok =>
    obtain ⟨pc, outer, -, -, rfl⟩ := of_run hstep
    obtain ⟨hcompleted, hexamined⟩ := access_rx_grows maxPacketSize s outer ok pc
    exact ⟨Nat.le_of_eq (congrArg _ hcompleted.symm), hexamined⟩

/-- **The loop is left** only where the descriptor at hand belongs to the DMA. -/
theorem draining_step (h : Guarded s.calls s.in_rx) (hdraining : s.outermost.draining = true)
    {a : Action} (hstep : step maxPacketSize s a = some s') :
    s'.outermost.draining = true ∨
      (s.outermost = .polling ∧ (s.ring s.cur).status.own = true) := by
  cases a with
  | complete status buffer =>
    unfold Eth.step at hstep
    dsimp only at hstep
    split_ifs at hstep
    rw [← Option.some.inj hstep]
    exact .inl hdraining
  | starve =>
    unfold Eth.step at hstep
    dsimp only at hstep
    split_ifs at hstep
    rw [← Option.some.inj hstep]
    exact .inl hdraining
  | sent | link =>
    rw [← Option.some.inj hstep]
    exact .inl hdraining
  | interrupt =>
    obtain ⟨-, rfl⟩ := of_interrupt hstep
    exact .inl hdraining
  | irq =>
    obtain ⟨-, rfl⟩ | ⟨-, rfl⟩ | ⟨a, rest, -, rfl⟩ := of_irq hstep
    · exact .inl hdraining
    · exact .inl hdraining
    · left
      show (s.access a).outermost.draining = true
      rw [(access_frame s a).2.2]
      exact hdraining
  | process =>
    obtain ⟨-, -, rfl⟩ := of_process hstep
    cases hcalls : s.calls with
    | nil =>
      unfold System.outermost at hdraining
      rw [hcalls] at hdraining
      cases hdraining
    | cons pc outer =>
      unfold System.outermost at hdraining
      rw [hcalls] at hdraining
      exact .inl hdraining
  | run ok =>
    obtain ⟨pc, outer, -, hcalls, rfl⟩ := of_run hstep
    rw [hcalls] at h
    obtain rfl | ⟨hpc, rfl, hin⟩ := h.cases
    · have hpc : s.outermost = pc := by
        unfold System.outermost
        rw [hcalls]
        rfl
      rw [hpc] at hdraining ⊢
      cases pc with
      | reading | guarding | entering | clearing | demanding | leaving => cases hdraining
      | polling =>
        unfold System.access_rx
        dsimp only
        split_ifs with hown
        · exact .inr ⟨rfl, hown⟩
        · exact .inl rfl
      | examining =>
        unfold System.access_rx
        dsimp only
        cases (s.ring s.cur).status.length maxPacketSize <;> exact .inl rfl
      | filling len =>
        unfold System.access_rx
        dsimp only
        split_ifs <;> exact .inl rfl
      | input =>
        unfold System.access_rx
        dsimp only
        split_ifs <;> exact .inl rfl
      | handing | advancing => exact .inl rfl
    · left
      obtain rfl | rfl := hpc
      · unfold System.access_rx
        dsimp only
        split_ifs <;> rfl
      · unfold System.access_rx
        dsimp only
        rw [if_pos hin]
        rfl

/-- **A drain does examine** what it comes to. -/
theorem WillExamine.step (h : Sound maxPacketSize s) {j : ℕ} (hwill : WillExamine s j)
    {a : Action} (hstep : step maxPacketSize s a = some s') :
    WillExamine s' j ∨ j < s'.examined.length := by
  have hgrows := step_grows hstep
  obtain ⟨k', hwindow'⟩ := (h.step hstep).window
  obtain hdraining | ⟨hpolling, hown⟩ := draining_step h.guarded hwill.draining hstep
  · exact .inl (hwindow'.willExamine hdraining (Nat.lt_of_lt_of_le hwill.completed hgrows.1))
  · right
    obtain ⟨k, hwindow⟩ := h.window
    rw [hpolling] at hwindow
    have hlength : s.examined.length = k := hwindow.length
    have hreturned : s.returned.length = k := hwindow.length_returned
    by_contra hge
    have hlt := hwill.completed
    rw [hwindow.cur, hwindow.not_own (by omega) (by omega)] at hown
    cases hown

/-- What holds of the receive path at any time. -/
structure Received (maxPacketSize : ℕ) (s : System) : Prop where
  /-- A complete descriptor of the ring is one that the DMA has completed and that was not given
  back. -/
  waiting : ∀ i < rxDescNum, (s.ring i).status.own = false → ∃ j, s.returned.length ≤ j ∧
    j % rxDescNum = i ∧ s.completed[j]? = some (s.ring i)
  /-- No wake-up is lost. -/
  wake : ∀ j d, s.examined.length ≤ j → s.completed[j]? = some d → d.status.ls = true →
    s.rx_pending = true ∨ Pending s ∨ WillExamine s j
  /-- A drain does examine what it comes to. -/
  stays : ∀ j a s', WillExamine s j → step maxPacketSize s a = some s' →
    WillExamine s' j ∨ j < s'.examined.length
  /-- Completed descriptors are read once each, in their order. -/
  examined : s.examined <+: s.completed
  /-- They are given back in ring order, and what was read is given back before the next is. -/
  returned : s.returned = (List.range s.returned.length).map (· % rxDescNum)
  given : s.returned.length ≤ s.examined.length ∧ s.examined.length ≤ s.returned.length + 1
  /-- Between the calls of `eth_rx_process`, all that was read has been given back. -/
  settled : s.calls = [] → s.returned.length = s.examined.length
  /-- lwIP gets the frames in that order, none twice. -/
  delivered : s.delivered.Sublist (s.examined.filterMap (Descriptor.frame maxPacketSize))

theorem Window.waiting (h : Window s pc k) {i : ℕ} (hi : i < rxDescNum)
    (hown : (s.ring i).status.own = false) : ∃ j, s.returned.length ≤ j ∧ j % rxDescNum = i ∧
      s.completed[j]? = some (s.ring i) := by
  obtain ⟨j, hj, hlap, rfl⟩ := exists_count s.returned.length hi
  refine ⟨j, hj, rfl, ?_⟩
  by_cases hlt : j < s.completed.length
  · have hd := List.getElem?_eq_getElem hlt
    rw [h.ring_eq hj hd, hd]
  · rw [h.owned j (Nat.not_lt.mp hlt) hlap] at hown
    cases hown

/-- **The receive path has no lost wake-up**, and consumes what the DMA has completed exactly once
and in ring order. -/
theorem received_of_reachable (h : (machine maxPacketSize).Reachable anyStep s) :
    Received maxPacketSize s := by
  have hs := sound_of_reachable h
  obtain ⟨k, hwindow⟩ := hs.window
  have hlength := hwindow.length
  have hreturned := hwindow.length_returned
  have hle := handed_le_behind s.outermost
  refine ⟨fun i hi hown => hwindow.waiting hi hown, fun j d hj hd hls => ?_,
    fun j a s' hwill hstep => hwill.step hs hstep, hwindow.examined, ?_, ?_, fun hcalls => ?_, ?_⟩
  · have hlt := (List.getElem?_eq_some_iff.mp hd).1
    exact (hs.wake j d hj hd hls).imp_right (.imp_right fun hdraining =>
      hwindow.willExamine hdraining hlt)
  · rw [hreturned]
    exact hwindow.returned
  · have hone : s.outermost.behind ≤ s.outermost.handed + 1 := by
      cases s.outermost <;> simp [Pc.behind, Pc.handed]
    omega
  · have houter : s.outermost = .reading := by
      unfold System.outermost
      rw [hcalls]
      rfl
    rw [houter] at hlength hreturned
    exact hreturned.trans hlength.symm
  · have hdelivered := hs.delivered
    cases hpc : s.outermost with
    | filling len =>
      rw [hpc] at hdelivered
      obtain ⟨past, d, hexamined, -, -, hsub⟩ := hdelivered
      rw [hexamined]
      exact sublist_concat hsub
    | _ =>
      rw [hpc] at hdelivered
      exact hdelivered

end

/-- A frame arrives, is reported by the interrupt, and lwIP has it when another one arrives. -/
theorem received_of_reachable_twoFrames : ∃ s, (machine 1520).run anyStep start
      [.complete ⟨false, true, true, false, 5⟩ [7, 0, 0, 0, 0], .interrupt, .irq, .irq, .irq, .irq,
        .irq, .process, .run true, .run true, .run true, .run true, .run true, .run true,
        .run true, .complete ⟨false, true, true, false, 5⟩ [8, 0, 0, 0, 0], .process, .run true] =
        some s ∧
    s.delivered = [[7]] ∧ Received 1520 s := by
  have hrun : ((machine 1520).run anyStep start
      [.complete ⟨false, true, true, false, 5⟩ [7, 0, 0, 0, 0], .interrupt, .irq, .irq, .irq, .irq,
        .irq, .process, .run true, .run true, .run true, .run true, .run true, .run true,
        .run true, .complete ⟨false, true, true, false, 5⟩ [8, 0, 0, 0, 0], .process,
        .run true]).map (·.delivered) = some [[7]] := by decide +kernel
  obtain ⟨s, hs, hdelivered⟩ := Option.map_eq_some_iff.mp hrun
  exact ⟨s, hs, hdelivered, received_of_reachable (reachable_of_run (.init rfl) hs)⟩

end Ch32h4.Eth
