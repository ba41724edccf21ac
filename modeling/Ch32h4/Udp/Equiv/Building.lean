import Ch32h4.Udp.Socket

/-!
# What is written is what is sent

`write` grows the datagram by an allocation of the sum of two lengths, which is cast to 16 bits, while
the bytes are copied with their number as it is.  As long as the sum is that of a datagram
(`Fits`), the pbuf holds exactly the bytes that were accepted (`Holds`).  A sum that does not fit is
accepted all the same if the allocation of what is left of it succeeds, and the copy goes past its
end from 65536 on.
-/

namespace Ch32h4.Udp

open Machine

variable {api : PbufApi} {s : Socket}

/-! ### What is promised -/

/-- The bytes that a UDP datagram can carry over IPv4. -/
abbrev maxDatagram : ℕ := 65535 - 20 - 8

/-- A call of `write`: the bytes that the datagram would have, whether there was memory for it, the
answer, and the packet before and after. -/
structure Write where
  total : ℕ
  allocated : Bool
  answer : ℕ
  before : Option (List UInt8) × ℕ
  after : Option (List UInt8) × ℕ

/-- What cannot be accommodated is refused, and the packet stays as it was. -/
def Write.Kept (w : Write) : Prop :=
  maxDatagram < w.total ∨ w.allocated = false → w.answer = 0 ∧ w.after = w.before

/-- What is noted of the datagrams that are sent. -/
structure Draft where
  /-- The bytes that `write` has accepted for the datagram being built. -/
  accepted : List UInt8 := []
  /-- Those that were accepted for the datagrams sent so far. -/
  sent : List (List UInt8) := []
  writes : List Write := []

def Socket.packet (s : Socket) : Option (List UInt8) × ℕ := (s.tx.map (·.payload), s.tx_len)

/-- What is noted of a call. -/
def drafting (api : PbufApi) (s : Socket) (n : Draft) : Action → Draft
  | .begin _ _ | .beginMulticast _ _ _ | .stop => { n with accepted := [] }
  | .beginPacket ip _ _ _ => if ip.isSome then { n with accepted := [] } else n
  | .write buffer memory =>
    let r := s.write api buffer memory
    { n with
      accepted := n.accepted ++ buffer.take r.2
      writes := n.writes ++ [⟨n.accepted.length + buffer.length, memory.isSome, r.2, s.packet,
        r.1.packet⟩] }
  | .endPacket memory _ =>
    if s.pcb && (s.tx.isSome || memory) then
      { n with accepted := [], sent := n.sent ++ [n.accepted] }
    else n
  | .arrive _ | .parsePacket _ | .read _ _ | .readByte | .flush => n

def drafted (api : PbufApi) : Machine (Socket × Draft) Action :=
  (machine api).observed (fun _ => {}) (drafting api)

/-- What a call of `udp_sendto` was given. -/
def Event.sent : Event → Option (List UInt8)
  | .send payload _ _ => some payload
  | _ => none

def Event.InBounds : Event → Prop
  | .copy off size room => off + size ≤ room
  | _ => True

/-- What is promised of the datagrams that are sent. -/
structure Builds (s : Socket) (n : Draft) : Prop where
  sent : s.trace.filterMap Event.sent = n.sent
  copies : ∀ e ∈ s.trace, e.InBounds
  writes : ∀ w ∈ n.writes, w.Kept

/-- **The condition**: what is written fits into a datagram with what has been written before, or
there is no memory for it. -/
def Fits (s : Socket) : Action → Prop
  | .write buffer memory =>
    s.pcb = true → buffer ≠ [] → memory.isSome = true → s.tx_len + buffer.length ≤ maxDatagram
  | _ => True

instance (s : Socket) : (a : Action) → Decidable (Fits s a)
  | .write _ _ => inferInstanceAs (Decidable (_ → _ → _ → _))
  | .arrive _ | .begin _ _ | .beginMulticast _ _ _ | .stop | .parsePacket _ | .read _ _
  | .readByte | .flush | .beginPacket _ _ _ _ | .endPacket _ _ => inferInstanceAs (Decidable True)

/-! ### Growing the datagram -/

variable {n : Draft}

/-- The pbuf that is being built has what was accepted. -/
structure Holds (s : Socket) (n : Draft) : Prop where
  accepted : n.accepted = (s.tx.map (·.payload)).getD []
  length : s.tx_len = n.accepted.length

theorem blit_start (dst src : List UInt8) (h : src.length ≤ dst.length) :
    Socket.blit dst 0 src = src ++ dst.drop src.length := by
  rw [Socket.blit, List.take_zero, List.nil_append, Nat.sub_zero, Nat.zero_add,
    List.take_of_length_le h]

theorem blit_end (kept junk src : List UInt8) (h : junk.length = src.length) :
    Socket.blit (kept ++ junk) kept.length src = kept ++ src := by
  rw [Socket.blit, List.take_left, List.length_append, Nat.add_sub_cancel_left, h,
    List.take_of_length_le (Nat.le_refl _), ← h, ← List.length_append,
    List.drop_length, List.append_nil]

/-- With room for all, the new pbuf has the bytes of the old one and then the new ones. -/
theorem Holds.grown (h : Holds s n) (hapi : api.Documented) (memory : ℕ → UInt8)
    (buffer : List UInt8) : s.grown api (s.tx_len + buffer.length) memory buffer =
      n.accepted ++ buffer := by
  have haccepted := h.accepted
  rw [Socket.grown]
  cases htx : s.tx with
  | none =>
    have hnil : n.accepted = [] := by rw [haccepted, htx]; rfl
    have hlen : s.tx_len = 0 := by rw [h.length, hnil]; rfl
    rw [hlen, Nat.zero_add]
    dsimp only
    rw [blit_start _ _ (Nat.le_of_eq (Socket.length_alloc _ _).symm), hnil,
      List.drop_of_length_le (Nat.le_of_eq (Socket.length_alloc _ _)), List.append_nil]
    rfl
  | some p =>
    have hp : n.accepted = p.payload := by rw [haccepted, htx]; rfl
    have hlen := Socket.length_alloc (s.tx_len + buffer.length) memory
    rw [h.length] at hlen ⊢
    dsimp only
    rw [hapi.copyPartial_eq, List.drop_zero, ← hp, List.take_of_length_le (Nat.le_refl _),
      blit_start _ _ (by omega)]
    refine blit_end _ _ _ ?_
    rw [List.length_drop]
    omega

/-! ### Runs in which everything fits -/

/-- What is true as long as everything fits. -/
structure Whole (s : Socket) (n : Draft) : Prop where
  holds : Holds s n
  builds : Builds s n

theorem whole_new : Whole .new {} where
  holds := ⟨rfl, rfl⟩
  builds := ⟨rfl, fun e he => absurd he (by simp [Socket.new]), fun w hw => absurd hw (by simp)⟩

/-- A call that neither builds nor sends. -/
def Quiet (es : List Event) : Prop := es.filterMap Event.sent = [] ∧ ∀ e ∈ es, e.InBounds

theorem Builds.quiet (h : Builds s n) {t : Socket} {es : List Event}
    (htrace : t.trace = s.trace ++ es) (hquiet : Quiet es) : Builds t n := by
  refine ⟨?_, ?_, h.writes⟩
  · rw [htrace, List.filterMap_append, hquiet.1, List.append_nil, h.sent]
  · rw [htrace, List.forall_mem_append]
    exact ⟨h.copies, hquiet.2⟩

/-- The copies stay inside of a pbuf that has room for all. -/
theorem quiet_growing (hapi : api.Documented) (buffer : List UInt8) :
    Quiet (s.growing api (s.tx_len + buffer.length) buffer) := by
  rw [Socket.growing]
  cases htx : s.tx with
  | none => exact ⟨rfl, by simp [Event.InBounds]⟩
  | some p =>
    refine ⟨rfl, ?_⟩
    have hle : (api.copyPartial p.payload s.tx_len 0).length ≤ s.tx_len := by
      rw [hapi.copyPartial_eq, List.length_take]
      omega
    have hroom : 0 + (api.copyPartial p.payload s.tx_len 0).length ≤ s.tx_len + buffer.length := by
      omega
    simpa [Event.InBounds] using hroom

theorem quiet_freeOpt (p : Option Pbuf) : Quiet (Socket.freeOpt p) := by
  cases p with
  | none => exact ⟨rfl, fun e he => absurd he (by simp [Socket.freeOpt])⟩
  | some p => exact ⟨rfl, by simp [Socket.freeOpt, Event.InBounds]⟩

theorem quiet_frees (queue : List Datagram) : Quiet (queue.map fun d => .free d.p.id) := by
  constructor
  · induction queue with
    | nil => rfl
    | cons d queue ih => rw [List.map_cons, List.filterMap_cons_none rfl, ih]
  · intro e he
    obtain ⟨d, -, rfl⟩ := List.mem_map.mp he
    trivial

theorem Quiet.append {es es' : List Event} (h : Quiet es) (h' : Quiet es') : Quiet (es ++ es') := by
  constructor
  · rw [List.filterMap_append, h.1, h'.1, List.append_nil]
  · exact List.forall_mem_append.mpr ⟨h.2, h'.2⟩

/-- What is received and what is freed leaves the packet as it is. -/
theorem Whole.quiet (h : Whole s n) {t : Socket} {es : List Event}
    (htrace : t.trace = s.trace ++ es) (hquiet : Quiet es) (htx : t.tx = s.tx)
    (hlen : t.tx_len = s.tx_len) : Whole t n :=
  ⟨⟨by rw [htx]; exact h.holds.accepted, hlen.trans h.holds.length⟩, h.builds.quiet htrace hquiet⟩

theorem Whole.dropCurrent (h : Whole s n) : Whole s.dropCurrent n :=
  h.quiet rfl (quiet_freeOpt s.rx) rfl rfl

theorem Whole.stop (h : Whole s n) : Whole s.stop { n with accepted := [] } := by
  have hquiet : Quiet (s.queue.map (fun d => .free d.p.id) ++ Socket.freeOpt s.rx ++
      Socket.freeOpt s.tx) :=
    ((quiet_frees s.queue).append (quiet_freeOpt s.rx)).append (quiet_freeOpt s.tx)
  have htrace : s.stop.trace = s.trace ++ (s.queue.map (fun d => .free d.p.id) ++
      Socket.freeOpt s.rx ++ Socket.freeOpt s.tx) := by
    rw [Socket.stop, ← List.append_assoc, ← List.append_assoc]
  obtain ⟨hsent, hcopies, hwrites⟩ := h.builds.quiet htrace hquiet
  exact ⟨⟨rfl, rfl⟩, hsent, hcopies, hwrites⟩

theorem Whole.begin (h : Whole s n) (new bind : Bool) :
    Whole (s.begin new bind) { n with accepted := [] } := by
  obtain ⟨⟨haccepted, hlength⟩, hsent, hcopies, hwrites⟩ := h.stop
  exact ⟨⟨haccepted, hlength⟩, hsent, hcopies, hwrites⟩

theorem Whole.onRecv (h : Whole s n) (a : Arrival) : Whole (s.onRecv a) n := by
  simp only [Socket.onRecv]
  split
  · have hquiet : Quiet [.acquire s.next, .free s.next] := ⟨rfl, by simp [Event.InBounds]⟩
    refine h.quiet ?_ hquiet rfl rfl
    rw [List.append_assoc]
    rfl
  · exact h.quiet rfl ⟨rfl, by simp [Event.InBounds]⟩ rfl rfl

theorem Whole.pump (h : Whole s n) (arrivals : List Arrival) : Whole (s.pump arrivals) n := by
  have hall : Whole (arrivals.foldl Socket.onRecv s) n := by
    induction arrivals generalizing s with
    | nil => exact h
    | cons a arrivals ih => exact ih (h.onRecv a)
  rw [Socket.pump]
  split
  · exact hall
  · exact h

theorem Whole.nextPacket (h : Whole s n) : Whole s.nextPacket.1 n := by
  rw [Socket.nextPacket]
  cases s.queue with
  | nil => exact h
  | cons d queue => exact ⟨⟨h.holds.accepted, h.holds.length⟩, h.builds.sent, h.builds.copies,
      h.builds.writes⟩

theorem Whole.read (h : Whole s n) (buffer : Bool) (len : ℕ) : Whole (s.read api buffer len).1 n := by
  rw [Socket.read]
  cases s.rx with
  | none => exact h
  | some p =>
    dsimp only
    split
    · exact h
    · exact h.quiet rfl ⟨rfl, by simp [Event.InBounds]⟩ rfl rfl

theorem Whole.beginPacket (h : Whole s n) (ip : Option ℕ) (port : ℕ) (new bind : Bool) :
    Whole (s.beginPacket ip port new bind).1 (drafting api s n (.beginPacket ip port new bind)) := by
  cases ip with
  | none => exact h
  | some ip =>
    simp only [Socket.beginPacket, drafting, Option.isSome_some, if_true]
    by_cases hpcb : s.pcb = true
    · rw [if_pos hpcb, if_pos hpcb]
      obtain ⟨hsent, hcopies, hwrites⟩ := h.builds.quiet
        (t := { s with trace := s.trace ++ Socket.freeOpt s.tx }) rfl (quiet_freeOpt s.tx)
      exact ⟨⟨rfl, rfl⟩, hsent, hcopies, hwrites⟩
    · have hbegun := h.begin new bind
      rw [if_neg hpcb]
      split
      · obtain ⟨hsent, hcopies, hwrites⟩ := hbegun.builds
        refine ⟨⟨rfl, rfl⟩, ?_, ?_, hwrites⟩
        · exact (List.append_nil _).symm ▸ hsent
        · exact (List.append_nil _).symm ▸ hcopies
      · exact hbegun

/-- What does not fit is not accepted if there is no memory for it. -/
theorem Whole.write (h : Whole s n) (hapi : api.Documented) {buffer : List UInt8}
    {memory : Option (ℕ → UInt8)} (hfits : Fits s (.write buffer memory)) :
    Whole (s.write api buffer memory).1 (drafting api s n (.write buffer memory)) := by
  have hkept : ∀ w ∈ n.writes, w.Kept := h.builds.writes
  simp only [drafting]
  by_cases hskip : (!s.pcb || buffer.length = 0) = true
  · have hwrite : s.write api buffer memory = (s, 0) := by rw [Socket.write, if_pos hskip]
    rw [hwrite]
    refine ⟨⟨?_, ?_⟩, h.builds.sent, h.builds.copies, ?_⟩
    · simpa using h.holds.accepted
    · simpa using h.holds.length
    · exact List.forall_mem_append.mpr ⟨hkept, by simp [Write.Kept]⟩
  · cases memory with
    | none =>
      have hwrite : s.write api buffer none = (s, 0) := by rw [Socket.write, if_neg hskip]
      rw [hwrite]
      refine ⟨⟨?_, ?_⟩, h.builds.sent, h.builds.copies, ?_⟩
      · simpa using h.holds.accepted
      · simpa using h.holds.length
      · exact List.forall_mem_append.mpr ⟨hkept, by simp [Write.Kept]⟩
    | some memory =>
      rw [Bool.or_eq_true, not_or] at hskip
      obtain ⟨hpcb, hempty⟩ := hskip
      have hbound : s.tx_len + buffer.length ≤ maxDatagram :=
        hfits (by simpa using hpcb) (by simpa using hempty) rfl
      have hlength := h.holds.length
      have hmod : (s.tx_len + buffer.length) % 2 ^ 16 = s.tx_len + buffer.length :=
        Nat.mod_eq_of_lt (Nat.lt_of_le_of_lt hbound (by decide))
      have hwrite : s.write api buffer (some memory) =
          ({ s with
              tx := some ⟨s.next, s.grown api ((s.tx_len + buffer.length) % 2 ^ 16) memory buffer, by
                rw [Socket.length_grown]; exact Nat.mod_lt _ (by decide)⟩
              tx_len := (s.tx_len + buffer.length) % 2 ^ 16
              next := s.next + 1
              trace := s.trace ++ s.growing api ((s.tx_len + buffer.length) % 2 ^ 16) buffer },
            buffer.length) := by
        rw [Socket.write, if_neg (by simpa using ⟨by simpa using hpcb, by simpa using hempty⟩)]
      rw [hwrite]
      simp only [hmod, h.holds.grown hapi, List.take_length]
      obtain ⟨hsent, hcopies, -⟩ := h.builds.quiet
        (t := { s with trace := s.trace ++ s.growing api (s.tx_len + buffer.length) buffer }) rfl
        (quiet_growing hapi buffer)
      refine ⟨⟨rfl, ?_⟩, hsent, hcopies, ?_⟩
      · exact (congrArg (· + buffer.length) hlength).trans List.length_append.symm
      · refine List.forall_mem_append.mpr ⟨hkept, fun w hw => ?_⟩
        rw [List.mem_singleton.mp hw]
        rintro (hbig | hnone)
        · exact absurd hbig (by dsimp only; omega)
        · exact absurd hnone (by simp)

theorem Whole.endPacket (h : Whole s n) (memory sent : Bool) :
    Whole (s.endPacket memory sent).1 (drafting api s n (.endPacket memory sent)) := by
  have haccepted := h.holds.accepted
  have hsend : ∀ es payload, es.filterMap Event.sent = [payload] → (∀ e ∈ es, e.InBounds) →
      payload = n.accepted → Builds { s with trace := s.trace ++ es }
        { n with accepted := [], sent := n.sent ++ [n.accepted] } := by
    rintro es payload hes hin rfl
    refine ⟨?_, List.forall_mem_append.mpr ⟨h.builds.copies, hin⟩, h.builds.writes⟩
    rw [List.filterMap_append, hes, h.builds.sent]
  rw [Socket.endPacket, drafting]
  by_cases hpcb : s.pcb = true
  · rw [if_pos hpcb, hpcb, Bool.true_and]
    cases htx : s.tx with
    | none =>
      have hnil : n.accepted = [] := by rw [haccepted, htx]; rfl
      cases memory with
      | false => exact h
      | true =>
        obtain ⟨hsent, hcopies, hwrites⟩ := hsend [.acquire s.next, .use s.next,
          .send [] s.tx_addr s.tx_port, .free s.next] [] rfl (by simp [Event.InBounds]) hnil.symm
        exact ⟨⟨rfl, hnil ▸ h.holds.length⟩, hsent, hcopies, hwrites⟩
    | some p =>
      have hp : n.accepted = p.payload := by rw [haccepted, htx]; rfl
      obtain ⟨hsent, hcopies, hwrites⟩ := hsend [.use p.id, .send p.payload s.tx_addr s.tx_port,
        .free p.id] p.payload rfl (by simp [Event.InBounds]) hp.symm
      exact ⟨⟨rfl, rfl⟩, hsent, hcopies, hwrites⟩
  · rw [if_neg hpcb, Bool.eq_false_iff.mpr hpcb]
    exact h

theorem Whole.after (h : Whole s n) (hapi : api.Documented) {a : Action} (hfits : Fits s a) :
    Whole (s.after api a) (drafting api s n a) := by
  cases a with
  | arrive a => exact h.pump [a]
  | begin new bind => exact h.begin new bind
  | beginMulticast new bind group =>
    simp only [Socket.after, Socket.beginMulticast]
    split
    · exact (h.begin new bind).stop
    · exact h.begin new bind
  | stop => exact h.stop
  | parsePacket arrivals => exact (h.pump arrivals).dropCurrent.nextPacket
  | read buffer len => exact h.read buffer len
  | readByte => exact h.read true 1
  | flush => exact h.dropCurrent
  | beginPacket ip port new bind => exact h.beginPacket ip port new bind
  | write buffer memory => exact h.write hapi hfits
  | endPacket memory sent => exact h.endPacket memory sent

/-! ### Runs in which something does not fit -/

/-- What does not fit is accepted. -/
theorem Holds.not_kept (h : Holds s n) {a : Action} (hfits : ¬ Fits s a) :
    ∃ w ∈ (drafting api s n a).writes, ¬ w.Kept := by
  cases a with
  | write buffer memory =>
    simp only [Fits, not_forall] at hfits
    obtain ⟨hpcb, hempty, hmemory, hbig⟩ := hfits
    obtain ⟨memory, rfl⟩ := Option.isSome_iff_exists.mp hmemory
    have hanswer : (s.write api buffer (some memory)).2 = buffer.length := by
      rw [Socket.write, if_neg (by simp [hpcb, hempty])]
    refine ⟨_, List.mem_append_right _ List.mem_cons_self, fun hkept => ?_⟩
    have hlength := h.length
    have hrefused := (hkept (.inl (by dsimp only; omega))).1
    dsimp only at hrefused
    rw [hanswer] at hrefused
    exact hempty (List.eq_nil_of_length_eq_zero hrefused)
  | arrive | begin | beginMulticast | stop | parsePacket | read | readByte | flush | beginPacket
  | endPacket => exact absurd trivial hfits

theorem writes_subset (api : PbufApi) (s : Socket) (n : Draft) (a : Action) :
    n.writes ⊆ (drafting api s n a).writes := by
  intro w hw
  cases a with
  | write buffer memory => exact List.mem_append_left _ hw
  | beginPacket ip port new bind =>
    simp only [drafting]
    split <;> exact hw
  | endPacket memory sent =>
    simp only [drafting]
    split <;> exact hw
  | arrive | begin | beginMulticast | stop | parsePacket | read | readByte | flush => exact hw

/-! ### Every run -/

variable {r : Socket × Draft}

theorem whole_of_reachable (hapi : api.Documented)
    (h : (drafted api).Reachable (fun t a => Fits t.1 a) r) : Whole r.1 r.2 := by
  refine invariant (I := fun t => Whole t.1 t.2) (fun t ht => ?_)
    (fun t a t' ht hfits hstep => ?_) h
  · obtain ⟨h1, h2⟩ := ht
    rw [h1, h2]
    exact whole_new
  · obtain ⟨h1, h2⟩ := observed_step.mp hstep
    rw [← Option.some.inj h1, h2]
    exact ht.after hapi hfits

/-- **What is sent is what was accepted, no copy leaves its pbuf and what is too large is refused, in
exactly the runs in which all that is written fits or finds no memory.** -/
theorem builds_iff_fits (hapi : api.Documented) (h : (drafted api).Reachable anyStep r) :
    Builds r.1 r.2 ↔ (drafted api).Reachable (fun t a => Fits t.1 a) r := by
  constructor
  · intro hbuilds
    have hkept := hbuilds.writes
    clear hbuilds
    induction h with
    | init h => exact .init h
    | @step t t' a ht _ hstep ih =>
      have hnote := (observed_step.mp hstep).2
      rw [hnote] at hkept
      have hreach := ih fun w hw => hkept w (writes_subset api t.1 t.2 a hw)
      refine .step hreach ?_ hstep
      by_contra hfits
      obtain ⟨w, hw, hbad⟩ := (whole_of_reachable hapi hreach).holds.not_kept hfits
      exact hbad (hkept w hw)
  · exact fun hreach => (whole_of_reachable hapi hreach).builds

theorem drafted_init : (drafted lwip).init (.new, {}) := ⟨rfl, rfl⟩

/-- A datagram of two calls, between which there is no memory for another. -/
theorem builds_two_writes : ∃ r, (drafted lwip).run (fun t a => Fits t.1 a) (.new, {})
      [.begin true true, .beginPacket (some 7) 70 true true, .write [1, 2] (some fun _ => 0),
        .write [3, 4, 5] none, .write [6] (some fun _ => 9), .endPacket true true] = some r ∧
    r.2.sent = [[1, 2, 6]] ∧ Builds r.1 r.2 := by
  have hrun : ((drafted lwip).run (fun t a => Fits t.1 a) (.new, {})
      [.begin true true, .beginPacket (some 7) 70 true true, .write [1, 2] (some fun _ => 0),
        .write [3, 4, 5] none, .write [6] (some fun _ => 9), .endPacket true true]).map
      (fun r => r.2.sent) = some [[1, 2, 6]] := by
    decide +kernel
  obtain ⟨r, hr, hsent⟩ := Option.map_eq_some_iff.mp hrun
  have hreach := reachable_of_run (.init drafted_init) hr
  exact ⟨r, hr, hsent, (builds_iff_fits lwip_documented (hreach.mono fun _ _ _ => trivial)).mpr hreach⟩

theorem mem_trace_write {buffer : List UInt8} (hpcb : s.pcb = true) (hempty : buffer ≠ [])
    (memory : ℕ → UInt8) : .copy s.tx_len buffer.length ((s.tx_len + buffer.length) % 2 ^ 16) ∈
      (s.write api buffer (some memory)).1.trace := by
  rw [Socket.write, if_neg (by simp [hpcb, hempty])]
  exact List.mem_append_right _ (List.mem_append_right _ List.mem_cons_self)

/-- After two bytes, 65535 more: the pbuf has room for one byte. -/
theorem not_builds_of_reachable :
    ¬ ∀ r, (drafted lwip).Reachable anyStep r → Builds r.1 r.2 := by
  intro hall
  have hrun : ((drafted lwip).run anyStep (.new, {})
      [.begin true true, .beginPacket (some 7) 70 true true, .write [1, 2] (some fun _ => 0)]).map
      (fun r => (r.1.pcb, r.1.tx_len)) = some (true, 2) := by
    decide +kernel
  obtain ⟨r, hr, hstate⟩ := Option.map_eq_some_iff.mp hrun
  obtain ⟨hpcb, hlen⟩ := Prod.mk.inj hstate
  have hlength : (List.replicate 65535 (0 : UInt8)).length = 65535 := List.length_replicate
  have hempty : List.replicate 65535 (0 : UInt8) ≠ [] := fun h =>
    absurd (hlength.symm.trans (congrArg List.length h)) (by decide)
  have hmem : .copy r.1.tx_len _ ((r.1.tx_len + _) % 2 ^ 16) ∈
      (r.1.write lwip (List.replicate 65535 0) (some fun _ => 0)).1.trace :=
    mem_trace_write hpcb hempty fun _ => 0
  rw [hlength, hlen] at hmem
  have hreach := (reachable_of_run (.init drafted_init) hr).step
    (a := .write (List.replicate 65535 0) (some fun _ => 0)) trivial rfl
  have hbounds : 2 + 65535 ≤ (2 + 65535) % 2 ^ 16 := (hall _ hreach).copies _ hmem
  exact absurd hbounds (by decide)

end Ch32h4.Udp
