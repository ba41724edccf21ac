import Ch32h4.Udp.Socket
import Mathlib.Data.List.Forall2
import Mathlib.Data.List.ModifyLast

/-!
# Datagrams come one by one, in order and whole

What the sketch sees of the datagrams is noted beside a run: which ones the socket took in, and for
each that `parsePacket` presented what it was told of it and what it read from it (`Note`).
`Delivers` says that these agree: the n-th that was presented is the n-th that was taken in, what was
read from it is the beginning of it, and `available` counts the rest.

The pbufs are accounted for apart (`Kept`): the socket holds those of its queue, the current one and
the one that is being built, and gives back each of them once.
-/

namespace Ch32h4.Udp

open Machine Ledger

variable {api : PbufApi} {s : Socket}

/-! ### What is promised -/

/-- What the sketch was told of a datagram, and what it read from it; a byte that it read without a
buffer it did not see. -/
structure Delivery where
  length : ℕ
  addr : ℕ
  port : ℕ
  bytes : List (Option UInt8)
  deriving DecidableEq

/-- A delivery of this datagram, from which no more was read than there is. -/
structure Delivery.Of (v : Delivery) (a : Arrival) : Prop where
  length : v.length = a.payload.length
  addr : v.addr = a.addr
  port : v.port = a.port
  bytes : List.Forall₂ (fun seen b => ∀ x ∈ seen, x = b) v.bytes (a.payload.take v.bytes.length)

/-- What is noted of a socket since it was opened. -/
structure Note where
  /-- The datagrams that were taken in, but for those without a byte. -/
  accepted : List Arrival := []
  /-- Those that `parsePacket` presented. -/
  delivered : List Delivery := []
  /-- Whether the last of them is the current one. -/
  current : Bool := false

namespace Note

variable (n : Note)

def accept (a : Arrival) : Note :=
  if a.payload = [] then n else { n with accepted := n.accepted ++ [a] }

/-- `parsePacket` has answered, and `remoteIP` and `remotePort` are these. -/
def present (length addr port : ℕ) : Note :=
  if length = 0 then { n with current := false }
  else { n with delivered := n.delivered ++ [⟨length, addr, port, []⟩], current := true }

/-- `read` has answered with so many bytes.  Without a current datagram they come from nowhere. -/
def reads (bytes : List (Option UInt8)) : Note :=
  if bytes = [] then n
  else if n.current then
    { n with delivered := n.delivered.modifyLast fun v => { v with bytes := v.bytes ++ bytes } }
  else { n with delivered := n.delivered ++ [⟨0, 0, 0, bytes⟩] }

/-- What is left of the current datagram. -/
def unread : List UInt8 :=
  match n.current, n.delivered.getLast?, n.accepted[n.delivered.length - 1]? with
  | true, some v, some a => a.payload.drop v.bytes.length
  | _, _, _ => []

end Note

/-- A datagram arrives, and it is noted if there is room for it. -/
def takeIn (sn : Socket × Note) (a : Arrival) : Socket × Note :=
  (sn.1.onRecv a, if sn.1.queue.length < maxQueued then sn.2.accept a else sn.2)

def takeInAll (s : Socket) (n : Note) (arrivals : List Arrival) : Note :=
  if s.pcb then (arrivals.foldl takeIn (s, n)).2 else n

/-- What is noted of a call. -/
def noting (api : PbufApi) (s : Socket) (n : Note) : Action → Note
  | .arrive a => takeInAll s n [a]
  | .begin _ _ | .beginMulticast _ _ _ | .stop => {}
  | .parsePacket arrivals =>
    let s' := (s.parsePacket arrivals).1
    (takeInAll s n arrivals).present (s.parsePacket arrivals).2 s'.remote_ip s'.remote_port
  | .read buffer len =>
    let r := (s.read api buffer len).2
    n.reads (if buffer then r.2.map some else List.replicate r.1.toNat none)
  | .readByte =>
    let b := (s.readByte api).2
    n.reads (if b < 0 then [] else [some (UInt8.ofNat b.toNat)])
  | .flush => { n with current := false }
  | .beginPacket ip _ _ _ => if !s.pcb && ip.isSome then {} else n
  | .write _ _ | .endPacket _ _ => n

def noted (api : PbufApi) : Machine (Socket × Note) Action :=
  (machine api).observed (fun _ => {}) (noting api)

def Datagram.arrival (d : Datagram) : Arrival := ⟨d.p.payload, d.addr, d.port, d.p.tot_len_lt⟩

def Event.entries : Event → List (Entry ℕ)
  | .acquire id => [⟨.acquire, id⟩]
  | .use id => [⟨.use, id⟩]
  | .free id => [⟨.release, id⟩]
  | .copy _ _ _ | .send _ _ _ => []

def Socket.ledger (s : Socket) : List (Entry ℕ) := s.trace.flatMap Event.entries

def optIds : Option Pbuf → List ℕ
  | none => []
  | some p => [p.id]

/-- The pbufs that the socket holds. -/
def Socket.held (s : Socket) : List ℕ := s.queue.map (·.p.id) ++ optIds s.rx ++ optIds s.tx

/-- What is promised of a socket. -/
structure Delivers (api : PbufApi) (s : Socket) (n : Note) : Prop where
  /-- What was presented are the first of those that were taken in. -/
  order : List.Forall₂ Delivery.Of n.delivered (n.accepted.take n.delivered.length)
  /-- The others wait. -/
  waiting : (s.queue.map Datagram.arrival).filter (·.payload ≠ []) =
    n.accepted.drop n.delivered.length
  available : s.available = n.unread.length
  peek : s.peek api = (n.unread.head?.map fun b => (b.toNat : ℤ)).getD (-1)
  /-- No pbuf is used after it was freed, or freed twice. -/
  lawful : Lawful s.ledger
  /-- Those that the socket does not hold were freed once. -/
  freed : ∀ i, ⟨.acquire, i⟩ ∈ s.ledger →
    s.ledger.count ⟨.release, i⟩ = if i ∈ s.held then 0 else 1
  closed : s.pcb = false → s.held = []

/-! ### The pbufs -/

/-- The socket can tell which pbufs it holds. -/
def Kept (s : Socket) : Prop := Owns s.ledger s.held s.next

variable {n : Note} {front back : List Arrival}

@[simp] theorem flatMap_freeOpt (p : Option Pbuf) :
    (Socket.freeOpt p).flatMap Event.entries = Ledger.all .release (optIds p) := by
  cases p <;> rfl

theorem flatMap_frees (queue : List Datagram) :
    (queue.map fun d => Event.free d.p.id).flatMap Event.entries =
      Ledger.all .release (queue.map (·.p.id)) := by
  induction queue with
  | nil => rfl
  | cons d queue ih =>
    rw [List.map_cons, List.flatMap_cons, ih]
    rfl

theorem all_append (d : Deed) (l l' : List ℕ) :
    Ledger.all d (l ++ l') = Ledger.all d l ++ Ledger.all d l' := List.map_append

theorem kept_of_owns {l : List (Entry ℕ)} {held : List ℕ} {next : ℕ} (h : Owns l held next)
    (hledger : s.ledger = l) (hheld : held.Perm s.held) (hnext : s.next = next) : Kept s := by
  rw [Kept, hledger, hnext]
  exact h.perm hheld

theorem ledger_append (s : Socket) (es : List Event) :
    (s.trace ++ es).flatMap Event.entries = s.ledger ++ es.flatMap Event.entries :=
  List.flatMap_append

theorem kept_new : Kept .new := owns_nil

theorem Kept.dropCurrent (h : Kept s) : Kept s.dropCurrent := by
  have hperm : s.held.Perm (optIds s.rx ++ (s.queue.map (·.p.id) ++ optIds s.tx)) := by
    rw [Socket.held, ← List.append_assoc]
    exact List.perm_append_comm.append_right _
  refine kept_of_owns (Owns.perm h hperm).release ?_ ?_ rfl
  · rw [← flatMap_freeOpt]
    exact ledger_append s _
  · rw [Socket.held, Socket.dropCurrent, optIds, List.append_nil]

theorem Kept.stop (h : Kept s) : Kept s.stop := by
  have hall : Owns s.ledger (s.held ++ []) s.next := by
    rw [List.append_nil]
    exact h
  refine kept_of_owns hall.release ?_ (List.Perm.refl []) rfl
  rw [Socket.held, all_append, all_append, ← flatMap_frees, ← flatMap_freeOpt, ← flatMap_freeOpt,
    Socket.ledger, Socket.stop, List.flatMap_append, List.flatMap_append, ledger_append,
    List.append_assoc, List.append_assoc, List.append_assoc]

theorem Kept.begin (h : Kept s) (new bind : Bool) : Kept (s.begin new bind) := h.stop

theorem Kept.beginMulticast (h : Kept s) (new bind group : Bool) :
    Kept (s.beginMulticast new bind group) := by
  simp only [Socket.beginMulticast]
  split
  · exact (h.begin new bind).stop
  · exact h.begin new bind

theorem Kept.acquire (h : Kept s) :
    Owns (s.ledger ++ [⟨.acquire, s.next⟩]) (s.next :: s.held) (s.next + 1) := Owns.acquire h

theorem Kept.onRecv (h : Kept s) (a : Arrival) : Kept (s.onRecv a) := by
  simp only [Socket.onRecv]
  split
  · have hacquired : Owns _ ([s.next] ++ s.held) _ := h.acquire
    refine kept_of_owns hacquired.release ?_ (List.Perm.refl _) rfl
    rw [Socket.ledger, List.flatMap_append, ledger_append]
    rfl
  · refine kept_of_owns h.acquire (ledger_append s _) ?_ rfl
    simp only [Socket.held, List.map_append, List.map_cons, List.map_nil, List.append_assoc]
    exact List.perm_middle.symm

theorem Kept.foldl_onRecv (h : Kept s) (arrivals : List Arrival) :
    Kept (arrivals.foldl Socket.onRecv s) := by
  induction arrivals generalizing s with
  | nil => exact h
  | cons a arrivals ih => exact ih (h.onRecv a)

theorem Kept.pump (h : Kept s) (arrivals : List Arrival) : Kept (s.pump arrivals) := by
  rw [Socket.pump]
  split
  · exact h.foldl_onRecv arrivals
  · exact h

/-- The first pbuf of the queue becomes the current one. -/
theorem Kept.nextPacket (h : Kept s) (hrx : s.rx = none) : Kept s.nextPacket.1 := by
  rw [Socket.nextPacket]
  cases hqueue : s.queue with
  | nil => exact h
  | cons d queue =>
    refine kept_of_owns h rfl ?_ rfl
    simp only [Socket.held, hqueue, hrx, optIds, List.map_cons, List.append_nil]
    exact List.Perm.append_right _ (List.perm_append_singleton _ _).symm

theorem Kept.parsePacket (h : Kept s) (arrivals : List Arrival) :
    Kept (s.parsePacket arrivals).1 :=
  (h.pump arrivals).dropCurrent.nextPacket rfl

theorem Kept.read (h : Kept s) (buffer : Bool) (len : ℕ) : Kept (s.read api buffer len).1 := by
  rw [Socket.read]
  cases hrx : s.rx with
  | none => exact h
  | some p =>
    have huses : ∀ r ∈ [p.id], r ∈ s.held := by
      intro r hr
      simp [Socket.held, hrx, optIds, List.mem_singleton.mp hr]
    dsimp only
    split
    · exact h
    · refine kept_of_owns (Owns.uses h huses) (ledger_append s _) ?_ rfl
      rw [Socket.held, Socket.held, hrx]

theorem Kept.beginPacket (h : Kept s) (ip : Option ℕ) (port : ℕ) (new bind : Bool) :
    Kept (s.beginPacket ip port new bind).1 := by
  cases ip with
  | none => exact h
  | some ip =>
    have hopen : Kept (if s.pcb then s else s.begin new bind) := by
      split
      · exact h
      · exact h.begin new bind
    simp only [Socket.beginPacket]
    generalize (if s.pcb then s else s.begin new bind) = t at hopen
    split
    · have hperm : t.held.Perm (optIds t.tx ++ (t.queue.map (·.p.id) ++ optIds t.rx)) :=
        List.perm_append_comm
      refine kept_of_owns (Owns.perm hopen hperm).release ?_ ?_ rfl
      · rw [← flatMap_freeOpt]
        exact ledger_append t _
      · simp [Socket.held, optIds]
    · exact hopen

/-- The grown pbuf takes the place of the one before. -/
theorem Kept.write (h : Kept s) (buffer : List UInt8) (memory : Option (ℕ → UInt8)) :
    Kept (s.write api buffer memory).1 := by
  simp only [Socket.write]
  split
  · exact h
  · cases memory with
    | none => exact h
    | some memory =>
      dsimp only
      rw [Socket.growing]
      cases htx : s.tx with
      | none =>
        refine kept_of_owns h.acquire (ledger_append s _) ?_ rfl
        simp only [Socket.held, htx, optIds, List.append_nil]
        exact (List.perm_append_singleton _ _).symm
      | some p =>
        have huses : ∀ r ∈ [p.id], r ∈ s.next :: s.held := by
          intro r hr
          simp [Socket.held, htx, optIds, List.mem_singleton.mp hr]
        have hperm : (s.next :: s.held).Perm
            ([p.id] ++ (s.next :: (s.queue.map (·.p.id) ++ optIds s.rx))) := by
          rw [Socket.held, htx]
          exact (List.perm_append_singleton p.id _).cons s.next |>.trans (List.Perm.swap _ _ _)
        refine kept_of_owns ((h.acquire.uses huses).perm hperm).release ?_ ?_ rfl
        · refine (ledger_append s _).trans ?_
          rw [List.append_assoc, List.append_assoc]
          rfl
        · simp only [Socket.held, optIds]
          exact (List.perm_append_singleton _ _).symm

theorem Kept.endPacket (h : Kept s) (memory sent : Bool) : Kept (s.endPacket memory sent).1 := by
  rw [Socket.endPacket]
  split
  · cases htx : s.tx with
    | none =>
      dsimp only
      split
      · have huses : ∀ r ∈ [s.next], r ∈ s.next :: s.held := by simp
        have hused : Owns _ ([s.next] ++ s.held) _ := h.acquire.uses huses
        refine kept_of_owns hused.release ?_ ?_ rfl
        · refine (ledger_append s _).trans ?_
          rw [List.append_assoc, List.append_assoc]
          rfl
        · exact List.Perm.of_eq (by rw [Socket.held, htx]; rfl)
      · exact h
    | some p =>
      have huses : ∀ r ∈ [p.id], r ∈ s.held := by
        intro r hr
        simp [Socket.held, htx, optIds, List.mem_singleton.mp hr]
      have hperm : s.held.Perm ([p.id] ++ (s.queue.map (·.p.id) ++ optIds s.rx)) := by
        rw [Socket.held, htx]
        exact List.perm_append_singleton p.id _
      refine kept_of_owns ((Owns.uses h huses).perm hperm).release ?_ ?_ rfl
      · refine (ledger_append s _).trans ?_
        rw [List.append_assoc]
        rfl
      · simp only [Socket.held, optIds, List.append_nil]
        exact List.Perm.refl _
  · exact h

theorem Kept.after (h : Kept s) (a : Action) : Kept (s.after api a) := by
  cases a with
  | arrive a => exact h.pump [a]
  | begin new bind => exact h.begin new bind
  | beginMulticast new bind group => exact h.beginMulticast new bind group
  | stop => exact h.stop
  | parsePacket arrivals => exact h.parsePacket arrivals
  | read buffer len => exact h.read buffer len
  | readByte => exact h.read true 1
  | flush => exact h.dropCurrent
  | beginPacket ip port new bind => exact h.beginPacket ip port new bind
  | write buffer memory => exact h.write buffer memory
  | endPacket memory sent => exact h.endPacket memory sent

/-! ### The datagrams -/

/-- What was seen of some bytes is true. -/
abbrev Seen (seen : List (Option UInt8)) (bytes : List UInt8) : Prop :=
  List.Forall₂ (fun seen b => ∀ x ∈ seen, x = b) seen bytes

theorem seen_map_some (bytes : List UInt8) : Seen (bytes.map some) bytes := by
  rw [Seen, List.forall₂_map_left_iff, List.forall₂_same]
  intro b _ x hx
  exact (Option.some.inj hx).symm

theorem seen_replicate_none (bytes : List UInt8) :
    Seen (List.replicate bytes.length none) bytes := by
  induction bytes with
  | nil => exact .nil
  | cons b bytes ih => exact .cons (fun x hx => absurd hx (by simp)) ih

/-- The current datagram is the last that was presented, and `_rx_offset` is what was read from it.
An empty one was not presented. -/
def Reading (s : Socket) (n : Note) (front : List Arrival) : Prop :=
  match s.rx with
  | none => n.current = false
  | some p =>
    n.current = false ∧ p.payload = [] ∧ s.rx_offset = 0 ∨
    n.current = true ∧ ∃ vs v as a, n.delivered = vs ++ [v] ∧ front = as ++ [a] ∧
      p.payload = a.payload ∧ s.rx_offset = v.bytes.length

/-- The datagrams that were taken in are those that were presented, `front`, and those that wait. -/
structure Follows (s : Socket) (n : Note) (front back : List Arrival) : Prop where
  accepted : n.accepted = front ++ back
  order : List.Forall₂ Delivery.Of n.delivered front
  waiting : (s.queue.map Datagram.arrival).filter (·.payload ≠ []) = back
  reading : Reading s n front

theorem follows_nothing (hqueue : s.queue = []) (hrx : s.rx = none) : Follows s {} [] [] where
  accepted := rfl
  order := .nil
  waiting := by rw [hqueue]; rfl
  reading := by rw [Reading, hrx]

theorem Follows.dropCurrent (h : Follows s n front back) :
    Follows s.dropCurrent { n with current := false } front back where
  accepted := h.accepted
  order := h.order
  waiting := h.waiting
  reading := rfl

theorem Follows.takeIn (h : Follows s n front back) (a : Arrival) :
    ∃ back', Follows (takeIn (s, n) a).1 (takeIn (s, n) a).2 front back' := by
  simp only [Udp.takeIn, Socket.onRecv]
  by_cases hfull : maxQueued ≤ s.queue.length
  · rw [if_pos hfull, if_neg (Nat.not_lt.mpr hfull)]
    exact ⟨back, h.accepted, h.order, h.waiting, h.reading⟩
  · rw [if_neg hfull, if_pos (Nat.lt_of_not_le hfull), Note.accept]
    have hqueue : ((s.queue ++ [(⟨⟨s.next, a.payload, a.tot_len_lt⟩, a.addr, a.port⟩ : Datagram)]).map
        Datagram.arrival).filter (·.payload ≠ []) = back ++ [a].filter (·.payload ≠ []) := by
      rw [List.map_append, List.filter_append, h.waiting]
      rfl
    by_cases hempty : a.payload = []
    · rw [if_pos hempty]
      refine ⟨back, h.accepted, h.order, hqueue.trans ?_, h.reading⟩
      simp [hempty]
    · rw [if_neg hempty]
      refine ⟨back ++ [a], ?_, h.order, hqueue.trans ?_, h.reading⟩
      · rw [h.accepted, List.append_assoc]
      · simp [hempty]

theorem foldl_takeIn_fst (arrivals : List Arrival) (s : Socket) (n : Note) :
    (arrivals.foldl takeIn (s, n)).1 = arrivals.foldl Socket.onRecv s := by
  induction arrivals generalizing s n with
  | nil => rfl
  | cons a arrivals ih => exact ih _ _

theorem Follows.foldl_takeIn (h : Follows s n front back) (arrivals : List Arrival) :
    ∃ back', Follows (arrivals.foldl Udp.takeIn (s, n)).1 (arrivals.foldl Udp.takeIn (s, n)).2
      front back' := by
  induction arrivals generalizing s n back with
  | nil => exact ⟨back, h⟩
  | cons a arrivals ih =>
    obtain ⟨back', h'⟩ := h.takeIn a
    exact ih h'

theorem Follows.pump (h : Follows s n front back) (arrivals : List Arrival) :
    ∃ back', Follows (s.pump arrivals) (takeInAll s n arrivals) front back' := by
  rw [Socket.pump, takeInAll]
  split
  · obtain ⟨back', h'⟩ := h.foldl_takeIn arrivals
    rw [foldl_takeIn_fst] at h'
    exact ⟨back', h'⟩
  · exact ⟨back, h⟩

/-- The first of the datagrams that wait is presented, unless it is empty. -/
theorem Follows.nextPacket (h : Follows s n front back) (hrx : s.rx = none) :
    ∃ front' back', Follows s.nextPacket.1
      (n.present s.nextPacket.2 s.nextPacket.1.remote_ip s.nextPacket.1.remote_port)
      front' back' := by
  rw [Socket.nextPacket]
  cases hqueue : s.queue with
  | nil =>
    refine ⟨front, back, h.accepted, h.order, h.waiting, ?_⟩
    rw [Reading, hrx]
    rfl
  | cons d queue =>
    have hwaiting := h.waiting
    rw [hqueue, List.map_cons] at hwaiting
    by_cases hempty : d.p.payload = []
    · rw [List.filter_cons_of_neg (by simp [Datagram.arrival, hempty])] at hwaiting
      refine ⟨front, back, ?_⟩
      rw [Note.present, if_pos (by simp [hempty])]
      exact ⟨h.accepted, h.order, hwaiting, .inl ⟨rfl, hempty, rfl⟩⟩
    · rw [List.filter_cons_of_pos (by simp [Datagram.arrival, hempty])] at hwaiting
      refine ⟨front ++ [d.arrival], (queue.map Datagram.arrival).filter (·.payload ≠ []), ?_⟩
      rw [Note.present, if_neg (by simpa using hempty)]
      refine ⟨?_, ?_, rfl, .inr ⟨rfl, n.delivered, _, front, d.arrival, rfl, rfl, rfl, rfl⟩⟩
      · rw [h.accepted, ← hwaiting, List.append_assoc]
        rfl
      · refine List.rel_append h.order (.cons ⟨rfl, rfl, rfl, ?_⟩ .nil)
        exact .nil

theorem present_not_current (n : Note) (length addr port : ℕ) :
    ({ n with current := false } : Note).present length addr port = n.present length addr port := by
  unfold Note.present
  split <;> rfl

theorem Follows.parsePacket (h : Follows s n front back) (arrivals : List Arrival) :
    ∃ front' back', Follows (s.parsePacket arrivals).1 (noting api s n (.parsePacket arrivals))
      front' back' := by
  obtain ⟨back', h'⟩ := h.pump arrivals
  obtain ⟨front'', back'', h''⟩ := h'.dropCurrent.nextPacket rfl
  rw [present_not_current] at h''
  exact ⟨front'', back'', h''⟩

/-! ### Reading -/

theorem Delivery.Of.length_le {v : Delivery} {a : Arrival} (h : v.Of a) :
    v.bytes.length ≤ a.payload.length := by
  have hlength := h.bytes.length_eq
  rw [List.length_take] at hlength
  omega

/-- The last that was presented is the last of `front`. -/
theorem Follows.last (h : Follows s n front back) {vs : List Delivery} {v : Delivery}
    {as : List Arrival} {a : Arrival} (hv : n.delivered = vs ++ [v]) (ha : front = as ++ [a]) :
    List.Forall₂ Delivery.Of vs as ∧ v.Of a := by
  have horder := h.order
  rw [hv, ha] at horder
  have hlength := horder.length_eq
  simp only [List.length_append, List.length_singleton, Nat.add_right_cancel_iff] at hlength
  have hsplit := List.forall₂_iff_zip.mp horder
  rw [List.zip_append hlength] at hsplit
  refine ⟨List.forall₂_iff_zip.mpr ⟨hlength, fun hin => ?_⟩, ?_⟩
  · exact hsplit.2 (List.mem_append_left _ hin)
  · exact hsplit.2 (List.mem_append_right _ List.mem_cons_self)

theorem Follows.unread (h : Follows s n front back) {vs : List Delivery} {v : Delivery}
    {as : List Arrival} {a : Arrival} (hcurrent : n.current = true) (hv : n.delivered = vs ++ [v])
    (ha : front = as ++ [a]) : n.unread = a.payload.drop v.bytes.length := by
  have hlength := (h.last hv ha).1.length_eq
  have hget : n.accepted[n.delivered.length - 1]? = some a := by
    rw [h.accepted, hv, ha, List.length_append, List.length_singleton, Nat.add_sub_cancel, hlength,
      List.append_assoc]
    simp
  rw [Note.unread, hcurrent, hget, hv, List.getLast?_concat]

/-- What `available` and `peek` look at is what is left of the current datagram. -/
theorem Follows.rest (h : Follows s n front back) :
    match s.rx with
    | none => n.unread = []
    | some p => n.unread = p.payload.drop s.rx_offset ∧ s.rx_offset ≤ p.payload.length := by
  have hreading := h.reading
  rw [Reading] at hreading
  cases hrx : s.rx with
  | none =>
    rw [hrx] at hreading
    simp only [Note.unread, hreading]
  | some p =>
    rw [hrx] at hreading
    rcases hreading with ⟨hcurrent, hempty, hoff⟩ | ⟨hcurrent, vs, v, as, a, hv, ha, hp, hoff⟩
    · simp [Note.unread, hcurrent, hempty, hoff]
    · dsimp only
      rw [h.unread hcurrent hv ha, hp, hoff]
      exact ⟨rfl, (h.last hv ha).2.length_le⟩

theorem Follows.available (h : Follows s n front back) : s.available = n.unread.length := by
  have hrest := h.rest
  rw [Socket.available]
  cases hrx : s.rx with
  | none =>
    rw [hrx] at hrest
    rw [hrest]
    rfl
  | some p =>
    rw [hrx] at hrest
    dsimp only
    rw [hrest.1, List.length_drop, Nat.cast_sub hrest.2]

theorem Follows.peek (h : Follows s n front back) (hapi : api.Documented) :
    s.peek api = (n.unread.head?.map fun b => (b.toNat : ℤ)).getD (-1) := by
  have hrest := h.rest
  have havailable := h.available
  rw [Socket.peek]
  cases hrx : s.rx with
  | none =>
    rw [hrx] at hrest
    rw [hrest]
    rfl
  | some p =>
    rw [hrx] at hrest
    dsimp only
    by_cases hnone : s.available ≤ 0
    · have hnil : n.unread = [] := List.eq_nil_of_length_eq_zero (by omega)
      rw [if_pos hnone, hnil]
      rfl
    · have hlt : s.rx_offset < p.payload.length := by
        rw [hrest.1, List.length_drop] at havailable
        omega
      rw [if_neg hnone, hapi.getAt_eq _ _ hlt, hrest.1, List.head?_drop,
        List.getElem?_eq_getElem hlt]
      rfl

/-- Reading so many bytes of the current datagram. -/
theorem Follows.advance (h : Follows s n front back) {p : Pbuf} (hrx : s.rx = some p)
    {seen : List (Option UInt8)} (hseen : Seen seen (n.unread.take seen.length))
    {t : Socket} (hqueue : t.queue = s.queue) (htrx : t.rx = some p)
    (hoff : t.rx_offset = s.rx_offset + seen.length) : Follows t (n.reads seen) front back := by
  by_cases hnil : seen = []
  · rw [Note.reads, if_pos hnil]
    refine ⟨h.accepted, h.order, hqueue ▸ h.waiting, ?_⟩
    have hreading := h.reading
    rw [Reading, hrx] at hreading
    rw [Reading, htrx, hoff, hnil]
    exact hreading
  · have hreading := h.reading
    rw [Reading, hrx] at hreading
    rcases hreading with ⟨hcurrent, hempty, hoff0⟩ | ⟨hcurrent, vs, v, as, a, hv, ha, hp, hoffv⟩
    · -- nothing is left of an empty datagram
      have hunread : n.unread = [] := by simp [Note.unread, hcurrent]
      rw [hunread, List.take_nil] at hseen
      exact absurd (List.forall₂_nil_right_iff.mp hseen) hnil
    · obtain ⟨hvs, hva⟩ := h.last hv ha
      have hv' : (n.reads seen).delivered = vs ++ [{ v with bytes := v.bytes ++ seen }] := by
        rw [Note.reads, if_neg hnil, if_pos hcurrent, hv]
        exact List.modifyLast_concat _ _ _
      have hva' : Delivery.Of { v with bytes := v.bytes ++ seen } a := by
        refine ⟨hva.length, hva.addr, hva.port, ?_⟩
        rw [h.unread hcurrent hv ha] at hseen
        rw [List.length_append, List.take_add]
        exact List.rel_append hva.bytes hseen
      have haccepted : (n.reads seen).accepted = n.accepted := by
        rw [Note.reads, if_neg hnil, if_pos hcurrent]
      have hcurrent' : (n.reads seen).current = true := by
        rw [Note.reads, if_neg hnil, if_pos hcurrent]
        exact hcurrent
      refine ⟨haccepted.trans h.accepted, ?_, hqueue ▸ h.waiting, ?_⟩
      · rw [hv', ha]
        exact List.rel_append hvs (.cons hva' .nil)
      · rw [Reading, htrx]
        refine .inr ⟨hcurrent', vs, _, as, a, hv', ha, hp, ?_⟩
        rw [hoff, hoffv, List.length_append]

/-- `read` takes what it copies from what is left, or passes over it. -/
theorem Follows.read (h : Follows s n front back) (hapi : api.Documented) (buffer : Bool)
    (len : ℕ) : Follows (s.read api buffer len).1 (noting api s n (.read buffer len)) front back := by
  have hnothing : n.reads (if buffer then ([] : List UInt8).map some
      else List.replicate (-1 : ℤ).toNat none) = n := by
    cases buffer <;> rfl
  have hrest := h.rest
  have havailable := h.available
  simp only [noting]
  rw [Socket.read]
  cases hrx : s.rx with
  | none =>
    dsimp only
    rw [hnothing]
    exact h
  | some p =>
    rw [hrx] at hrest
    obtain ⟨hunread, hle⟩ := hrest
    dsimp only
    by_cases hnone : s.available ≤ 0
    · rw [if_pos hnone]
      dsimp only
      rw [hnothing]
      exact h
    · rw [if_neg hnone]
      dsimp only
      generalize hk : (if (len : ℤ) > s.available then s.available.toNat else len) = k
      have hku : k ≤ n.unread.length := by
        rw [← hk]
        split <;> omega
      have hlength : n.unread.length = p.payload.length - s.rx_offset := by
        rw [hunread, List.length_drop]
      have hlt := p.tot_len_lt
      rw [Nat.mod_eq_of_lt (by omega : k < 2 ^ 16), hapi.copyPartial_eq, ← hunread,
        Int.toNat_natCast]
      refine h.advance hrx ?_ rfl rfl ?_
      · cases buffer with
        | true =>
          rw [if_pos rfl, if_pos rfl, List.length_map, List.length_take, Nat.min_eq_left hku]
          exact seen_map_some _
        | false =>
          have hseen := seen_replicate_none (n.unread.take k)
          rw [List.length_take, Nat.min_eq_left hku] at hseen
          rw [if_neg (by decide), List.length_replicate]
          exact hseen
      · have hseen : (if buffer = true then List.map some (if buffer = true then n.unread.take k
            else []) else List.replicate k none).length = k := by
          cases buffer with
          | true => rw [if_pos rfl, if_pos rfl, List.length_map, List.length_take,
              Nat.min_eq_left hku]
          | false => rw [if_neg (by decide), List.length_replicate]
        rw [hseen]
        exact Nat.mod_eq_of_lt (by omega)

theorem Follows.read_one (h : Follows s n front back) (hapi : api.Documented) :
    (s.read api true 1).2 = match n.unread with | [] => (-1, []) | b :: _ => (1, [b]) := by
  have hrest := h.rest
  have havailable := h.available
  rw [Socket.read]
  cases hrx : s.rx with
  | none =>
    rw [hrx] at hrest
    rw [hrest]
  | some p =>
    rw [hrx] at hrest
    dsimp only
    cases hunread : n.unread with
    | nil =>
      rw [hunread] at havailable
      rw [List.length_nil] at havailable
      rw [if_pos (by omega)]
    | cons b rest =>
      rw [hunread, List.length_cons] at havailable
      have hone : ¬ ((1 : ℕ) : ℤ) > s.available := by omega
      rw [if_neg (by omega), if_neg hone, hapi.copyPartial_eq, ← hrest.1, hunread]
      rfl

/-- A byte is read like a buffer of one byte. -/
theorem Follows.noting_readByte (h : Follows s n front back) (hapi : api.Documented) :
    noting api s n .readByte = noting api s n (.read true 1) := by
  have hone := h.read_one hapi
  simp only [noting, Socket.readByte, hone]
  cases n.unread with
  | nil => simp
  | cons b rest =>
    have hpos : ¬ (b.toNat : ℤ) < 0 := by omega
    simp [hpos]

/-! ### A socket that is closed -/

/-- A closed socket holds nothing. -/
def Closed (s : Socket) : Prop := s.pcb = false → s.queue = [] ∧ s.rx = none ∧ s.tx = none

theorem closed_stop : Closed s.stop := fun _ => ⟨rfl, rfl, rfl⟩

theorem closed_begin (new bind : Bool) : Closed (s.begin new bind) := fun _ => ⟨rfl, rfl, rfl⟩

theorem Closed.held (h : Closed s) (hpcb : s.pcb = false) : s.held = [] := by
  obtain ⟨hqueue, hrx, htx⟩ := h hpcb
  rw [Socket.held, hqueue, hrx, htx]
  rfl

theorem foldl_onRecv_pcb (arrivals : List Arrival) :
    (arrivals.foldl Socket.onRecv s).pcb = s.pcb := by
  induction arrivals generalizing s with
  | nil => rfl
  | cons a arrivals ih =>
    rw [List.foldl_cons, ih]
    simp only [Socket.onRecv]
    split <;> rfl

theorem Closed.pump (h : Closed s) (arrivals : List Arrival) : Closed (s.pump arrivals) := by
  rw [Socket.pump]
  split
  · next hopen =>
    intro hpcb
    rw [foldl_onRecv_pcb, hopen] at hpcb
    exact absurd hpcb (by decide)
  · exact h

theorem Closed.nextPacket (h : Closed s) : Closed s.nextPacket.1 := by
  rw [Socket.nextPacket]
  cases hqueue : s.queue with
  | nil => exact h
  | cons d queue =>
    intro hpcb
    exact absurd (h hpcb).1 (by simp [hqueue])

theorem Closed.after (h : Closed s) (a : Action) : Closed (s.after api a) := by
  cases a with
  | arrive a => exact h.pump [a]
  | begin new bind => exact closed_begin new bind
  | beginMulticast new bind group =>
    simp only [Socket.after, Socket.beginMulticast]
    split
    · exact closed_stop
    · exact closed_begin new bind
  | stop => exact closed_stop
  | parsePacket arrivals =>
    have hdropped : Closed (s.pump arrivals).dropCurrent := fun hpcb =>
      ⟨(h.pump arrivals hpcb).1, rfl, (h.pump arrivals hpcb).2.2⟩
    exact hdropped.nextPacket
  | read buffer len =>
    rw [Socket.after, Socket.read]
    cases hrx : s.rx with
    | none => exact h
    | some p =>
      dsimp only
      split
      · exact h
      · exact fun hpcb => absurd (h hpcb).2.1 (by simp [hrx])
  | readByte =>
    rw [Socket.after, Socket.readByte, Socket.read]
    cases hrx : s.rx with
    | none => exact h
    | some p =>
      dsimp only
      split
      · exact h
      · exact fun hpcb => absurd (h hpcb).2.1 (by simp [hrx])
  | flush => exact fun hpcb => ⟨(h hpcb).1, rfl, (h hpcb).2.2⟩
  | beginPacket ip port new bind =>
    cases ip with
    | none => exact h
    | some ip =>
      simp only [Socket.after, Socket.beginPacket]
      have hopen : Closed (if s.pcb then s else s.begin new bind) := by
        split
        · exact h
        · exact closed_begin new bind
      generalize (if s.pcb then s else s.begin new bind) = t at hopen
      split
      · next htrue => exact fun hpcb => absurd (htrue.symm.trans hpcb) (by decide)
      · exact hopen
  | write buffer memory =>
    simp only [Socket.after, Socket.write]
    split
    · exact h
    · next hopen =>
      cases memory with
      | none => exact h
      | some memory =>
        have htrue : s.pcb = true := by
          by_contra hfalse
          exact hopen (by simp [hfalse])
        exact fun hpcb => absurd (htrue.symm.trans hpcb) (by decide)
  | endPacket memory sent =>
    rw [Socket.after, Socket.endPacket]
    split
    · next hopen =>
      cases s.tx with
      | none =>
        dsimp only
        split
        · exact fun hpcb => absurd (hopen.symm.trans hpcb) (by decide)
        · exact h
      | some p => exact fun hpcb => absurd (hopen.symm.trans hpcb) (by decide)
    · exact h

/-- What is sent is apart from what is received. -/
theorem Follows.congr (h : Follows s n front back) {t : Socket} (hqueue : t.queue = s.queue)
    (hrx : t.rx = s.rx) (hoff : t.rx_offset = s.rx_offset) : Follows t n front back := by
  have hreading := h.reading
  refine ⟨h.accepted, h.order, hqueue ▸ h.waiting, ?_⟩
  rw [Reading] at hreading ⊢
  rw [hrx, hoff]
  exact hreading

theorem Follows.beginPacket (h : Follows s n front back) (ip : Option ℕ) (port : ℕ)
    (new bind : Bool) : ∃ front' back', Follows (s.after api (.beginPacket ip port new bind))
      (noting api s n (.beginPacket ip port new bind)) front' back' := by
  cases ip with
  | none =>
    refine ⟨front, back, ?_⟩
    simp only [noting, Option.isSome_none, Bool.and_false, Bool.false_eq_true, if_false]
    exact h
  | some ip =>
    have hbegin : ∃ front' back', Follows (if s.pcb then s else s.begin new bind)
        (noting api s n (.beginPacket (some ip) port new bind)) front' back' := by
      cases hpcb : s.pcb with
      | true => exact ⟨front, back, by simpa [noting, hpcb] using h⟩
      | false => exact ⟨[], [], by simpa [noting, hpcb] using follows_nothing rfl rfl⟩
    obtain ⟨front', back', h'⟩ := hbegin
    refine ⟨front', back', ?_⟩
    simp only [Socket.after, Socket.beginPacket]
    generalize (if s.pcb then s else s.begin new bind) = t at h'
    split
    · exact h'.congr rfl rfl rfl
    · exact h'

/-! ### Every run -/

/-- What is true in every run. -/
structure Sound (s : Socket) (n : Note) : Prop where
  kept : Kept s
  closed : Closed s
  follows : ∃ front back, Follows s n front back

theorem Sound.delivers (h : Sound s n) (hapi : api.Documented) : Delivers api s n := by
  obtain ⟨front, back, hfollows⟩ := h.follows
  have hlength := hfollows.order.length_eq
  refine ⟨?_, ?_, hfollows.available, hfollows.peek hapi, h.kept.lawful,
    fun i hi => h.kept.count_release hi, h.closed.held⟩
  · rw [hlength, hfollows.accepted, List.take_left]
    exact hfollows.order
  · rw [hlength, hfollows.accepted, List.drop_left]
    exact hfollows.waiting

theorem Sound.after (h : Sound s n) (hapi : api.Documented) (a : Action) :
    Sound (s.after api a) (noting api s n a) := by
  refine ⟨h.kept.after a, h.closed.after a, ?_⟩
  obtain ⟨front, back, hfollows⟩ := h.follows
  cases a with
  | arrive a =>
    obtain ⟨back', h'⟩ := hfollows.pump [a]
    exact ⟨front, back', h'⟩
  | begin new bind => exact ⟨[], [], follows_nothing rfl rfl⟩
  | beginMulticast new bind group =>
    simp only [Socket.after, Socket.beginMulticast]
    split
    · exact ⟨[], [], follows_nothing rfl rfl⟩
    · exact ⟨[], [], follows_nothing rfl rfl⟩
  | stop => exact ⟨[], [], follows_nothing rfl rfl⟩
  | parsePacket arrivals => exact hfollows.parsePacket arrivals
  | read buffer len => exact ⟨front, back, hfollows.read hapi buffer len⟩
  | readByte =>
    rw [hfollows.noting_readByte hapi]
    exact ⟨front, back, hfollows.read hapi true 1⟩
  | flush => exact ⟨front, back, hfollows.dropCurrent⟩
  | beginPacket ip port new bind => exact hfollows.beginPacket ip port new bind
  | write buffer memory =>
    refine ⟨front, back, ?_⟩
    simp only [Socket.after, Socket.write, noting]
    split
    · exact hfollows
    · cases memory with
      | none => exact hfollows
      | some memory =>
        exact hfollows.congr rfl rfl rfl
  | endPacket memory sent =>
    refine ⟨front, back, ?_⟩
    rw [Socket.after, Socket.endPacket, noting]
    split
    · cases s.tx with
      | none =>
        dsimp only
        split
        · exact hfollows.congr rfl rfl rfl
        · exact hfollows
      | some p => exact hfollows.congr rfl rfl rfl
    · exact hfollows

/-- **In every run the datagrams come in order and whole, and every pbuf is freed once.** -/
theorem delivers_of_reachable (hapi : api.Documented) {r : Socket × Note}
    (h : (noted api).Reachable anyStep r) : Delivers api r.1 r.2 := by
  have hsound : Sound r.1 r.2 := by
    refine invariant (I := fun t => Sound t.1 t.2) (fun t ht => ?_) (fun t a t' ht _ hstep => ?_) h
    · obtain ⟨h1, h2⟩ := ht
      rw [h1, h2]
      exact ⟨kept_new, fun _ => ⟨rfl, rfl, rfl⟩, [], [], follows_nothing rfl rfl⟩
    · obtain ⟨h1, h2⟩ := observed_step.mp hstep
      rw [← Option.some.inj h1, h2]
      exact ht.after hapi a
  exact hsound.delivers hapi

theorem noted_init : (noted lwip).init (.new, {}) := ⟨rfl, rfl⟩

/-- Two datagrams, of which the first is read in part, and a third that waits. -/
theorem delivers_partial_read : ∃ r, (noted lwip).run anyStep (.new, {})
      [.begin true true, .arrive ⟨[1, 2, 3], 7, 70, by decide⟩, .arrive ⟨[4], 8, 80, by decide⟩,
        .parsePacket [⟨[5, 6], 9, 90, by decide⟩], .read true 2, .parsePacket [], .readByte] =
      some r ∧
    r.2.delivered = [⟨3, 7, 70, [some 1, some 2]⟩, ⟨1, 8, 80, [some 4]⟩] ∧
    Delivers lwip r.1 r.2 := by
  have hrun : ((noted lwip).run anyStep (.new, {})
      [.begin true true, .arrive ⟨[1, 2, 3], 7, 70, by decide⟩, .arrive ⟨[4], 8, 80, by decide⟩,
        .parsePacket [⟨[5, 6], 9, 90, by decide⟩], .read true 2, .parsePacket [], .readByte]).map
      (fun r => r.2.delivered) =
      some [⟨3, 7, 70, [some 1, some 2]⟩, ⟨1, 8, 80, [some 4]⟩] := by
    decide +kernel
  obtain ⟨r, hr, hdelivered⟩ := Option.map_eq_some_iff.mp hrun
  exact ⟨r, hr, hdelivered,
    delivers_of_reachable lwip_documented (reachable_of_run (.init noted_init) hr)⟩

end Ch32h4.Udp
