import Ch32h4.Net.Server
import Ch32h4.Net.Equiv.Delivering

/-!
# The slots of the server

* `accounted_of_reachable`: as long as the sketch stops a connection that the server still lists
  only when it has read all of it, and does not call `accept` while a stopped connection is listed,
  no connection is handed out after it was stopped, each entry of the list holds one reference on
  its context, and the next `available` takes the stopped ones off the list.
* `not_accounted_of_reachable`: `available` keeps a stopped connection with unread data, and hands
  it out again.
* `reachable_conn`: each connection of the server goes through a run of the machine of connections.

The invariant counts references: those of a context are the entries of the list and the clients
that lead to it.
-/

namespace Ch32h4.Net.Server

open Machine

/-! ### One context -/

/-- What holds of every context. -/
structure Slot.Good (api : PbufApi) (wnd : ℕ) (c : Slot) : Prop where
  /-- A context with a reference has not been destroyed. -/
  idle : 0 < c.refs → c.conn.phase = .idle
  reachable : (Net.machine api wnd).Reachable anyStep c.conn
  /-- A stopped connection has left lwIP. -/
  closed : c.stopped = true → c.conn.ctx.state = .closed ∧ c.conn.live = false

section

variable {api : PbufApi} {wnd : ℕ} {c : Slot}

theorem Slot.Good.ref (h : c.Good api wnd) (hpos : 0 < c.refs) : c.ref.Good api wnd :=
  ⟨fun _ => h.idle hpos, h.reachable, h.closed⟩

/-- After `close` lwIP has nothing more to do with the connection. -/
theorem closed_close (hapi : api.Documented) (hwnd : wnd < 2 ^ 16) {s : System}
    (hreach : (Net.machine api wnd).Reachable anyStep s) (hphase : s.phase = .idle)
    (closes : Bool) : (s.close closes).ctx.state = .closed ∧ (s.close closes).live = false := by
  obtain ⟨done, ids, hq⟩ := (sound_of_reachable hapi hwnd hreach).queued hphase
  exact ⟨rfl, (hq.close closes).live⟩

theorem outside_of_idle {s s' : System} (hphase : s.phase = .idle) : s.outside s' = some s' := by
  unfold System.outside
  rw [hphase]

theorem Slot.Good.close (hapi : api.Documented) (hwnd : wnd < 2 ^ 16) (h : c.Good api wnd)
    (hpos : 0 < c.refs) (closes : Bool) : (c.close closes).Good api wnd where
  idle hpos := by
    show (c.conn.close closes).phase = .idle
    rw [close_phase]
    exact h.idle hpos
  reachable := .step (a := .close closes) h.reachable trivial (outside_of_idle (h.idle hpos))
  closed _ := closed_close hapi hwnd h.reachable (h.idle hpos) closes

/-- The destructor closes, too. -/
theorem closed_destroy (hapi : api.Documented) (hwnd : wnd < 2 ^ 16) {s : System}
    (hreach : (Net.machine api wnd).Reachable anyStep s) (hphase : s.phase = .idle)
    (closes : Bool) :
    (s.destroy api closes).ctx.state = .closed ∧ (s.destroy api closes).live = false := by
  obtain ⟨hstate, hlive⟩ := closed_close hapi hwnd hreach hphase closes
  refine ⟨?_, hlive⟩
  show ((s.close closes).ctx.discardRx api (s.close closes).pool).2.state = .closed
  unfold Context.discardRx
  cases (s.close closes).ctx.rx <;> exact hstate

/-- The last reference destroys the context. -/
theorem Slot.Good.unref (hapi : api.Documented) (hwnd : wnd < 2 ^ 16) (h : c.Good api wnd)
    (hpos : 0 < c.refs) (closes : Bool) : (c.unref api closes).Good api wnd := by
  have hidle := h.idle hpos
  unfold Slot.unref
  split_ifs with hlast
  · exact ⟨nofun, .step (a := .destroy closes) h.reachable trivial (outside_of_idle hidle),
      fun _ => closed_destroy hapi hwnd h.reachable hidle closes⟩
  · exact ⟨fun _ => hidle, h.reachable, h.closed⟩

theorem unref_refs (api : PbufApi) (hpos : 0 < c.refs) (closes : Bool) :
    (c.unref api closes).refs + 1 = c.refs := by
  unfold Slot.unref
  split_ifs with hlast
  · exact hlast.symm
  · show c.refs - 1 + 1 = c.refs
    omega

theorem unref_stopped (closes : Bool) : (c.unref api closes).stopped = c.stopped := by
  unfold Slot.unref
  split_ifs <;> rfl

/-- A client that is stopped closes its connection. -/
theorem Slot.Good.stop (hapi : api.Documented) (hwnd : wnd < 2 ^ 16) (h : c.Good api wnd)
    (hpos : 0 < c.refs) (closes : Bool) :
    ({ (c.close closes).unref api closes with stopped := true } : Slot).Good api wnd := by
  have hclose := h.close hapi hwnd hpos closes
  have hunref := hclose.unref hapi hwnd hpos closes
  refine ⟨hunref.idle, hunref.reachable, fun _ => ?_⟩
  unfold Slot.unref
  split_ifs with hlast
  · exact closed_destroy hapi hwnd hclose.reachable (hclose.idle hpos) closes
  · exact closed_close hapi hwnd h.reachable (h.idle hpos) closes

theorem onRecv_state {σ : Pool} {c : Context} (hclosed : c.state = .closed) (p : Option ℕ)
    (ok : Bool) : (c.onRecv api σ p ok).2.state = .closed := by
  unfold Context.onRecv
  cases p with
  | none => rfl
  | some p =>
    dsimp only
    split_ifs
    · cases c.rx <;> exact hclosed
    · rfl

/-- No event brings a connection back. -/
theorem event_frame {s s' : System} {e : Event} (hstep : Net.step api wnd s e.action = some s') :
    s'.phase = s.phase ∧ (s.live = false → s'.live = false) ∧
      (s.ctx.state = .closed → s'.ctx.state = .closed) := by
  cases e with
  | recv parts ok =>
    obtain ⟨-, -, hrecv⟩ := of_callback hstep
    rw [(recv_eq hrecv).2.2]
    exact ⟨rfl, id, fun hclosed => onRecv_state hclosed _ _⟩
  | fin =>
    obtain ⟨-, -, hfin⟩ := of_callback hstep
    rw [← Option.some.inj hfin]
    exact ⟨rfl, id, fun _ => rfl⟩
  | err =>
    obtain ⟨-, -, herr⟩ := of_callback hstep
    rw [← Option.some.inj herr]
    exact ⟨rfl, fun _ => rfl, fun _ => rfl⟩
  | read size dst =>
    obtain ⟨-, rfl⟩ := of_outside hstep
    obtain ⟨-, hlive, hphase⟩ := doRead_frame s api size dst
    exact ⟨hphase, fun h => hlive.trans h, id⟩

/-- Where lwIP is done with a connection, nothing comes in any more. -/
theorem event_available {s s' : System} {e : Event} (hlive : s.live = false)
    (hstep : Net.step api wnd s e.action = some s') (hzero : s.ctx.available s.pool = 0) :
    s'.ctx.available s'.pool = 0 := by
  cases e with
  | recv | fin | err =>
    obtain ⟨-, hlive', -⟩ := of_callback hstep
    rw [hlive] at hlive'
    cases hlive'
  | read size dst =>
    obtain ⟨-, rfl⟩ := of_outside hstep
    have hread : s.ctx.read api s.pool size dst =
        ⟨[], 0, ⟨s.pool, s.ctx.rx, s.ctx.rxOffset, 0⟩⟩ := if_pos hzero
    show ({ s.ctx with
      rx := (s.ctx.read api s.pool size dst).left.rx,
      rxOffset := (s.ctx.read api s.pool size dst).left.rxOffset } : Context).available
        (s.ctx.read api s.pool size dst).left.pool = 0
    rw [hread]
    exact hzero

theorem Slot.Good.event (h : c.Good api wnd) {e : Event} {conn : System}
    (hstep : Net.step api wnd c.conn e.action = some conn) :
    ({ c with conn } : Slot).Good api wnd := by
  obtain ⟨hphase, hlive, hstate⟩ := event_frame hstep
  exact ⟨fun hpos => hphase.trans (h.idle hpos), .step h.reachable trivial hstep, fun hstopped =>
    (h.closed hstopped).imp hstate hlive⟩

/-- A stopped connection that has been read to its end is not kept. -/
theorem Slot.Good.not_kept (h : c.Good api wnd) (hstopped : c.stopped = true)
    (hzero : c.available = 0) : c.kept = false := by
  unfold Slot.kept Context.connected
  rw [(h.closed hstopped).1, show c.conn.ctx.available c.conn.pool = 0 from hzero, hzero]
  rfl

/-! ### The references -/

/-- The list of the server is `queue`: the references add up, and the stopped connections on it
have nothing unread. -/
structure Accounts (api : PbufApi) (wnd : ℕ) (s : EthernetServer) (queue : List ℕ) : Prop where
  good : ∀ (i : ℕ) (c : Slot), s.slots[i]? = some c → c.Good api wnd
  refs : ∀ (i : ℕ) (c : Slot), s.slots[i]? = some c → c.refs = queue.count i + s.clients.count i
  queued : ∀ i ∈ queue, i < s.slots.length
  held : ∀ i ∈ s.clients, i < s.slots.length
  nodup : queue.Nodup
  read : ∀ i ∈ queue, ∀ c, s.slots[i]? = some c → c.stopped = true → c.available = 0
  handed : ∀ h ∈ s.handed, h.stopped = false

variable {s s' : EthernetServer} {queue : List ℕ} {i : ℕ}

theorem slots_modify (s : EthernetServer) (i : ℕ) (f : Slot → Slot) (j : ℕ) :
    (s.modify i f).slots[j]? = if i = j then s.slots[j]?.map f else s.slots[j]? := by
  unfold EthernetServer.modify
  rw [List.getElem?_modify]
  split_ifs
  · rfl
  · cases s.slots[j]? <;> rfl

/-- **One context changes**, and the lists change where they mention it. -/
theorem Accounts.change (h : Accounts api wnd s queue) {f : Slot → Slot} {queue' clients' : List ℕ}
    {handed' : List Handed}
    (hgood : ∀ c, s.slots[i]? = some c → (f c).Good api wnd)
    (hrefs : ∀ c, s.slots[i]? = some c → (f c).refs = queue'.count i + clients'.count i)
    (hothers : ∀ j, j ≠ i → queue'.count j = queue.count j ∧ clients'.count j = s.clients.count j)
    (hqueue : queue'.count i ≤ queue.count i) (hclients : i ∈ clients' → i < s.slots.length)
    (hread : i ∈ queue' → ∀ c, s.slots[i]? = some c → (f c).stopped = true → (f c).available = 0)
    (hhanded : ∀ x ∈ handed', x.stopped = false) :
    Accounts api wnd { s.modify i f with clients := clients', handed := handed' } queue' := by
  have hslot (j : ℕ) (c : Slot) (hc : (s.modify i f).slots[j]? = some c) :
      (j = i ∧ ∃ c₀, s.slots[i]? = some c₀ ∧ f c₀ = c) ∨ (j ≠ i ∧ s.slots[j]? = some c) := by
    rw [slots_modify] at hc
    split_ifs at hc with hij
    · obtain ⟨c₀, hc₀, hf⟩ := Option.map_eq_some_iff.mp hc
      exact .inl ⟨hij.symm, c₀, hij ▸ hc₀, hf⟩
    · exact .inr ⟨Ne.symm hij, hc⟩
  have hlength : (s.modify i f).slots.length = s.slots.length := List.length_modify ..
  have hmem (j : ℕ) (hj : j ∈ queue') : j ∈ queue := by
    have hpos := List.count_pos_iff.mpr hj
    apply List.count_pos_iff.mp
    by_cases hij : j = i
    · rw [hij] at hpos ⊢
      omega
    · rw [← (hothers j hij).1]
      exact hpos
  refine ⟨fun j c hc => ?_, fun j c hc => ?_, fun j hj => ?_, fun j hj => ?_, ?_,
    fun j hj c hc hstopped => ?_, hhanded⟩
  · obtain ⟨-, c₀, hc₀, rfl⟩ | ⟨-, hc⟩ := hslot j c hc
    · exact hgood c₀ hc₀
    · exact h.good j c hc
  · obtain ⟨rfl, c₀, hc₀, rfl⟩ | ⟨hij, hc⟩ := hslot j c hc
    · exact hrefs c₀ hc₀
    · have hcounts := hothers j hij
      rw [h.refs j c hc, ← hcounts.1, ← hcounts.2]
  · show j < (s.modify i f).slots.length
    rw [hlength]
    exact h.queued j (hmem j hj)
  · show j < (s.modify i f).slots.length
    rw [hlength]
    by_cases hij : j = i
    · rw [hij] at hj ⊢
      exact hclients hj
    · apply h.held j
      apply List.count_pos_iff.mp
      rw [← (hothers j hij).2]
      exact List.count_pos_iff.mpr hj
  · rw [List.nodup_iff_count]
    intro j
    have hone := List.nodup_iff_count.mp h.nodup j
    by_cases hij : j = i
    · rw [hij] at hone ⊢
      omega
    · rw [(hothers j hij).1]
      exact hone
  · obtain ⟨rfl, c₀, hc₀, rfl⟩ | ⟨-, hc⟩ := hslot j c hc
    · exact hread hj c₀ hc₀ hstopped
    · exact h.read j (hmem j hj) c hc hstopped

/-- A context that is mentioned is there, and has a reference. -/
theorem Accounts.exists_slot (h : Accounts api wnd s queue) (hi : i ∈ queue ∨ i ∈ s.clients) :
    ∃ c, s.slots[i]? = some c ∧ c.Good api wnd ∧ 0 < c.refs := by
  have hlt : i < s.slots.length := hi.elim (h.queued i) (h.held i)
  have hc := List.getElem?_eq_getElem hlt
  refine ⟨_, hc, h.good i _ hc, ?_⟩
  rw [h.refs i _ hc]
  rcases hi with hi | hi
  · have := List.count_pos_iff.mpr hi
    omega
  · have := List.count_pos_iff.mpr hi
    omega

/-- **The server gives up an entry**: the context is closed, and a reference goes. -/
theorem Accounts.release (hapi : api.Documented) (hwnd : wnd < 2 ^ 16)
    (h : Accounts api wnd s queue) (hi : i ∈ queue) (closes : Bool) {queue' : List ℕ}
    (hqueue : ∀ j, queue'.count j = queue.count j - if j = i then 1 else 0) :
    Accounts api wnd (s.release api i closes) queue' := by
  have hpos := List.count_pos_iff.mpr hi
  have hone := List.nodup_iff_count.mp h.nodup i
  have hgone := hqueue i
  rw [if_pos rfl] at hgone
  have hrefs (c : Slot) (hc : s.slots[i]? = some c) : 0 < c.refs := by
    rw [h.refs i c hc]
    omega
  refine h.change (f := fun c => (c.close closes).unref api closes) (fun c hc => ?_)
    (fun c hc => ?_) (fun j hij => ?_) (by omega) (h.held i) (fun hmem => ?_) h.handed
  · exact ((h.good i c hc).close hapi hwnd (hrefs c hc) closes).unref hapi hwnd (hrefs c hc) closes
  · have hless := unref_refs (c := c.close closes) api (hrefs c hc) closes
    have hsum : (c.close closes).refs = _ := h.refs i c hc
    omega
  · exact ⟨by rw [hqueue j, if_neg hij, Nat.sub_zero], rfl⟩
  · have := List.count_pos_iff.mpr hmem
    omega

/-- **The sketch gets a client** of a listed connection that it has not stopped. -/
theorem Accounts.handOut (h : Accounts api wnd s queue) (hi : i ∈ queue)
    (hstopped : s.test i Slot.stopped = false) : Accounts api wnd (s.handOut i) queue := by
  have hpos := List.count_pos_iff.mpr hi
  have hrefs (c : Slot) (hc : s.slots[i]? = some c) : 0 < c.refs := by
    rw [h.refs i c hc]
    omega
  refine h.change (f := Slot.ref) (fun c hc => ?_) (fun c hc => ?_) (fun j hij => ?_)
    (Nat.le_refl _) (fun _ => h.queued i hi) (fun _ c hc => h.read i hi c hc) ?_
  · exact (h.good i c hc).ref (hrefs c hc)
  · show c.refs + 1 = _
    rw [h.refs i c hc, List.count_cons_self]
    omega
  · exact ⟨rfl, List.count_cons_of_ne (Ne.symm hij)⟩
  · intro x hx
    rcases List.mem_append.mp hx with hx | hx
    · exact h.handed x hx
    · rw [List.mem_singleton.mp hx]
      exact hstopped

/-- The sketch copies a client. -/
theorem Accounts.copy (h : Accounts api wnd s queue) (hi : i ∈ s.clients) :
    Accounts api wnd (s.copy i) queue := by
  have hpos := List.count_pos_iff.mpr hi
  have hrefs (c : Slot) (hc : s.slots[i]? = some c) : 0 < c.refs := by
    rw [h.refs i c hc]
    omega
  refine h.change (f := Slot.ref) (fun c hc => ?_) (fun c hc => ?_) (fun j hij => ?_)
    (Nat.le_refl _) (fun _ => h.held i hi) (fun hq c hc => h.read i hq c hc) h.handed
  · exact (h.good i c hc).ref (hrefs c hc)
  · show c.refs + 1 = _
    rw [h.refs i c hc, List.count_cons_self]
    omega
  · exact ⟨rfl, List.count_cons_of_ne (Ne.symm hij)⟩

/-- A context that loses a reference and is still listed has not been destroyed. -/
theorem unref_conn {c : Slot} (hrefs : 1 < c.refs) (closes : Bool) :
    (c.unref api closes).conn = c.conn := by
  unfold Slot.unref
  rw [if_neg (by omega)]

/-- **The sketch gives up a client.** -/
theorem Accounts.drop (hapi : api.Documented) (hwnd : wnd < 2 ^ 16)
    (h : Accounts api wnd s queue) (hi : i ∈ s.clients) (closes : Bool) :
    Accounts api wnd (s.drop api i closes) queue := by
  have hpos := List.count_pos_iff.mpr hi
  have hrefs (c : Slot) (hc : s.slots[i]? = some c) : 0 < c.refs := by
    rw [h.refs i c hc]
    omega
  refine h.change (f := fun c => c.unref api closes) (fun c hc => ?_) (fun c hc => ?_)
    (fun j hij => ⟨rfl, List.count_erase_of_ne hij⟩) (Nat.le_refl _) (fun _ => h.held i hi)
    (fun hq c hc hstopped => ?_) h.handed
  · exact (h.good i c hc).unref hapi hwnd (hrefs c hc) closes
  · have hless := unref_refs api (hrefs c hc) closes
    have hsum := h.refs i c hc
    rw [List.count_erase_self]
    omega
  · have hmore : 1 < c.refs := by
      have := List.count_pos_iff.mpr hq
      rw [h.refs i c hc]
      omega
    rw [unref_stopped] at hstopped
    unfold Slot.available
    rw [unref_conn hmore]
    exact h.read i hq c hc hstopped

/-- Closing takes nothing away that has been received. -/
theorem available_close (conn : System) (closes : Bool) :
    (conn.close closes).ctx.available (conn.close closes).pool = conn.ctx.available conn.pool := by
  unfold System.close
  split_ifs <;> rfl

/-- **The sketch stops a client**; what is listed has been read to its end. -/
theorem Accounts.stop (hapi : api.Documented) (hwnd : wnd < 2 ^ 16)
    (h : Accounts api wnd s queue) (hi : i ∈ s.clients) (closes : Bool)
    (hread : i ∈ queue → s.test i (fun c => c.available ≠ 0) = false) :
    Accounts api wnd (s.stop api i closes) queue := by
  have hpos := List.count_pos_iff.mpr hi
  have hrefs (c : Slot) (hc : s.slots[i]? = some c) : 0 < c.refs := by
    rw [h.refs i c hc]
    omega
  refine h.change (f := fun c => { (c.close closes).unref api closes with stopped := true })
    (fun c hc => ?_) (fun c hc => ?_) (fun j hij => ⟨rfl, List.count_erase_of_ne hij⟩)
    (Nat.le_refl _) (fun _ => h.held i hi) (fun hq c hc _ => ?_) h.handed
  · exact (h.good i c hc).stop hapi hwnd (hrefs c hc) closes
  · have hless := unref_refs (c := c.close closes) api (hrefs c hc) closes
    have hsum : (c.close closes).refs = _ := h.refs i c hc
    rw [List.count_erase_self]
    show ((c.close closes).unref api closes).refs = _
    omega
  · have hmore : 1 < (c.close closes).refs := by
      have hsum : (c.close closes).refs = _ := h.refs i c hc
      have := List.count_pos_iff.mpr hq
      omega
    have hzero := hread hq
    unfold EthernetServer.test at hzero
    rw [hc] at hzero
    show ((c.close closes).unref api closes).conn.ctx.available
      ((c.close closes).unref api closes).conn.pool = 0
    rw [unref_conn hmore]
    have hnone : c.available = 0 := by simpa using hzero
    exact (available_close c.conn closes).trans hnone

/-- An event of one connection. -/
theorem Accounts.event (h : Accounts api wnd s queue) {e : Event} {c : Slot} {conn : System}
    (hc : s.slots[i]? = some c) (hstep : Net.step api wnd c.conn e.action = some conn) :
    Accounts api wnd (s.modify i fun c => { c with conn }) queue := by
  have hsame (c' : Slot) (hc' : s.slots[i]? = some c') : c' = c :=
    Option.some.inj (hc'.symm.trans hc)
  refine h.change (f := fun c => { c with conn }) (fun c' hc' => ?_) (fun c' hc' => ?_)
    (fun j hij => ⟨rfl, rfl⟩) (Nat.le_refl _) (h.held i) (fun hq c' hc' hstopped => ?_) h.handed
  · rw [hsame c' hc']
    exact (h.good i c hc).event hstep
  · exact h.refs i c' hc'
  · rw [hsame c' hc'] at hstopped
    have hlive := ((h.good i c hc).closed hstopped).2
    exact event_available hlive hstep (h.read i hq c hc hstopped)

/-- A new connection is listed. -/
theorem Accounts.onAccept (h : Accounts api wnd s s.pending) (ok : Bool) :
    Accounts api wnd (s.onAccept ok) (s.onAccept ok).pending := by
  unfold EthernetServer.onAccept
  split_ifs
  · exact h
  · have hslot (j : ℕ) (c : Slot) (hc : (s.slots ++ [⟨Net.start, 1, false⟩])[j]? = some c) :
        (j < s.slots.length ∧ s.slots[j]? = some c) ∨
          (j = s.slots.length ∧ c = ⟨Net.start, 1, false⟩) := by
      have hlt := (List.getElem?_eq_some_iff.mp hc).1
      rw [List.length_append, List.length_singleton] at hlt
      by_cases hj : j < s.slots.length
      · rw [List.getElem?_append_left hj] at hc
        exact .inl ⟨hj, hc⟩
      · obtain rfl : j = s.slots.length := by omega
        rw [List.getElem?_concat_length] at hc
        exact .inr ⟨rfl, (Option.some.inj hc).symm⟩
    have hqueue : s.slots.length ∉ s.pending := fun hmem => Nat.lt_irrefl _ (h.queued _ hmem)
    have hclients : s.slots.length ∉ s.clients := fun hmem => Nat.lt_irrefl _ (h.held _ hmem)
    refine ⟨fun j c hc => ?_, fun j c hc => ?_, fun j hj => ?_, fun j hj => ?_, ?_,
      fun j hj c hc hstopped => ?_, h.handed⟩
    · obtain ⟨-, hc⟩ | ⟨-, rfl⟩ := hslot j c hc
      · exact h.good j c hc
      · exact ⟨fun _ => rfl, .init rfl, nofun⟩
    · show c.refs = (s.pending ++ [s.slots.length]).count j + s.clients.count j
      obtain ⟨hj, hc⟩ | ⟨rfl, rfl⟩ := hslot j c hc
      · rw [List.count_append, List.count_singleton, h.refs j c hc]
        have hne : (s.slots.length == j) = false := by simp; omega
        rw [hne]
        rfl
      · rw [List.count_append, List.count_eq_zero_of_not_mem hqueue,
          List.count_eq_zero_of_not_mem hclients, List.count_singleton_self]
    · show j < (s.slots ++ [_]).length
      rw [List.length_append, List.length_singleton]
      rcases List.mem_append.mp hj with hj | hj
      · exact Nat.lt_succ_of_lt (h.queued j hj)
      · rw [List.mem_singleton.mp hj]
        exact Nat.lt_succ_self _
    · show j < (s.slots ++ [_]).length
      rw [List.length_append, List.length_singleton]
      exact Nat.lt_succ_of_lt (h.held j hj)
    · show (s.pending ++ [s.slots.length]).Nodup
      rw [List.nodup_append]
      refine ⟨h.nodup, List.nodup_cons.mpr ⟨List.not_mem_nil, List.nodup_nil⟩,
        fun a ha b hb hab => ?_⟩
      rw [hab, List.mem_singleton.mp hb] at ha
      exact hqueue ha
    · obtain ⟨hlt, hc⟩ | ⟨-, rfl⟩ := hslot j c hc
      · rcases List.mem_append.mp hj with hj | hj
        · exact h.read j hj c hc hstopped
        · rw [List.mem_singleton.mp hj] at hlt
          exact absurd hlt (Nat.lt_irrefl _)
      · cases hstopped

/-! ### The loops -/

/-- What is asked of another context is not changed by a release. -/
theorem test_release {j : ℕ} (hij : i ≠ j) (closes : Bool) (f : Slot → Bool) :
    (s.release api i closes).test j f = s.test j f := by
  unfold EthernetServer.test EthernetServer.release
  rw [slots_modify, if_neg hij]

/-- A stopped connection on the list is not kept. -/
theorem Accounts.stopped_of_kept (h : Accounts api wnd s queue) (hi : i ∈ queue)
    (hkept : s.test i Slot.kept = true) : s.test i Slot.stopped = false := by
  obtain ⟨c, hc, hgood, -⟩ := h.exists_slot (.inl hi)
  unfold EthernetServer.test at hkept ⊢
  rw [hc] at hkept ⊢
  cases hstopped : c.stopped with
  | false => exact hstopped
  | true =>
    rw [show (Option.map Slot.kept (some c)).getD false = c.kept from rfl,
      hgood.not_kept hstopped (h.read i hi c hc hstopped)] at hkept
    cases hkept

/-- What a queue counts when an entry in the middle of it is taken out. -/
theorem count_take_out (ks is : List ℕ) (i j : ℕ) :
    (ks ++ is).count j = (ks ++ i :: is).count j - if j = i then 1 else 0 := by
  rw [List.count_append, List.count_append, List.count_cons]
  by_cases hij : j = i
  · rw [hij, beq_self_eq_true, if_pos rfl, if_pos rfl]
    omega
  · rw [beq_eq_false_iff_ne.mpr (Ne.symm hij), if_neg nofun, if_neg hij]
    omega

/-- What the server has handed out, and its clients, stay as they are while entries go. -/
theorem sweep_frame (api : PbufApi) (closes : ℕ → Bool) (is : List ℕ) (s : EthernetServer) :
    (sweep api closes s is).1.clients = s.clients ∧
      (sweep api closes s is).1.listen = s.listen := by
  induction is generalizing s with
  | nil => exact ⟨rfl, rfl⟩
  | cons i is ih =>
    unfold sweep
    split_ifs
    · exact ih s
    · exact ih (s.release api i (closes i))

/-- **The first loop of `available`** keeps no connection that was stopped. -/
theorem Accounts.sweep (hapi : api.Documented) (hwnd : wnd < 2 ^ 16) (closes : ℕ → Bool)
    (ks : List ℕ) {is : List ℕ} (h : Accounts api wnd s (ks ++ is))
    (hkept : ∀ i ∈ ks, s.test i Slot.stopped = false) :
    Accounts api wnd (sweep api closes s is).1 (ks ++ (sweep api closes s is).2) ∧
      (∀ i ∈ ks ++ (sweep api closes s is).2,
        (sweep api closes s is).1.test i Slot.stopped = false) ∧
      (sweep api closes s is).2.length ≤ is.length := by
  induction is generalizing s ks with
  | nil =>
    refine ⟨h, fun i hi => hkept i ?_, Nat.le_refl _⟩
    exact (List.mem_append.mp hi).resolve_right List.not_mem_nil
  | cons i is ih =>
    rw [Server.sweep]
    have hi : i ∈ ks ++ i :: is := List.mem_append_right ks List.mem_cons_self
    by_cases hkeep : s.test i Slot.kept = true
    · have hstopped := h.stopped_of_kept hi hkeep
      rw [List.append_cons] at h
      rw [if_pos hkeep]
      dsimp only
      obtain ⟨hacc, hnot, hlen⟩ := ih _ h fun j hj => by
        rcases List.mem_append.mp hj with hj | hj
        · exact hkept j hj
        · rw [List.mem_singleton.mp hj]
          exact hstopped
      rw [List.append_cons]
      exact ⟨hacc, hnot, Nat.succ_le_succ hlen⟩
    · rw [if_neg hkeep]
      have hrelease := h.release hapi hwnd hi (closes i) (count_take_out ks is i)
      obtain ⟨hacc, hnot, hlen⟩ := ih _ hrelease fun j hj => by
        have hij : i ≠ j := by
          rintro rfl
          have hone := List.nodup_iff_count.mp h.nodup i
          rw [List.count_append, List.count_cons_self] at hone
          have := List.count_pos_iff.mpr hj
          omega
        rw [test_release hij]
        exact hkept j hj
      exact ⟨hacc, hnot, Nat.le_succ_of_le hlen⟩

/-- **`end`** gives up every entry. -/
theorem Accounts.foldl_release (hapi : api.Documented) (hwnd : wnd < 2 ^ 16) (closes : ℕ → Bool)
    {is : List ℕ} (h : Accounts api wnd s is) :
    Accounts api wnd (is.foldl (fun s i => s.release api i (closes i)) s) [] := by
  induction is generalizing s with
  | nil => exact h
  | cons i is ih =>
    exact ih (h.release hapi hwnd List.mem_cons_self (closes i) (count_take_out [] is i))

/-! ### The steps of the server -/

/-- What `available` has left on the list, before it hands out a client. -/
def swept (api : PbufApi) (s : EthernetServer) (closes : ℕ → Bool) : EthernetServer :=
  { (Server.sweep api closes s s.pending).1 with
    pending := (Server.sweep api closes s s.pending).2 }

theorem available_eq (api : PbufApi) (s : EthernetServer) (closes : ℕ → Bool) :
    s.available api closes = swept api s closes ∨
      ∃ i ∈ (swept api s closes).pending,
        s.available api closes = (swept api s closes).handOut i := by
  unfold EthernetServer.available
  dsimp only
  cases hfind : (swept api s closes).pending.find? fun i =>
      (swept api s closes).test i fun c => c.available ≠ 0 with
  | none =>
    left
    unfold swept at hfind
    rw [hfind]
    rfl
  | some i =>
    refine .inr ⟨i, List.mem_of_find?_eq_some hfind, ?_⟩
    unfold swept at hfind
    rw [hfind]
    rfl

/-- **`available`** leaves no stopped connection on the list, and hands none out. -/
theorem Accounts.available (hapi : api.Documented) (hwnd : wnd < 2 ^ 16)
    (h : Accounts api wnd s s.pending) (closes : ℕ → Bool) :
    Accounts api wnd (s.available api closes) (s.available api closes).pending ∧
      (∀ i ∈ (s.available api closes).pending,
        (s.available api closes).test i Slot.stopped = false) ∧
      (s.available api closes).pending.length ≤ s.pending.length := by
  obtain ⟨hacc, hnot, hlen⟩ := Accounts.sweep hapi hwnd closes [] h nofun
  have hswept : Accounts api wnd (swept api s closes) (swept api s closes).pending :=
    ⟨hacc.good, hacc.refs, hacc.queued, hacc.held, hacc.nodup, hacc.read, hacc.handed⟩
  obtain heq | ⟨i, hi, heq⟩ := available_eq api s closes
  · rw [heq]
    exact ⟨hswept, hnot, hlen⟩
  · rw [heq]
    refine ⟨hswept.handOut hi (hnot i hi), fun j hj => ?_, hlen⟩
    have hstopped := hnot j hj
    unfold EthernetServer.test at hstopped ⊢
    rw [show ((swept api s closes).handOut i).slots[j]? =
      ((swept api s closes).modify i Slot.ref).slots[j]? from rfl, slots_modify]
    split_ifs with hij
    · rw [Option.map_map]
      exact hstopped
    · exact hstopped

/-- A reference that is taken and given up again. -/
theorem ref_unref {c : Slot} (hpos : 0 < c.refs) (closes : Bool) : c.ref.unref api closes = c := by
  unfold Slot.unref
  have hmore : c.ref.refs ≠ 1 := by
    show c.refs + 1 ≠ 1
    omega
  rw [if_neg hmore]
  rfl

/-- **`accept`** takes the first connection off the list; the reference of the list becomes that of
the client. -/
theorem Accounts.accept (h : Accounts api wnd s s.pending)
    (hnot : ∀ i ∈ s.pending, s.test i Slot.stopped = false) :
    Accounts api wnd (s.accept api) (s.accept api).pending := by
  unfold EthernetServer.accept
  cases hpending : s.pending with
  | nil =>
    dsimp only
    rw [hpending]
    exact hpending ▸ h
  | cons i rest =>
    rw [hpending] at h
    have hi : i ∈ i :: rest := List.mem_cons_self
    have hrefs (c : Slot) (hc : s.slots[i]? = some c) : 0 < c.refs := by
      rw [h.refs i c hc, List.count_cons_self]
      omega
    have hsame (c : Slot) (hc : s.slots[i]? = some c) : c.ref.unref api true = c :=
      ref_unref (hrefs c hc) true
    have hchange : Accounts api wnd
        { s.modify i fun c => c.ref.unref api true with
          clients := i :: s.clients, handed := s.handed ++ [⟨i, s.test i Slot.stopped⟩] } rest := by
      refine h.change (f := fun c => c.ref.unref api true) (fun c hc => ?_) (fun c hc => ?_)
        (fun j hij => ?_) ?_ (fun _ => h.queued i hi) (fun _ c hc => ?_) (fun x hx => ?_)
      · rw [hsame c hc]
        exact h.good i c hc
      · rw [hsame c hc, h.refs i c hc, List.count_cons_self, List.count_cons_self]
        omega
      · exact ⟨(List.count_cons_of_ne (Ne.symm hij)).symm, List.count_cons_of_ne (Ne.symm hij)⟩
      · rw [List.count_cons_self]
        exact Nat.le_succ _
      · rw [hsame c hc]
        exact h.read i hi c hc
      · rcases List.mem_append.mp hx with hx | hx
        · exact h.handed x hx
        · rw [List.mem_singleton.mp hx]
          exact hnot i (hpending ▸ hi)
    have hslots : (({ s with pending := rest }.handOut i).modify i fun c =>
        c.unref api true).slots = (s.modify i fun c => c.ref.unref api true).slots :=
      List.modify_modify_eq ..
    dsimp only
    refine ⟨?_, ?_, ?_, ?_, hchange.nodup, ?_, hchange.handed⟩
    · rw [hslots]
      exact hchange.good
    · rw [hslots]
      exact hchange.refs
    · rw [hslots]
      exact hchange.queued
    · rw [hslots]
      exact hchange.held
    · rw [hslots]
      exact hchange.read

/-! ### Which connections are stopped -/

/-- What keeps `stopped` in one context keeps it in all. -/
theorem test_stopped_modify {f : Slot → Slot} (hf : ∀ c, (f c).stopped = c.stopped) (j : ℕ) :
    (s.modify i f).test j Slot.stopped = s.test j Slot.stopped := by
  unfold EthernetServer.test
  rw [slots_modify]
  split_ifs
  · cases s.slots[j]? with
    | none => rfl
    | some c => exact hf c
  · rfl

theorem release_stopped (api : PbufApi) (s : EthernetServer) (i j : ℕ) (closes : Bool) :
    (s.release api i closes).test j Slot.stopped = s.test j Slot.stopped := by
  apply test_stopped_modify
  intro c
  rw [unref_stopped]
  rfl

/-- No connection is stopped by the server. -/
theorem sweep_stopped (api : PbufApi) (closes : ℕ → Bool) (is : List ℕ) (s : EthernetServer)
    (j : ℕ) : (sweep api closes s is).1.test j Slot.stopped = s.test j Slot.stopped := by
  induction is generalizing s with
  | nil => rfl
  | cons i is ih =>
    unfold sweep
    split_ifs
    · exact ih s
    · rw [ih, release_stopped]

theorem available_stopped (api : PbufApi) (s : EthernetServer) (closes : ℕ → Bool) (j : ℕ) :
    (s.available api closes).test j Slot.stopped = s.test j Slot.stopped := by
  obtain heq | ⟨i, -, heq⟩ := available_eq api s closes
  · rw [heq]
    exact sweep_stopped api closes s.pending s j
  · rw [heq]
    have hmodify : (swept api s closes).test j Slot.stopped = s.test j Slot.stopped :=
      sweep_stopped api closes s.pending s j
    rw [← hmodify]
    exact test_stopped_modify (s := swept api s closes) (f := Slot.ref) (fun _ => rfl) j

/-! ### Runs of the server -/

/-- The sketch stops a connection that the server lists only when it has read all of it, and calls
`accept` only while no stopped connection is listed. -/
def Tidy (s : EthernetServer) : Action → Prop
  | .stop i _ => i ∈ s.pending → s.test i (fun c => c.available ≠ 0) = false
  | .accept => ∀ i ∈ s.pending, s.test i Slot.stopped = false
  | _ => True

instance (s : EthernetServer) : (a : Action) → Decidable (Tidy s a)
  | .stop i _ =>
    inferInstanceAs (Decidable (i ∈ s.pending → s.test i (fun c => c.available ≠ 0) = false))
  | .accept => inferInstanceAs (Decidable (∀ i ∈ s.pending, s.test i Slot.stopped = false))
  | .begin .. | .«end» _ | .onAccept _ | .event .. | .available _ | .drop .. | .copy _ =>
    inferInstanceAs (Decidable True)

/-- The invariant of the server. -/
structure Sound (api : PbufApi) (wnd : ℕ) (s : EthernetServer) : Prop where
  accounts : Accounts api wnd s s.pending
  bounded : s.pending.length ≤ maxPending

theorem Sound.end (hapi : api.Documented) (hwnd : wnd < 2 ^ 16) (h : Sound api wnd s)
    (closes : ℕ → Bool) (ok : Bool) :
    Sound api wnd { s.end api closes with listen := ok } := by
  have hacc := h.accounts.foldl_release hapi hwnd closes
  exact ⟨⟨hacc.good, hacc.refs, hacc.queued, hacc.held, hacc.nodup, hacc.read, hacc.handed⟩,
    Nat.zero_le _⟩

theorem Sound.onAccept (h : Sound api wnd s) (ok : Bool) : Sound api wnd (s.onAccept ok) := by
  refine ⟨h.accounts.onAccept ok, ?_⟩
  unfold EthernetServer.onAccept
  split_ifs with hfull
  · exact h.bounded
  · show (s.pending ++ [s.slots.length]).length ≤ maxPending
    rw [List.length_append, List.length_singleton]
    omega

theorem Sound.accept (h : Sound api wnd s) (hnot : ∀ i ∈ s.pending, s.test i Slot.stopped = false) :
    Sound api wnd (s.accept api) := by
  refine ⟨h.accounts.accept hnot, ?_⟩
  have hbounded := h.bounded
  unfold EthernetServer.accept
  cases hpending : s.pending with
  | nil => exact hbounded
  | cons i rest =>
    rw [hpending, List.length_cons] at hbounded
    exact Nat.le_of_succ_le hbounded

/-- An event finds its context, and steps its connection. -/
theorem of_event {e : Event} (hstep : step api wnd s (.event i e) = some s') :
    ∃ c conn, s.slots[i]? = some c ∧ Net.step api wnd c.conn e.action = some conn ∧
      s' = s.modify i fun c => { c with conn } := by
  unfold step at hstep
  dsimp only at hstep
  cases hc : s.slots[i]? with
  | none =>
    rw [hc] at hstep
    cases hstep
  | some c =>
    rw [hc] at hstep
    dsimp only at hstep
    cases hconn : Net.step api wnd c.conn e.action with
    | none =>
      rw [hconn] at hstep
      cases hstep
    | some conn =>
      rw [hconn] at hstep
      exact ⟨c, conn, rfl, hconn, (Option.some.inj hstep).symm⟩

/-- What is done to a client is done to one that the sketch holds. -/
theorem of_client {t : EthernetServer}
    (hstep : (if i ∈ s.clients then some t else none) = some s') : i ∈ s.clients ∧ s' = t := by
  split_ifs at hstep with hi
  exact ⟨hi, (Option.some.inj hstep).symm⟩

/-- **Every step** keeps the accounts. -/
theorem Sound.step (hapi : api.Documented) (hwnd : wnd < 2 ^ 16) (h : Sound api wnd s)
    {a : Action} (htidy : Tidy s a) (hstep : step api wnd s a = some s') : Sound api wnd s' := by
  cases a with
  | begin ok closes =>
    rw [← Option.some.inj hstep]
    exact h.end hapi hwnd closes ok
  | «end» closes =>
    rw [← Option.some.inj hstep]
    exact h.end hapi hwnd closes false
  | onAccept ok =>
    unfold Server.step at hstep
    dsimp only at hstep
    split_ifs at hstep
    rw [← Option.some.inj hstep]
    exact h.onAccept ok
  | event i e =>
    obtain ⟨c, conn, hc, hconn, rfl⟩ := of_event hstep
    exact ⟨h.accounts.event hc hconn, h.bounded⟩
  | accept =>
    rw [← Option.some.inj hstep]
    exact h.accept htidy
  | available closes =>
    rw [← Option.some.inj hstep]
    obtain ⟨hacc, -, hlen⟩ := h.accounts.available hapi hwnd closes
    exact ⟨hacc, Nat.le_trans hlen h.bounded⟩
  | stop i closes =>
    obtain ⟨hi, rfl⟩ := of_client hstep
    exact ⟨h.accounts.stop hapi hwnd hi closes htidy, h.bounded⟩
  | drop i closes =>
    obtain ⟨hi, rfl⟩ := of_client hstep
    exact ⟨h.accounts.drop hapi hwnd hi closes, h.bounded⟩
  | copy i =>
    obtain ⟨hi, rfl⟩ := of_client hstep
    exact ⟨h.accounts.copy hi, h.bounded⟩

theorem sound_start : Sound api wnd start :=
  ⟨⟨nofun, nofun, nofun, nofun, List.nodup_nil, nofun, nofun⟩, Nat.zero_le _⟩

theorem sound_of_reachable (hapi : api.Documented) (hwnd : wnd < 2 ^ 16)
    (h : (machine api wnd).Reachable Tidy s) : Sound api wnd s := by
  refine invariant (I := Sound api wnd) ?_ ?_ h
  · rintro s rfl
    exact sound_start
  · intro s a s' hs htidy hstep
    exact hs.step hapi hwnd htidy hstep

/-- What the server promises of its list. -/
structure Accounted (api : PbufApi) (s : EthernetServer) : Prop where
  /-- No client of a stopped connection was handed out. -/
  handed : ∀ h ∈ s.handed, h.stopped = false
  /-- An entry holds one reference, as each client does. -/
  refs : ∀ (i : ℕ) (c : Slot), s.slots[i]? = some c → c.refs = s.pending.count i + s.clients.count i
  /-- A context is listed once, and while it is listed it has not been destroyed. -/
  pending : ∀ i ∈ s.pending, s.pending.count i = 1 ∧
    ∃ c, s.slots[i]? = some c ∧ c.conn.phase = .idle
  bounded : s.pending.length ≤ maxPending
  /-- The next `available` has released what was stopped. -/
  available : ∀ (closes : ℕ → Bool), ∀ i ∈ (s.available api closes).pending,
    s.test i Slot.stopped = false
  /-- Where there is room, a connection that comes in is listed. -/
  onAccept : s.pending.length < maxPending →
    (s.onAccept true).pending = s.pending ++ [s.slots.length]

/-- **The server never leaks a slot**, as long as the sketch stops a listed connection only when it
has read all of it and calls `accept` only while no stopped connection is listed. -/
theorem accounted_of_reachable (hapi : api.Documented) (hwnd : wnd < 2 ^ 16)
    (h : (machine api wnd).Reachable Tidy s) : Accounted api s := by
  have hs := sound_of_reachable hapi hwnd h
  refine ⟨hs.accounts.handed, hs.accounts.refs, fun i hi => ?_, hs.bounded, fun closes i hi => ?_,
    fun hroom => ?_⟩
  · obtain ⟨c, hc, hgood, hpos⟩ := hs.accounts.exists_slot (.inl hi)
    have hone := List.nodup_iff_count.mp hs.accounts.nodup i
    have := List.count_pos_iff.mpr hi
    exact ⟨by omega, c, hc, hgood.idle hpos⟩
  · rw [← available_stopped api s closes]
    exact (hs.accounts.available hapi hwnd closes).2.1 i hi
  · unfold EthernetServer.onAccept
    rw [if_neg]
    rintro (hok | hfull)
    · exact hok rfl
    · omega

/-- Each connection of the server goes through a run of its own. -/
theorem reachable_conn (hapi : api.Documented) (hwnd : wnd < 2 ^ 16)
    (h : (machine api wnd).Reachable Tidy s) {c : Slot} (hc : s.slots[i]? = some c) :
    (Net.machine api wnd).Reachable anyStep c.conn :=
  ((sound_of_reachable hapi hwnd h).accounts.good i c hc).reachable

end

/-- A connection is found, read to its end, stopped, and released. -/
theorem accounted_of_reachable_released : ∃ s, (machine lwip 65535).run Tidy start
      [.begin true fun _ => true, .onAccept true, .event 0 (.recv [[1]] true),
        .available fun _ => true, .event 0 (.read 1 true), .stop 0 true,
        .available fun _ => true] = some s ∧
    (s.pending, s.slots.map Slot.refs) = ([], [0]) ∧ Accounted lwip s := by
  have hrun : ((machine lwip 65535).run Tidy start
      [.begin true fun _ => true, .onAccept true, .event 0 (.recv [[1]] true),
        .available fun _ => true, .event 0 (.read 1 true), .stop 0 true,
        .available fun _ => true]).map (fun s => (s.pending, s.slots.map Slot.refs)) =
          some ([], [0]) := by decide +kernel
  obtain ⟨s, hs, hlists⟩ := Option.map_eq_some_iff.mp hrun
  exact ⟨s, hs, hlists, accounted_of_reachable documented_lwip (by decide)
    (reachable_of_run (.init rfl) hs)⟩

/-- A stopped connection with an unread byte is handed out again. -/
theorem not_accounted_of_reachable :
    ¬ ∀ s, (machine lwip 65535).Reachable anyStep s → Accounted lwip s := by
  intro hall
  have hrun : ((machine lwip 65535).run anyStep start
      [.begin true fun _ => true, .onAccept true, .event 0 (.recv [[1]] true),
        .available fun _ => true, .stop 0 true, .available fun _ => true]).map
        (fun s => s.handed.map Handed.stopped) = some [false, true] := by decide +kernel
  obtain ⟨s, hs, hhanded⟩ := Option.map_eq_some_iff.mp hrun
  have hall := (hall s (reachable_of_run (.init rfl) hs)).handed
  have hmem : true ∈ s.handed.map Handed.stopped := by
    rw [hhanded]
    decide
  obtain ⟨x, hx, hstopped⟩ := List.mem_map.mp hmem
  rw [hall x hx] at hstopped
  cases hstopped

end Ch32h4.Net.Server
