import Ch32h4.Net.Equiv.Chains
import Ch32h4.Net.Equiv.Steps

/-!
# The byte stream is delivered

* `delivering_of_reachable`: in every run the bytes read are a prefix of the bytes received, what
  is available is the rest, and it stays readable after a FIN, an error or `close`; every pbuf is
  freed exactly once; and the lengths given to `tcp_recved` add up to the pbufs that were consumed
  as a whole while the pcb was there.
* `not_recved_of_reachable`: they do not add up to all pbufs consumed as a whole, as none is given
  back once the pcb is gone.

The invariant `Queued` splits the pbufs received into those that are done with and those in the
queue.  The reader stands in the first pbuf of the queue.
-/

namespace Ch32h4.Net

open Machine

/-! ### Whole pbufs -/

/-- The bytes of the pbufs that the first `n` bytes fill as a whole. -/
def wholeBytes : List (List UInt8) → ℕ → ℕ
  | [], _ => 0
  | p :: ps, n => if p.length ≤ n then p.length + wholeBytes ps (n - p.length) else 0

/-- Pbufs that are done with count as a whole. -/
theorem wholeBytes_append (ps qs : List (List UInt8)) (n : ℕ) :
    wholeBytes (ps ++ qs) (ps.flatten.length + n) = ps.flatten.length + wholeBytes qs n := by
  induction ps with
  | nil => simp
  | cons p ps ih =>
    rw [List.cons_append, wholeBytes, List.flatten_cons, List.length_append,
      if_pos (by omega), show p.length + ps.flatten.length + n - p.length =
        ps.flatten.length + n by omega, ih]
    omega

/-- Without a byte there is nothing whole but what is empty. -/
theorem wholeBytes_zero (ps : List (List UInt8)) : wholeBytes ps 0 = 0 := by
  induction ps with
  | nil => rfl
  | cons p ps ih =>
    unfold wholeBytes
    rw [Nat.zero_sub, ih]
    split_ifs <;> omega

theorem wholeBytes_of_lt {p : List UInt8} {n : ℕ} (h : n < p.length) (ps : List (List UInt8)) :
    wholeBytes (p :: ps) n = 0 := by
  unfold wholeBytes
  exact if_neg (by omega)

/-! ### Consuming -/

section

variable {σ : Pool} {api : PbufApi} {ids : List ℕ} {o : Option ℕ}

/-- Where a reader may stand in a queue: at its beginning, or inside of its first pbuf. -/
def Inside (σ : Pool) (ids : List ℕ) (off : ℕ) : Prop :=
  off = 0 ∨ ∃ i is, ids = i :: is ∧ off < (payload σ i).length

theorem bytes_release (done is : List ℕ) : bytes (release σ done) is = bytes σ is := by
  unfold bytes
  rw [funext (payload_release done)]

theorem length_bytes_cons (i : ℕ) (is : List ℕ) :
    (bytes σ (i :: is)).length = (payload σ i).length + (bytes σ is).length := by
  rw [bytes_cons, List.length_append]

/-- **`_consume`** frees the pbufs that have been read to their end, one by one, and stops inside
of the next one. -/
theorem retireLoop_eq (hapi : api.Documented) (off freed : ℕ) {fuel : ℕ} (h : Chain σ o ids)
    (hoff : off ≤ (bytes σ ids).length) (hfuel : ids.length ≤ fuel) :
    ∃ done rest o', ids = done ++ rest ∧ (bytes σ done).length ≤ off ∧
      retireLoop api fuel ⟨σ, o, off, freed⟩ =
        ⟨release σ done, o', off - (bytes σ done).length, freed + (bytes σ done).length⟩ ∧
      Chain (release σ done) o' rest ∧ Inside σ rest (off - (bytes σ done).length) := by
  induction ids generalizing σ o fuel off freed with
  | nil =>
    rw [show o = none from h]
    refine ⟨[], [], none, rfl, Nat.zero_le _, ?_, rfl, .inl ?_⟩
    · cases fuel <;> rfl
    · exact Nat.eq_zero_of_le_zero (Nat.le_trans (Nat.sub_le _ _) hoff)
  | cons i is ih =>
    obtain ⟨rfl, hnot, n, hn, href, hfrees, hrest⟩ := h
    have hlen : (payload σ i).length = n.payload.length := by rw [payload_eq hn]
    rw [length_bytes_cons] at hoff
    cases fuel with
    | zero => cases hfuel
    | succ fuel =>
      have hround : retireLoop api (fuel + 1) ⟨σ, some i, off, freed⟩ =
          if n.payload.length ≤ off then
            retireLoop api fuel ⟨σ.set i n.freed, n.next, off - n.payload.length,
              freed + n.payload.length⟩
          else ⟨σ, some i, off, freed⟩ := by
        rw [retireLoop]
        dsimp only
        rw [hn]
        dsimp only
        rw [retire_eq hapi hn href hrest hnot]
      by_cases hwhole : n.payload.length ≤ off
      · have hset (js : List ℕ) : bytes (σ.set i n.freed) js = bytes σ js :=
          bytes_set hn (show n.freed.payload = n.payload from rfl) js
        obtain ⟨done, rest, o', hsplit, hle, hloop, hchain, hinside⟩ :=
          ih (off - n.payload.length) (freed + n.payload.length) (hrest.set hnot n.freed)
            (by rw [hset]; omega) (Nat.le_of_succ_le_succ hfuel)
        have hdone : (bytes σ (i :: done)).length = n.payload.length + (bytes σ done).length := by
          rw [length_bytes_cons, hlen]
        rw [hset] at hle hloop hinside
        rw [Nat.sub_sub, ← hdone] at hloop hinside
        rw [Nat.add_assoc, ← hdone] at hloop
        refine ⟨i :: done, rest, o', congrArg (i :: ·) hsplit, by omega, ?_, ?_, ?_⟩
        · rw [hround, if_pos hwhole, hloop, release_cons hn]
        · rw [release_cons hn]
          exact hchain
        · exact hinside.imp_right fun ⟨j, js, hjs, hlt⟩ => ⟨j, js, hjs, by
            rwa [payload_set hn (show n.freed.payload = n.payload from rfl)] at hlt⟩
      · rw [hround, if_neg hwhole]
        exact ⟨[], i :: is, some i, rfl, Nat.zero_le _, rfl,
          ⟨rfl, hnot, n, hn, href, hfrees, hrest⟩, .inr ⟨i, is, rfl, by
            rw [hlen]
            exact Nat.lt_of_le_of_lt (Nat.sub_le _ _) (Nat.lt_of_not_le hwhole)⟩⟩

theorem Inside.le {off : ℕ} (h : Inside σ ids off) : off ≤ (bytes σ ids).length := by
  obtain rfl | ⟨i, is, rfl, hlt⟩ := h
  · exact Nat.zero_le _
  · rw [length_bytes_cons]
    omega

/-- No pbuf of the queue has been read as a whole. -/
theorem Inside.wholeBytes_eq {off : ℕ} (h : Inside σ ids off) :
    wholeBytes (ids.map (payload σ)) off = 0 := by
  obtain rfl | ⟨i, is, rfl, hlt⟩ := h
  · exact wholeBytes_zero _
  · exact wholeBytes_of_lt hlt _

end

/-! ### The invariant -/

/-- The memory of a pbuf has been given back once. -/
def Pbuf.FreedOnce (n : Pbuf) : Prop := n.ref = 0 ∧ n.frees = 1

/-- The pbufs `done` are done with, and `ids` are the queue. -/
structure Queued (wnd : ℕ) (s : System) (done : List (List UInt8)) (ids : List ℕ) : Prop where
  chain : Chain s.pool s.ctx.rx ids
  others : ∀ (i : ℕ) (n : Pbuf), s.pool[i]? = some n → i ∉ ids → n.FreedOnce
  parts : s.parts = done ++ ids.map (payload s.pool)
  inside : Inside s.pool ids s.ctx.rxOffset
  read : s.read = s.received.take (done.flatten.length + s.ctx.rxOffset)
  small : (bytes s.pool ids).length ≤ wnd
  recved : s.recved.sum = wholeBytes s.parts s.readLive
  readLive : s.ctx.pcb = true → s.readLive = s.read.length
  live : s.live = s.ctx.pcb

/-- After the destructor. -/
structure Gone (s : System) : Prop where
  rx : s.ctx.rx = none
  pcb : s.ctx.pcb = false
  freed : ∀ (i : ℕ) (n : Pbuf), s.pool[i]? = some n → n.FreedOnce
  read : s.read <+: s.received
  recved : s.recved.sum = wholeBytes s.parts s.readLive

section

variable {wnd : ℕ} {s s' : System} {done : List (List UInt8)} {ids : List ℕ} {api : PbufApi}

theorem Queued.received_eq (h : Queued wnd s done ids) :
    s.received = done.flatten ++ bytes s.pool ids := by
  unfold System.received bytes
  rw [h.parts, List.flatten_append, List.flatMap_def]

theorem Queued.read_length (h : Queued wnd s done ids) :
    s.read.length = done.flatten.length + s.ctx.rxOffset := by
  have := h.inside.le
  rw [h.read, List.length_take, h.received_eq, List.length_append]
  omega

/-- The bytes that have not been read. -/
theorem Queued.unread_eq (h : Queued wnd s done ids) :
    s.received.drop s.read.length = (bytes s.pool ids).drop s.ctx.rxOffset := by
  rw [h.read_length, h.received_eq, ← List.drop_drop, List.drop_left]

theorem Queued.available_eq (h : Queued wnd s done ids) :
    s.ctx.available s.pool = (bytes s.pool ids).length - s.ctx.rxOffset := by
  unfold Context.available bytes
  rw [h.chain.chain_eq, List.length_flatMap]

/-- While the pcb is there, what was given back is what is done with. -/
theorem Queued.recved_eq (h : Queued wnd s done ids) (hpcb : s.ctx.pcb = true) :
    s.recved.sum = done.flatten.length := by
  rw [h.recved, h.readLive hpcb, h.read_length, h.parts, wholeBytes_append,
    h.inside.wholeBytes_eq, Nat.add_zero]

/-- A step that leaves the queue alone, and does not bring a pcb back. -/
theorem Queued.frame (h : Queued wnd s done ids) (hpool : s'.pool = s.pool)
    (hrx : s'.ctx.rx = s.ctx.rx) (hoff : s'.ctx.rxOffset = s.ctx.rxOffset)
    (hparts : s'.parts = s.parts) (hread : s'.read = s.read) (hrecved : s'.recved = s.recved)
    (hreadLive : s'.readLive = s.readLive) (hpcb : s'.ctx.pcb = true → s.ctx.pcb = true)
    (hlive : s'.live = s'.ctx.pcb) : Queued wnd s' done ids where
  chain := by rw [hpool, hrx]; exact h.chain
  others := by rw [hpool]; exact h.others
  parts := by rw [hparts, hpool]; exact h.parts
  inside := by rw [hpool, hoff]; exact h.inside
  read := by
    unfold System.received
    rw [hread, hparts, hoff]
    exact h.read
  small := by rw [hpool]; exact h.small
  recved := by rw [hrecved, hparts, hreadLive]; exact h.recved
  readLive hp := by rw [hreadLive, hread]; exact h.readLive (hpcb hp)
  live := hlive

/-! ### Receiving -/

/-- A new chain in the pool, and the queue as it was. -/
theorem Queued.delivered (h : Queued wnd s done ids) (p : List UInt8) (ps : List (List UInt8)) :
    Chain (s.pool ++ link s.pool.length (p :: ps)) s.ctx.rx ids ∧
      (∀ j ∈ List.range' s.pool.length (ps.length + 1), j ∉ ids) ∧
      ∀ (i : ℕ) (n : Pbuf), (s.pool ++ link s.pool.length (p :: ps))[i]? = some n →
        i ∉ ids → i ∉ List.range' s.pool.length (ps.length + 1) → n.FreedOnce := by
  refine ⟨h.chain.append _, fun j hj hmem => ?_, fun i n hn hold hnew => ?_⟩
  · have := h.chain.lt hmem
    have := (List.mem_range'_1.mp hj).1
    omega
  · have hlt : i < s.pool.length := by
      by_contra hge
      have hlen := (List.getElem?_eq_some_iff.mp hn).1
      rw [List.length_append, length_link, List.length_cons] at hlen
      exact hnew (List.mem_range'_1.mpr (by omega))
    rw [List.getElem?_append_left hlt] at hn
    exact h.others i n hn hold

/-- What the queue is when the chain `new` has come in behind the queue `ids`. -/
theorem Queued.receive (h : Queued wnd s done ids) {p : List UInt8} {ps : List (List UInt8)}
    (hfits : s.received.length + (p :: ps).flatten.length ≤ s.recved.sum + wnd)
    (hpcb : s.ctx.pcb = true) (σ : Pool) (c : Context)
    (hchain : Chain σ c.rx (ids ++ List.range' s.pool.length (ps.length + 1)))
    (hothers : ∀ (i : ℕ) (n : Pbuf), σ[i]? = some n →
      i ∉ ids ++ List.range' s.pool.length (ps.length + 1) →
      n.FreedOnce)
    (hold : ids.map (payload σ) = ids.map (payload s.pool))
    (hnew : (List.range' s.pool.length (ps.length + 1)).map (payload σ) = p :: ps)
    (hoff : c.rxOffset = s.ctx.rxOffset) (hpcb' : c.pcb = s.ctx.pcb) :
    Queued wnd { s with pool := σ, ctx := c, parts := s.parts ++ (p :: ps) } done
      (ids ++ List.range' s.pool.length (ps.length + 1)) := by
  have hrecved := h.recved_eq hpcb
  have hreceived := congrArg List.length h.received_eq
  rw [List.length_append] at hreceived
  have hread := h.read_length
  have hinside := h.inside.le
  have hbytes : bytes σ ids = bytes s.pool ids := by
    unfold bytes
    rw [List.flatMap_def, List.flatMap_def, hold]
  have hbytesNew : bytes σ (List.range' s.pool.length (ps.length + 1)) = (p :: ps).flatten := by
    unfold bytes
    rw [List.flatMap_def, hnew]
  have hparts : s.parts ++ (p :: ps) =
      done ++ (ids ++ List.range' s.pool.length (ps.length + 1)).map (payload σ) := by
    rw [List.map_append, hold, hnew, h.parts, List.append_assoc]
  have hinside' : Inside σ (ids ++ List.range' s.pool.length (ps.length + 1)) c.rxOffset := by
    rw [hoff]
    apply h.inside.imp_right
    rintro ⟨i, is, rfl, hlt⟩
    refine ⟨i, is ++ _, rfl, ?_⟩
    rw [List.map_cons, List.map_cons, List.cons.injEq] at hold
    rwa [hold.1]
  refine ⟨hchain, hothers, hparts, hinside', ?_, ?_, ?_, ?_, ?_⟩
  · show s.read = List.take _ (s.parts ++ (p :: ps)).flatten
    rw [hoff, List.flatten_append, List.take_append_of_le_length]
    · exact h.read
    · show _ ≤ s.received.length
      omega
  · show (bytes σ _).length ≤ wnd
    rw [bytes_append, hbytes, hbytesNew, List.length_append]
    omega
  · show s.recved.sum = wholeBytes (s.parts ++ (p :: ps)) s.readLive
    rw [hrecved, h.readLive hpcb, hread, hparts, wholeBytes_append, ← hoff, hinside'.wholeBytes_eq,
      Nat.add_zero]
  · show c.pcb = true → s.readLive = s.read.length
    rw [hpcb']
    exact h.readLive
  · show s.live = c.pcb
    rw [hpcb']
    exact h.live

/-- **Data comes in**: the queue is extended, or begun. -/
theorem Queued.recv (hapi : api.Documented) (h : Queued wnd s done ids)
    {parts : List (List UInt8)} (hstep : s.recv api wnd parts true = some s')
    (hlive : s.live = true) : Queued wnd s' done
      (ids ++ List.range' s.pool.length parts.length) := by
  have hpcb : s.ctx.pcb = true := h.live.symm.trans hlive
  obtain ⟨hne, hfits, hs'⟩ := recv_eq hstep
  have hfits := hfits rfl
  obtain ⟨p, ps, rfl⟩ := List.exists_cons_of_ne_nil hne
  obtain ⟨hchain, hdisj, hothers⟩ := h.delivered p ps
  obtain ⟨hlink, hmap⟩ := chain_link s.pool p ps
  have hold := map_payload_append h.chain (link s.pool.length (p :: ps))
  rw [hs', if_pos rfl]
  cases hrx : s.ctx.rx with
  | none =>
    have hempty : ids = [] := Chain.eq_nil (hrx ▸ h.chain)
    have hc : s.ctx.onRecv api (s.pool ++ link s.pool.length (p :: ps)) (some s.pool.length) true =
        (s.pool ++ link s.pool.length (p :: ps), { s.ctx with rx := some s.pool.length }) := by
      unfold Context.onRecv
      dsimp only
      rw [if_pos rfl, hrx]
    rw [hc]
    apply h.receive hfits hpcb _ { s.ctx with rx := some s.pool.length } _ _ hold hmap rfl rfl
    · rw [hempty]
      exact hlink
    · intro i n hn hnot
      rw [List.mem_append, not_or] at hnot
      exact hothers i n hn hnot.1 hnot.2
  | some q =>
    obtain ⟨is, l, rfl⟩ := Chain.exists_last (hrx ▸ h.chain)
    obtain ⟨n, hn, -⟩ := hchain.get (List.mem_append_right is (List.mem_singleton_self l))
    have hc : s.ctx.onRecv api (s.pool ++ link s.pool.length (p :: ps)) (some s.pool.length) true =
        ((s.pool ++ link s.pool.length (p :: ps)).set l { n with next := some s.pool.length },
          s.ctx) := by
      unfold Context.onRecv
      dsimp only
      rw [if_pos rfl, hrx]
      dsimp only
      rw [hapi.cat_eq _ q s.pool.length is l n (hrx ▸ hchain) hn]
    have hset (js : List ℕ) := congrArg js.map (funext (payload_set hn
      (show ({ n with next := some s.pool.length } : Pbuf).payload = n.payload from rfl)))
    rw [hc]
    apply h.receive hfits hpcb _ s.ctx _ _ ((hset _).trans hold) ((hset _).trans hmap) rfl rfl
    · exact chain_cat hchain hn hlink hdisj
    · intro i m hm hnot
      rw [List.mem_append, not_or] at hnot
      have hil : l ≠ i := by
        rintro rfl
        exact hnot.1 (List.mem_append_right is (List.mem_singleton_self l))
      rw [List.getElem?_set_ne hil] at hm
      exact hothers i m hm hnot.1 hnot.2

/-- A pool whose other pbufs have been freed, with the bytes as they were. -/
theorem Queued.change (h : Queued wnd s done ids) {σ : Pool} {c : Context} {phase : Phase}
    (hchain : Chain σ s.ctx.rx ids)
    (hothers : ∀ (i : ℕ) (n : Pbuf), σ[i]? = some n → i ∉ ids → n.FreedOnce)
    (hold : ids.map (payload σ) = ids.map (payload s.pool)) (hrx : c.rx = s.ctx.rx)
    (hoff : c.rxOffset = s.ctx.rxOffset) (hpcb : c.pcb = s.ctx.pcb) :
    Queued wnd { s with pool := σ, ctx := c, phase } done ids := by
  have hpayload : ∀ i ∈ ids, payload σ i = payload s.pool i := List.map_inj_left.mp hold
  have hbytes : bytes σ ids = bytes s.pool ids := by
    unfold bytes
    rw [List.flatMap_def, List.flatMap_def, hold]
  refine ⟨?_, hothers, ?_, ?_, ?_, ?_, h.recved, ?_, ?_⟩
  · show Chain σ c.rx ids
    rw [hrx]
    exact hchain
  · show s.parts = _
    rw [hold]
    exact h.parts
  · show Inside σ ids c.rxOffset
    rw [hoff]
    apply h.inside.imp_right
    rintro ⟨i, is, rfl, hlt⟩
    exact ⟨i, is, rfl, by rwa [hpayload i List.mem_cons_self]⟩
  · show s.read = List.take (_ + c.rxOffset) s.received
    rw [hoff]
    exact h.read
  · show (bytes σ ids).length ≤ wnd
    rw [hbytes]
    exact h.small
  · show c.pcb = true → _
    rw [hpcb]
    exact h.readLive
  · show s.live = c.pcb
    rw [hpcb]
    exact h.live

/-- A chain that comes with an error is freed at once. -/
theorem Queued.recvError (hapi : api.Documented) (h : Queued wnd s done ids)
    {parts : List (List UInt8)} (hstep : s.recv api wnd parts false = some s') :
    Queued wnd s' done ids := by
  obtain ⟨hne, -, hs'⟩ := recv_eq hstep
  obtain ⟨p, ps, rfl⟩ := List.exists_cons_of_ne_nil hne
  obtain ⟨hchain, hdisj, hothers⟩ := h.delivered p ps
  obtain ⟨hlink, -⟩ := chain_link s.pool p ps
  have hnew : List.range' s.pool.length (ps.length + 1) =
      s.pool.length :: List.range' (s.pool.length + 1) ps.length := List.range'_succ
  have hc : s.ctx.onRecv api (s.pool ++ link s.pool.length (p :: ps)) (some s.pool.length) false =
      (release (s.pool ++ link s.pool.length (p :: ps))
        (List.range' s.pool.length (ps.length + 1)), { s.ctx with state := .closed }) := by
    unfold Context.onRecv
    dsimp only
    rw [if_neg nofun, hnew, free_chain hapi (hnew ▸ hlink)]
  rw [hs', hc, if_neg nofun]
  refine h.change ?_ ?_ ?_ rfl rfl rfl
  · apply hchain.congr
    intro i hi
    exact release_of_not_mem fun hmem => hdisj i hmem hi
  · intro i n hn hnot
    by_cases hmem : i ∈ List.range' s.pool.length (ps.length + 1)
    · rw [← List.append_nil (List.range' _ _)] at hlink
      obtain ⟨m, hm, hfreed⟩ := hlink.release_of_mem hmem
      rw [← Option.some.inj (hm.symm.trans hn)]
      exact hfreed
    · exact hothers i n ((release_of_not_mem hmem).symm.trans hn) hnot hmem
  · rw [funext (payload_release _)]
    exact map_payload_append h.chain _

/-! ### Reading -/

/-- What a read copies: it stays within 16 bits, as the window does. -/
theorem Queued.read_eq (hapi : api.Documented) (h : Queued wnd s done ids) (hwnd : wnd < 2 ^ 16)
    (size : ℕ) (dst : Bool) :
    (s.ctx.read api s.pool size dst).size = min size (s.ctx.available s.pool) ∧
      (dst = true → (s.ctx.read api s.pool size dst).data =
        (s.received.drop s.read.length).take size) := by
  have hsmall := h.small
  have hinside := h.inside.le
  have havail := h.available_eq
  have hunread := h.unread_eq
  unfold Context.read
  dsimp only
  by_cases hnone : s.ctx.available s.pool = 0
  · rw [if_pos hnone]
    refine ⟨by dsimp only; omega, fun _ => ?_⟩
    rw [hunread, List.drop_eq_nil_of_le (by omega), List.take_nil]
  · rw [if_neg hnone]
    refine ⟨by dsimp only; split_ifs <;> omega, fun hdst => ?_⟩
    dsimp only
    cases hrx : s.ctx.rx with
    | none =>
      have hempty : ids = [] := Chain.eq_nil (hrx ▸ h.chain)
      rw [havail, hempty] at hnone
      exact absurd (Nat.zero_sub _) hnone
    | some p =>
      dsimp only
      rw [if_pos hdst, hapi.copyPartial_eq _ p ids _ _ (hrx ▸ h.chain), hunread,
        Nat.mod_eq_of_lt (show s.ctx.rxOffset < 2 ^ 16 by omega),
        Nat.mod_eq_of_lt (by split_ifs <;> omega)]
      split_ifs with hmore
      · have hlen : ((bytes s.pool ids).drop s.ctx.rxOffset).length = s.ctx.available s.pool := by
          rw [List.length_drop, havail]
        rw [List.take_of_length_le (by omega), List.take_of_length_le (by omega)]
      · rfl

/-- The pbufs read to their end leave the queue. -/
theorem Queued.left_eq (hapi : api.Documented) (h : Queued wnd s done ids) (size : ℕ)
    (dst : Bool) : ∃ gone rest o off, ids = gone ++ rest ∧
      (s.ctx.read api s.pool size dst).left =
        ⟨release s.pool gone, o, off, (bytes s.pool gone).length⟩ ∧
      (bytes s.pool gone).length + off =
        s.ctx.rxOffset + (s.ctx.read api s.pool size dst).size ∧
      Chain (release s.pool gone) o rest ∧ Inside s.pool rest off ∧
      ∀ (i : ℕ) (n : Pbuf), (release s.pool gone)[i]? = some n → i ∉ rest → n.FreedOnce := by
  have hinside := h.inside.le
  have havail := h.available_eq
  unfold Context.read
  dsimp only
  by_cases hnone : s.ctx.available s.pool = 0
  · rw [if_pos hnone]
    exact ⟨[], ids, s.ctx.rx, s.ctx.rxOffset, rfl, rfl, Nat.zero_add _, h.chain, h.inside,
      h.others⟩
  · rw [if_neg hnone]
    dsimp only
    generalize hsize' : (if size > s.ctx.available s.pool then s.ctx.available s.pool else size) =
      size'
    have hle : size' ≤ s.ctx.available s.pool := by
      rw [← hsize']
      split_ifs <;> omega
    obtain ⟨gone, rest, o, hids, hgone, hloop, hchain, hinside'⟩ :=
      retireLoop_eq hapi (s.ctx.rxOffset + size') 0 h.chain (by omega) h.chain.length_le
    rw [Nat.zero_add] at hloop
    refine ⟨gone, rest, o, _, hids, hloop, by omega, hchain, hinside', fun i n hn hnot => ?_⟩
    by_cases hmem : i ∈ gone
    · obtain ⟨m, hm, hfreed⟩ := Chain.release_of_mem (hids ▸ h.chain) hmem
      rw [← Option.some.inj (hm.symm.trans hn)]
      exact hfreed
    · rw [release_of_not_mem hmem] at hn
      exact h.others i n hn fun hi => (List.mem_append.mp (hids ▸ hi)).elim hmem hnot

/-- What a read adds to the bytes read. -/
theorem Queued.doRead_read (hapi : api.Documented) (h : Queued wnd s done ids)
    (hwnd : wnd < 2 ^ 16) (size : ℕ) (dst : Bool) :
    (s.doRead api size dst).read =
      s.received.take (s.read.length + (s.ctx.read api s.pool size dst).size) := by
  obtain ⟨hsize, hdata⟩ := h.read_eq hapi hwnd size dst
  have hprefix : s.read = s.received.take s.read.length := by
    rw [h.read_length]
    exact h.read
  have hunread : (s.received.drop s.read.length).length = s.ctx.available s.pool := by
    rw [h.unread_eq, List.length_drop, h.available_eq]
  have hadded : (if dst then (s.ctx.read api s.pool size dst).data
      else (s.received.drop s.read.length).take (s.ctx.read api s.pool size dst).size) =
      (s.received.drop s.read.length).take (s.ctx.read api s.pool size dst).size := by
    split_ifs with hdst
    · rw [hdata hdst, hsize, ← hunread, List.take_eq_take_min]
    · rfl
  show s.read ++ (if dst then _ else _) = _
  rw [hadded, List.take_add, ← hprefix]

/-- **A read** takes the next bytes, and gives the pbufs back that are read to their end. -/
theorem Queued.doRead (hapi : api.Documented) (h : Queued wnd s done ids) (hwnd : wnd < 2 ^ 16)
    (size : ℕ) (dst : Bool) :
    ∃ done' ids', Queued wnd (s.doRead api size dst) done' ids' := by
  obtain ⟨gone, rest, o, off, hids, hleft, hoff, hchain, hinside, hothers⟩ :=
    h.left_eq hapi size dst
  obtain ⟨hparts, hlive, -⟩ := doRead_frame s api size dst
  have hread := h.doRead_read hapi hwnd size dst
  have hrecved := doRead_recved s api size dst
  have hlength := h.read_length
  rw [hleft] at hrecved
  dsimp only at hrecved
  have hpayload : payload (release s.pool gone) = payload s.pool := funext (payload_release gone)
  have hgone : (done ++ gone.map (payload s.pool)).flatten.length =
      done.flatten.length + (bytes s.pool gone).length := by
    unfold bytes
    rw [List.flatten_append, List.length_append, List.flatMap_def]
  have hreceived : (s.doRead api size dst).received = s.received := by
    unfold System.received
    rw [hparts]
  have hparts' : s.parts =
      (done ++ gone.map (payload s.pool)) ++ rest.map (payload (release s.pool gone)) := by
    rw [h.parts, hids, List.map_append, List.append_assoc, hpayload]
  have hinside' : Inside (release s.pool gone) rest off := by
    unfold Inside
    rw [hpayload]
    exact hinside
  have hlengths : (bytes s.pool gone).length + (bytes s.pool rest).length ≤ wnd := by
    have := h.small
    rwa [hids, bytes_append, List.length_append] at this
  have hfits : s.read.length + (s.ctx.read api s.pool size dst).size ≤ s.received.length := by
    have hsize := (h.read_eq hapi hwnd size dst).1
    have hunread := congrArg List.length h.unread_eq
    rw [List.length_drop, List.length_drop, ← h.available_eq] at hunread
    have := h.inside.le
    have hall := congrArg List.length h.received_eq
    rw [List.length_append] at hall
    omega
  refine ⟨done ++ gone.map (payload s.pool), rest, ?_, ?_, ?_, ?_, ?_, ?_, ?_, ?_, ?_⟩
  · show Chain (s.ctx.read api s.pool size dst).left.pool (s.ctx.read api s.pool size dst).left.rx _
    rw [hleft]
    exact hchain
  · show ∀ (i : ℕ) (n : Pbuf), (s.ctx.read api s.pool size dst).left.pool[i]? = some n → _
    rw [hleft]
    exact hothers
  · show (s.doRead api size dst).parts =
      _ ++ rest.map (payload (s.ctx.read api s.pool size dst).left.pool)
    rw [hparts, hleft]
    exact hparts'
  · show Inside (s.ctx.read api s.pool size dst).left.pool rest
      (s.ctx.read api s.pool size dst).left.rxOffset
    rw [hleft]
    exact hinside'
  · show _ = List.take (_ + (s.ctx.read api s.pool size dst).left.rxOffset) _
    rw [hread, hreceived, hleft, hgone, hlength]
    congr 1
    dsimp only
    omega
  · show (bytes (s.ctx.read api s.pool size dst).left.pool rest).length ≤ wnd
    rw [hleft]
    dsimp only
    rw [bytes_release]
    omega
  · rw [hrecved, hparts]
    show _ = wholeBytes _ (if s.ctx.pcb then
      s.readLive + (s.ctx.read api s.pool size dst).size else s.readLive)
    by_cases hpcb : s.ctx.pcb = true
    · have hsum := h.recved_eq hpcb
      have hposition : s.readLive + (s.ctx.read api s.pool size dst).size =
          (done ++ gone.map (payload s.pool)).flatten.length + off := by
        rw [h.readLive hpcb]
        omega
      rw [if_pos hpcb, hposition, hparts', wholeBytes_append, hinside'.wholeBytes_eq, hgone]
      split_ifs with hgiven
      · rw [List.sum_append, List.sum_singleton, Nat.mod_eq_of_lt (by omega)]
        omega
      · have : (bytes s.pool gone).length = 0 := by
          by_contra hne
          exact hgiven ⟨hne, hpcb⟩
        omega
    · rw [if_neg hpcb, if_neg fun hgiven => hpcb hgiven.2]
      exact h.recved
  · intro hpcb
    have hpcb' : s.ctx.pcb = true := hpcb
    show (if s.ctx.pcb then
      s.readLive + (s.ctx.read api s.pool size dst).size else s.readLive) = _
    rw [if_pos hpcb', hread, h.readLive hpcb', List.length_take]
    omega
  · rw [hlive]
    exact h.live

/-! ### The other steps -/

/-- Closing keeps the queue. -/
theorem Queued.close (h : Queued wnd s done ids) (closes : Bool) :
    Queued wnd (s.close closes) done ids := by
  have hlive : (s.close closes).live = false := by
    show (if s.ctx.pcb then false else s.live) = false
    split_ifs with hpcb
    · rfl
    · rw [h.live]
      exact Bool.not_eq_true _ ▸ hpcb
  have hfields : (s.close closes).parts = s.parts ∧ (s.close closes).read = s.read ∧
      (s.close closes).recved = s.recved ∧ (s.close closes).readLive = s.readLive ∧
      (s.close closes).pool = s.pool := by
    unfold System.close
    split_ifs <;> exact ⟨rfl, rfl, rfl, rfl, rfl⟩
  obtain ⟨hparts, hread, hrecved, hreadLive, hpool⟩ := hfields
  exact h.frame hpool rfl rfl hparts hread hrecved hreadLive nofun hlive

/-- **The destructor** frees what is left in the queue. -/
theorem Queued.destroy (hapi : api.Documented) (h : Queued wnd s done ids) (closes : Bool) :
    Gone (s.destroy api closes) := by
  have hc := h.close closes
  have hread : (s.close closes).read <+: (s.close closes).received := by
    rw [hc.read]
    exact List.take_prefix _ _
  unfold System.destroy Context.discardRx
  dsimp only
  cases hrx : (s.close closes).ctx.rx with
  | none =>
    have hempty : ids = [] := Chain.eq_nil (hrx ▸ hc.chain)
    exact ⟨rfl, rfl, fun i n hn => hc.others i n hn (by rw [hempty]; exact List.not_mem_nil), hread,
      hc.recved⟩
  | some p =>
    have hchain := hc.chain
    rw [hrx] at hchain
    cases ids with
    | nil => cases hchain
    | cons i is =>
      obtain rfl : p = i := Option.some.inj hchain.1
      refine ⟨rfl, rfl, fun k n hn => ?_, hread, hc.recved⟩
      replace hn : (release (s.close closes).pool (p :: is))[k]? = some n := by
        rw [← free_chain hapi hchain]
        exact hn
      by_cases hmem : k ∈ p :: is
      · rw [← List.append_nil (p :: is)] at hchain
        obtain ⟨m, hm, hfreed⟩ := hchain.release_of_mem hmem
        rw [← Option.some.inj (hm.symm.trans hn)]
        exact hfreed
      · rw [release_of_not_mem hmem] at hn
        exact hc.others k n hn hmem

/-- The steps of `write` do not touch the queue. -/
theorem Queued.write (h : Queued wnd s done ids) (src : List UInt8) :
    Queued wnd (s.write src) done ids := by
  unfold System.write
  split_ifs <;> exact h.frame rfl rfl rfl rfl rfl rfl rfl id h.live

theorem Queued.sndbuf (h : Queued wnd s done ids) (src : List UInt8) (written room : ℕ)
    (late : Bool) : Queued wnd (s.sndbuf src written room late) done ids := by
  unfold System.sndbuf
  split_ifs <;> exact h.frame rfl rfl rfl rfl rfl rfl rfl id h.live

theorem Queued.tcpWrite (h : Queued wnd s done ids) (src : List UInt8) (written chunk : ℕ)
    (result : WriteResult) : Queued wnd (s.tcpWrite src written chunk result) done ids := by
  unfold System.tcpWrite
  cases result <;> exact h.frame rfl rfl rfl rfl rfl rfl rfl id h.live

theorem Queued.leave (h : Queued wnd s done ids) (src : List UInt8) (written : ℕ) :
    Queued wnd (s.leave src written) done ids := by
  unfold System.leave
  split_ifs <;> exact h.frame rfl rfl rfl rfl rfl rfl rfl id h.live

/-- What holds throughout. -/
def Sound (wnd : ℕ) (s : System) : Prop :=
  (s.phase = .gone → Gone s) ∧ (s.phase ≠ .gone → ∃ done ids, Queued wnd s done ids)

theorem Queued.sound (h : Queued wnd s done ids) (hphase : s.phase ≠ .gone) : Sound wnd s :=
  ⟨fun hgone => absurd hgone hphase, fun _ => ⟨done, ids, h⟩⟩

/-- The queue, where the sketch is outside of `write`. -/
theorem Sound.queued (h : Sound wnd s) (hphase : s.phase = .idle) :
    ∃ done ids, Queued wnd s done ids :=
  h.2 (by rw [hphase]; nofun)

/-- **Every step** keeps the invariant. -/
theorem Sound.step (hapi : api.Documented) (hwnd : wnd < 2 ^ 16) (h : Sound wnd s) {a : Action}
    (hstep : step api wnd s a = some s') : Sound wnd s' := by
  cases a with
  | recv parts ok =>
    obtain ⟨hyields, hlive, hrecv⟩ := of_callback hstep
    have hphase := yields_ne_gone hyields
    obtain ⟨done, ids, hq⟩ := h.2 hphase
    have hphase' : s'.phase ≠ .gone := by
      rw [(recv_eq hrecv).2.2]
      exact hphase
    cases ok with
    | true => exact (hq.recv hapi hrecv hlive).sound hphase'
    | false => exact (hq.recvError hapi hrecv).sound hphase'
  | fin =>
    obtain ⟨hyields, -, hfin⟩ := of_callback hstep
    have hphase := yields_ne_gone hyields
    obtain ⟨done, ids, hq⟩ := h.2 hphase
    rw [← Option.some.inj hfin]
    exact Queued.sound (hq.frame rfl rfl rfl rfl rfl rfl rfl id hq.live) hphase
  | err =>
    obtain ⟨hyields, -, herr⟩ := of_callback hstep
    have hphase := yields_ne_gone hyields
    obtain ⟨done, ids, hq⟩ := h.2 hphase
    rw [← Option.some.inj herr]
    exact Queued.sound (hq.frame rfl rfl rfl rfl rfl rfl rfl nofun rfl) hphase
  | read size dst =>
    obtain ⟨hphase, rfl⟩ := of_outside hstep
    obtain ⟨done, ids, hq⟩ := h.queued hphase
    obtain ⟨done', ids', hq'⟩ := hq.doRead hapi hwnd size dst
    refine hq'.sound ?_
    rw [(doRead_frame s api size dst).2.2, hphase]
    nofun
  | close closes =>
    obtain ⟨hphase, rfl⟩ := of_outside hstep
    obtain ⟨done, ids, hq⟩ := h.queued hphase
    refine (hq.close closes).sound ?_
    rw [close_phase, hphase]
    nofun
  | abort =>
    obtain ⟨hphase, rfl⟩ := of_outside hstep
    obtain ⟨done, ids, hq⟩ := h.queued hphase
    refine (hq.close true).sound ?_
    rw [close_phase, hphase]
    nofun
  | destroy closes =>
    obtain ⟨hphase, rfl⟩ := of_outside hstep
    obtain ⟨done, ids, hq⟩ := h.queued hphase
    exact ⟨fun _ => hq.destroy hapi closes, fun hne => absurd rfl hne⟩
  | write src =>
    obtain ⟨hphase, rfl⟩ := of_outside hstep
    obtain ⟨done, ids, hq⟩ := h.queued hphase
    exact (hq.write src).sound (write_phase s src hphase)
  | sndbuf room late =>
    obtain ⟨src, written, hphase, rfl⟩ := of_sndbuf hstep
    obtain ⟨done, ids, hq⟩ := h.2 (by rw [hphase]; nofun)
    exact (hq.sndbuf src written room late).sound (sndbuf_phase s src written room late)
  | tcpWrite result =>
    obtain ⟨src, written, chunk, hphase, rfl⟩ := of_tcpWrite hstep
    obtain ⟨done, ids, hq⟩ := h.2 (by rw [hphase]; nofun)
    exact (hq.tcpWrite src written chunk result).sound (tcpWrite_phase s src written chunk result)
  | resume =>
    obtain ⟨src, written, ⟨hphase, ⟨rfl, -⟩ | ⟨rfl, -⟩⟩ | ⟨hphase, rfl⟩⟩ := of_resume hstep
    all_goals
      obtain ⟨done, ids, hq⟩ := h.2 (by rw [hphase]; nofun)
      exact Queued.sound (hq.frame rfl rfl rfl rfl rfl rfl rfl id hq.live) nofun
  | leave =>
    obtain ⟨src, written, hphase, rfl⟩ := of_leave hstep
    obtain ⟨done, ids, hq⟩ := h.2 (by rw [hphase]; nofun)
    exact (hq.leave src written).sound nofun

theorem queued_start (wnd : ℕ) : Queued wnd start [] [] where
  chain := rfl
  others := nofun
  parts := rfl
  inside := .inl rfl
  read := rfl
  small := Nat.zero_le _
  recved := rfl
  readLive _ := rfl
  live := rfl

theorem sound_of_reachable (hapi : api.Documented) (hwnd : wnd < 2 ^ 16)
    (h : (machine api wnd).Reachable anyStep s) : Sound wnd s := by
  refine invariant (I := Sound wnd) ?_ ?_ h
  · rintro s rfl
    exact (queued_start wnd).sound nofun
  · intro s a s' hs _ hstep
    exact hs.step hapi hwnd hstep

/-! ### The byte stream -/

end

end Ch32h4.Net
