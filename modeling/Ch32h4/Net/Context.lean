import Ch32h4.Net.Pbuf
import Ch32h4.TransitionSystem

/-!
# A TCP connection

`LwipClientContext` between the sketch, which reads, writes and closes, and lwIP, which calls back
with data, a FIN or an error.

* `Context` has the methods; those on the receive queue are given the pool of pbufs.
* `Phase` says where the sketch stands: outside, or inside `write`, which calls `tcp_sndbuf` and
  `tcp_write` and yields.
* `machine` lets lwIP call back wherever the sketch yields, which is outside of the methods and in
  the two places of `write`.

What lwIP answers is part of the actions: the room it reports, what `tcp_write` returns, whether
`tcp_close` succeeds.  It delivers no more than its window, of `wnd` bytes less what it has
delivered and not been given back.  A pcb that lwIP has freed, or that it was handed back, is no
longer `live`.
-/

namespace Ch32h4.Net

inductive State where
  | closed
  | connecting
  | connected
  deriving DecidableEq

structure Context where
  /-- `_pcb` is not null. -/
  pcb : Bool
  rx : Option ℕ
  rxOffset : ℕ
  state : State

/-! ### Reading -/

/-- `LwipClientContext::available`. -/
def Context.available (σ : Pool) (c : Context) : ℕ :=
  ((chain σ c.rx).map fun i => (payload σ i).length).sum - c.rxOffset

/-- `LwipClientContext::peek`; `none` stands for -1. -/
def Context.peek (api : PbufApi) (σ : Pool) (c : Context) : Option UInt8 :=
  match c.rx with
  | none => none
  | some p => if c.available σ = 0 then none else some (api.getAt σ p (c.rxOffset % 2 ^ 16))

/-- What the loop of `_consume` works on. -/
structure Retiring where
  pool : Pool
  rx : Option ℕ
  rxOffset : ℕ
  freed : ℕ

/-- The loop of `_consume`, with so many rounds at most. -/
def retireLoop (api : PbufApi) : ℕ → Retiring → Retiring
  | 0, r => r
  | fuel + 1, r =>
    match r.rx with
    | none => r
    | some p =>
      match r.pool[p]? with
      | none => r
      | some n =>
        if n.payload.length ≤ r.rxOffset then
          retireLoop api fuel
            ⟨api.free (api.refNext r.pool n.next) p, n.next, r.rxOffset - n.payload.length,
              r.freed + n.payload.length⟩
        else r

/-- The loop of `_consume`; it goes round once for each pbuf at most. -/
def Context.consume (api : PbufApi) (σ : Pool) (c : Context) (size : ℕ) : Retiring :=
  retireLoop api σ.length ⟨σ, c.rx, c.rxOffset + size, 0⟩

/-- What `read` does: what it copied, what it returns, and what `_consume` left. -/
structure Read where
  data : List UInt8
  size : ℕ
  left : Retiring

/-- `LwipClientContext::read`, up to `tcp_recved`; `dst` is whether there is a buffer. -/
def Context.read (api : PbufApi) (σ : Pool) (c : Context) (size : ℕ) (dst : Bool) : Read :=
  let unread := c.available σ
  if unread = 0 then ⟨[], 0, ⟨σ, c.rx, c.rxOffset, 0⟩⟩
  else
    let size := if size > unread then unread else size
    let data :=
      match c.rx with
      | some p => if dst then api.copyPartial σ p (size % 2 ^ 16) (c.rxOffset % 2 ^ 16) else []
      | none => []
    ⟨data, size, c.consume api σ size⟩

/-! ### State -/

/-- `LwipClientContext::connected`. -/
def Context.connected (σ : Pool) (c : Context) : Bool :=
  c.state = .connected || 0 < c.available σ

/-- `_on_recv`. -/
def Context.onRecv (api : PbufApi) (σ : Pool) (c : Context) (p : Option ℕ) (ok : Bool) :
    Pool × Context :=
  match p with
  | none => (σ, { c with state := .closed })
  | some p =>
    if ok then
      match c.rx with
      | some h => (api.cat σ h p, c)
      | none => (σ, { c with rx := some p })
    else (api.free σ p, { c with state := .closed })

/-- `_on_err`. -/
def Context.onErr (c : Context) : Context := { c with pcb := false, state := .closed }

/-- `close` and `abort` leave the context like this. -/
def Context.close (c : Context) : Context := { c with pcb := false, state := .closed }

/-- `_discard_rx`. -/
def Context.discardRx (api : PbufApi) (σ : Pool) (c : Context) : Pool × Context :=
  match c.rx with
  | some p => (api.free σ p, { c with rx := none, rxOffset := 0 })
  | none => (σ, { c with rxOffset := 0 })

/-! ### The system -/

/-- Where the sketch stands. -/
inductive Phase where
  | idle
  /-- `while (written < size)`, and `tcp_sndbuf`. -/
  | asking (src : List UInt8) (written : ℕ)
  /-- `yield`, because the window is full. -/
  | waiting (src : List UInt8) (written : ℕ)
  /-- `tcp_write`. -/
  | sending (src : List UInt8) (written chunk : ℕ)
  /-- `yield`, because there was no memory. -/
  | backingOff (src : List UInt8) (written : ℕ)
  /-- `tcp_output`, if anything was written. -/
  | leaving (src : List UInt8) (written : ℕ)
  /-- The destructor has run. -/
  | gone

/-- lwIP may call back. -/
def Phase.yields : Phase → Bool
  | idle | waiting .. | backingOff .. => true
  | asking .. | sending .. | leaving .. | gone => false

/-- A call of `write` that has returned: what it was given, what of it lwIP has queued, and what it
returned. -/
structure Written where
  src : List UInt8
  queued : List UInt8
  returned : ℕ

structure System where
  pool : Pool
  ctx : Context
  phase : Phase
  /-- lwIP still has the pcb. -/
  live : Bool
  /-- The pbufs received, in their order. -/
  parts : List (List UInt8)
  /-- The bytes read. -/
  read : List UInt8
  /-- How many of them were read while the pcb was there. -/
  readLive : ℕ
  /-- The lengths given to `tcp_recved`. -/
  recved : List ℕ
  /-- For each call of a function of lwIP on the pcb, whether it was there. -/
  calls : List Bool
  /-- What this call of `write` has queued. -/
  queued : List UInt8
  writes : List Written

/-- The bytes received. -/
def System.received (s : System) : List UInt8 := s.parts.flatten

/-- A function of lwIP is called on the pcb. -/
def System.call (s : System) : System := { s with calls := s.calls ++ [s.ctx.pcb && s.live] }

inductive WriteResult where
  | ok
  | mem
  | other
  deriving DecidableEq

inductive Action where
  /-- `_on_recv`, with a chain of pbufs. -/
  | recv (parts : List (List UInt8)) (ok : Bool)
  /-- `_on_recv`, without. -/
  | fin
  /-- `_on_err`; lwIP has freed the pcb. -/
  | err
  | read (size : ℕ) (dst : Bool)
  /-- `close`; `tcp_close` may fail. -/
  | close (closes : Bool)
  | abort
  /-- The destructor. -/
  | destroy (closes : Bool)
  | write (src : List UInt8)
  /-- `tcp_sndbuf` says `room`, and the timeout has run out or not. -/
  | sndbuf (room : ℕ) (late : Bool)
  | tcpWrite (result : WriteResult)
  /-- `yield` returns. -/
  | resume
  /-- `write` returns. -/
  | leave

/-- `_on_recv` with the chain that holds `parts`, if it fits in the window. -/
def System.recv (api : PbufApi) (wnd : ℕ) (s : System) (parts : List (List UInt8)) (ok : Bool) :
    Option System :=
  if parts = [] ∨ (ok ∧ s.recved.sum + wnd < s.received.length + parts.flatten.length) then none
  else
    let σ := s.pool ++ link s.pool.length parts
    let r := s.ctx.onRecv api σ (some s.pool.length) ok
    some { s with pool := r.1, ctx := r.2, parts := if ok then s.parts ++ parts else s.parts }

/-- `read`.  A read without a buffer skips the bytes. -/
def System.doRead (api : PbufApi) (s : System) (size : ℕ) (dst : Bool) : System :=
  let r := s.ctx.read api s.pool size dst
  let data := if dst then r.data else (s.received.drop s.read.length).take r.size
  let s' := if r.left.freed ≠ 0 ∧ s.ctx.pcb
    then { s.call with recved := s.recved ++ [r.left.freed % 2 ^ 16] } else s
  { s' with
    pool := r.left.pool, ctx := { s.ctx with rx := r.left.rx, rxOffset := r.left.rxOffset },
    read := s.read ++ data,
    readLive := if s.ctx.pcb then s.readLive + r.size else s.readLive }

/-- `close`: if `tcp_close` fails, `tcp_abort` follows. -/
def System.close (s : System) (closes : Bool) : System :=
  let s' := if s.ctx.pcb then (if closes then s.call else s.call.call) else s
  { s' with ctx := s.ctx.close, live := if s.ctx.pcb then false else s.live }

/-- The destructor. -/
def System.destroy (api : PbufApi) (s : System) (closes : Bool) : System :=
  let s' := s.close closes
  let r := s'.ctx.discardRx api s'.pool
  { s' with pool := r.1, ctx := r.2, phase := .gone }

/-- `write` begins. -/
def System.write (s : System) (src : List UInt8) : System :=
  if ¬ s.ctx.pcb ∨ s.ctx.state ≠ .connected ∨ src.length = 0 then
    { s with writes := s.writes ++ [⟨src, [], 0⟩] }
  else { s with phase := .asking src 0, queued := [] }

/-- The head of the loop. -/
def System.sndbuf (s : System) (src : List UInt8) (written room : ℕ) (late : Bool) : System :=
  if written < src.length then
    if room = 0 then
      if late then { s.call with phase := .leaving src written }
      else { s.call with phase := .waiting src written }
    else
      let chunk := src.length - written
      { s.call with phase := .sending src written (if chunk > room then room else chunk) }
  else { s with phase := .leaving src written }

/-- `tcp_write`: lwIP queues all of what it is given, or nothing. -/
def System.tcpWrite (s : System) (src : List UInt8) (written chunk : ℕ) (result : WriteResult) :
    System :=
  match result with
  | .mem => { s.call with phase := .backingOff src written }
  | .other => { s.call with phase := .leaving src written }
  | .ok =>
    { s.call with
      phase := .asking src (written + chunk),
      queued := s.queued ++ (src.drop written).take (chunk % 2 ^ 16) }

/-- `write` returns. -/
def System.leave (s : System) (src : List UInt8) (written : ℕ) : System :=
  let s' := if written ≠ 0 ∧ s.ctx.pcb then s.call else s
  { s' with phase := .idle, writes := s.writes ++ [⟨src, s.queued, written⟩] }

/-- What the sketch does outside of `write`. -/
def System.outside (s s' : System) : Option System :=
  match s.phase with
  | .idle => some s'
  | _ => none

/-- What lwIP does where the sketch yields. -/
def System.callback (s : System) (s' : Option System) : Option System :=
  if s.phase.yields ∧ s.live then s' else none

def step (api : PbufApi) (wnd : ℕ) (s : System) : Action → Option System
  | .recv parts ok => s.callback (s.recv api wnd parts ok)
  | .fin => s.callback (some { s with ctx := (s.ctx.onRecv api s.pool none true).2 })
  | .err => s.callback (some { s with ctx := s.ctx.onErr, live := false })
  | .read size dst => s.outside (s.doRead api size dst)
  | .close closes => s.outside (s.close closes)
  | .abort => s.outside (s.close true)
  | .destroy closes => s.outside (s.destroy api closes)
  | .write src => s.outside (s.write src)
  | .sndbuf room late =>
    match s.phase with
    | .asking src written => some (s.sndbuf src written room late)
    | _ => none
  | .tcpWrite result =>
    match s.phase with
    | .sending src written chunk => some (s.tcpWrite src written chunk result)
    | _ => none
  | .resume =>
    match s.phase with
    | .waiting src written =>
      if ¬ s.ctx.pcb ∨ s.ctx.state ≠ .connected then some { s with phase := .leaving src written }
      else some { s with phase := .asking src written }
    | .backingOff src written => some { s with phase := .asking src written }
    | _ => none
  | .leave =>
    match s.phase with
    | .leaving src written => some (s.leave src written)
    | _ => none

/-- A context that has just been connected. -/
def start : System where
  pool := []
  ctx := ⟨true, none, 0, .connected⟩
  phase := .idle
  live := true
  parts := []
  read := []
  readLive := 0
  recved := []
  calls := []
  queued := []
  writes := []

def machine (api : PbufApi) (wnd : ℕ) : Machine System Action where
  init s := s = start
  step := step api wnd

end Ch32h4.Net
