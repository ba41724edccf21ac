import Ch32h4.Net.Context

/-!
# The server and its pending connections

`EthernetServer` queues the connections that lwIP has accepted, four at most, until the sketch asks
for them.  A connection is shared: by the queue, and by the `EthernetClient`s of the sketch, each
of which holds a reference.  `accept` takes a connection off the queue, and `available` leaves it
there.

Every context there has ever been has a number.  What lwIP and the sketch do to a connection are
the actions of a `System`; those of `write` are left out, as they do not change what the server
sees of it.
-/

namespace Ch32h4.Net.Server

/-- `MAX_PENDING`. -/
def maxPending : ℕ := 4

/-- A context, with `_refs`. -/
structure Slot where
  conn : System
  refs : ℕ
  /-- The sketch has called `stop` on a client of it. -/
  stopped : Bool

/-- `LwipClientContext::unref`. -/
def Slot.unref (api : PbufApi) (c : Slot) (closes : Bool) : Slot :=
  if c.refs = 1 then { c with refs := 0, conn := c.conn.destroy api closes }
  else { c with refs := c.refs - 1 }

def Slot.ref (c : Slot) : Slot := { c with refs := c.refs + 1 }

def Slot.close (c : Slot) (closes : Bool) : Slot := { c with conn := c.conn.close closes }

/-- `ctx->available()`. -/
def Slot.available (c : Slot) : ℕ := c.conn.ctx.available c.conn.pool

/-- `ctx->connected() || ctx->available()`. -/
def Slot.kept (c : Slot) : Bool := c.conn.ctx.connected c.conn.pool || c.available ≠ 0

/-- A client that the server has handed out, and whether the sketch had stopped its connection
before. -/
structure Handed where
  id : ℕ
  stopped : Bool

structure EthernetServer where
  /-- `_listen` is not null. -/
  listen : Bool
  /-- `_pending`, as far as `_count`. -/
  pending : List ℕ
  slots : List Slot
  /-- The connections of the `EthernetClient`s that the sketch holds. -/
  clients : List ℕ
  handed : List Handed

/-- What holds of a context, if there is one of that number. -/
def EthernetServer.test (s : EthernetServer) (i : ℕ) (f : Slot → Bool) : Bool :=
  (s.slots[i]?.map f).getD false

def EthernetServer.modify (s : EthernetServer) (i : ℕ) (f : Slot → Slot) : EthernetServer :=
  { s with slots := s.slots.modify i f }

/-- `ctx->close(); ctx->unref();`. -/
def EthernetServer.release (api : PbufApi) (s : EthernetServer) (i : ℕ) (closes : Bool) :
    EthernetServer :=
  s.modify i fun c => (c.close closes).unref api closes

/-- `EthernetServer::end`. -/
def EthernetServer.end (api : PbufApi) (s : EthernetServer) (closes : ℕ → Bool) : EthernetServer :=
  let s' := s.pending.foldl (fun s i => s.release api i (closes i)) s
  { s' with listen := false, pending := [] }

/-- `EthernetServer::_on_accept`; a connection may come with an error, and there may be no memory
for a context. -/
def EthernetServer.onAccept (s : EthernetServer) (ok : Bool) : EthernetServer :=
  if ¬ ok ∨ s.pending.length ≥ maxPending then s
  else
    { s with pending := s.pending ++ [s.slots.length], slots := s.slots ++ [⟨Net.start, 1, false⟩] }

/-- The sketch gets a client. -/
def EthernetServer.handOut (s : EthernetServer) (i : ℕ) : EthernetServer :=
  let s' := s.modify i Slot.ref
  { s' with
    clients := i :: s.clients, handed := s.handed ++ [⟨i, s.test i Slot.stopped⟩] }

/-- `EthernetServer::accept`. -/
def EthernetServer.accept (api : PbufApi) (s : EthernetServer) : EthernetServer :=
  match s.pending with
  | [] => s
  | i :: rest => ({ s with pending := rest }.handOut i).modify i fun c => c.unref api true

/-- The first loop of `available`: what is kept, and the contexts then. -/
def sweep (api : PbufApi) (closes : ℕ → Bool) : EthernetServer → List ℕ → EthernetServer × List ℕ
  | s, [] => (s, [])
  | s, i :: is =>
    if s.test i Slot.kept then
      let r := sweep api closes s is
      (r.1, i :: r.2)
    else sweep api closes (s.release api i (closes i)) is

/-- `EthernetServer::available`. -/
def EthernetServer.available (api : PbufApi) (s : EthernetServer) (closes : ℕ → Bool) :
    EthernetServer :=
  let r := sweep api closes s s.pending
  let s' := { r.1 with pending := r.2 }
  match s'.pending.find? fun i => s'.test i fun c => c.available ≠ 0 with
  | none => s'
  | some i => s'.handOut i

/-- `EthernetClient::stop`, on a client of context `i`. -/
def EthernetServer.stop (api : PbufApi) (s : EthernetServer) (i : ℕ) (closes : Bool) :
    EthernetServer :=
  let s' := s.modify i fun c => { (c.close closes).unref api closes with stopped := true }
  { s' with clients := s.clients.erase i }

/-- The destructor of a client of context `i`. -/
def EthernetServer.drop (api : PbufApi) (s : EthernetServer) (i : ℕ) (closes : Bool) :
    EthernetServer :=
  let s' := s.modify i fun c => c.unref api closes
  { s' with clients := s.clients.erase i }

/-- A client of context `i` is copied. -/
def EthernetServer.copy (s : EthernetServer) (i : ℕ) : EthernetServer :=
  let s' := s.modify i Slot.ref
  { s' with clients := i :: s.clients }

/-- What happens to a connection apart from the server: callbacks and reads. -/
inductive Event where
  | recv (parts : List (List UInt8)) (ok : Bool)
  | fin
  | err
  | read (size : ℕ) (dst : Bool)

/-- The step of the connection. -/
def Event.action : Event → Net.Action
  | recv parts ok => .recv parts ok
  | fin => .fin
  | err => .err
  | read size dst => .read size dst

inductive Action where
  /-- `begin`; a listener may not be had. -/
  | begin (ok : Bool) (closes : ℕ → Bool)
  | «end» (closes : ℕ → Bool)
  | onAccept (ok : Bool)
  | event (i : ℕ) (e : Event)
  | accept
  | available (closes : ℕ → Bool)
  | stop (i : ℕ) (closes : Bool)
  | drop (i : ℕ) (closes : Bool)
  | copy (i : ℕ)

def step (api : PbufApi) (wnd : ℕ) (s : EthernetServer) : Action → Option EthernetServer
  | .begin ok closes => some { s.end api closes with listen := ok }
  | .«end» closes => some (s.end api closes)
  | .onAccept ok => if s.listen then some (s.onAccept ok) else none
  | .event i e =>
    match s.slots[i]? with
    | none => none
    | some c =>
      match Net.step api wnd c.conn e.action with
      | none => none
      | some conn => some (s.modify i fun c => { c with conn })
  | .accept => some (s.accept api)
  | .available closes => some (s.available api closes)
  | .stop i closes => if i ∈ s.clients then some (s.stop api i closes) else none
  | .drop i closes => if i ∈ s.clients then some (s.drop api i closes) else none
  | .copy i => if i ∈ s.clients then some (s.copy i) else none

/-- A server that has not begun. -/
def start : EthernetServer := ⟨false, [], [], [], []⟩

def machine (api : PbufApi) (wnd : ℕ) : Machine EthernetServer Action where
  init s := s = start
  step := step api wnd

end Ch32h4.Net.Server
