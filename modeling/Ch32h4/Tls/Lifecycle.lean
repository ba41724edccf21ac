import Ch32h4.Ledger
import Ch32h4.Tls.Session
import Ch32h4.Traced
import Ch32h4.TransitionSystem

/-!
# The contexts of a TLS session

An `EthernetTlsSession` has seven contexts of mbedTLS.  `handshake` initialises them, and they are
freed when the session is closed or deleted; copies of an `EthernetClientSecure` share a session and
count their references.  Here every call of mbedTLS is entered in a ledger, with the contexts that
it is given and with `_up` at the time.

What mbedTLS and the transport answer comes with each action.  The memory of a session that was
deleted stays what it was, so that a call through a pointer to it would be seen in the ledger.
-/

namespace Ch32h4.Tls.Lifecycle

open Traced

inductive Context where
  | ssl
  | conf
  | drbg
  | entropy
  | ca
  | cert
  | key
  deriving DecidableEq

/-- In the order in which `handshake` initialises them, and `freeContexts` frees them. -/
def contexts : List Context := [.ssl, .conf, .drbg, .entropy, .ca, .cert, .key]

/-! ### `handshake` -/

/-- A part of `handshake`, which notes the contexts of each call of mbedTLS. -/
abbrev Part (α : Type) := ExceptT Failure (Traced (List Context)) α

/-- A call of mbedTLS, with those contexts. -/
def call (given : List Context) : Part Unit := ExceptT.lift (note given)

/-- `if (last_error != 0) return false;`, after such a call. -/
def tried (given : List Context) (ret : ℤ) : Part Unit := do
  call given
  ExceptT.mk (pure (check ret))

/-- The CA of the sketch is parsed, and required. -/
def requireChain (m : Mbedtls) (conf : Conf) (pem : String) : Part Conf := do
  tried [.ca] (m.crt_parse pem)
  call [.conf, .ca]
  call [.conf]
  return { conf with ca := some (.chain pem), authmode := .required }

/-- Nobody is verified. -/
def requireNone (conf : Conf) : Part Conf := do
  call [.conf]
  return { conf with authmode := .none }

/-- Who verifies whom. -/
def authenticate (m : Mbedtls) (o : Options) (conf : Conf) : Part Conf :=
  if o.server then
    match o.ca_pem with
    | some pem => if o.require_client_cert then requireChain m conf pem else requireNone conf
    | none => requireNone conf
  else if o.insecure then requireNone conf
  else
    match o.ca_pem with
    | some pem => requireChain m conf pem
    | none =>
      -- `ch32h4_ca_store_install`
      if m.ca_root_count ≠ 0 then do
        call [.conf]
        call [.conf]
        return { conf with ca := some .store, authmode := .required }
      else throw ⟨.caChainRequired, 0⟩

/-- The endpoint's own certificate. -/
def ownCertificate (m : Mbedtls) (o : Options) (conf : Conf) : Part Conf :=
  match o.cert_pem, o.key_pem with
  | some cert, some key => do
    tried [.cert] (m.crt_parse cert)
    tried [.key, .drbg] (m.pk_parse_key key)
    tried [.conf, .cert, .key] (m.conf_own_cert cert key)
    return { conf with own_cert := some (cert, key) }
  | _, _ => if o.server then throw ⟨.privateKeyRequired, 0⟩ else return conf

/-- The name of the server. -/
def setHostname (m : Mbedtls) (o : Options) : Part (Option String) :=
  match o.hostname with
  | some name =>
    if ¬ o.server ∧ name ≠ "" then do
      tried [.ssl] (m.set_hostname name)
      return some name
    else return none
  | none => return none

/-- `handshake` once the contexts are initialised, up to its loop. -/
def bringUp (m : Mbedtls) (o : Options) : Part Session := do
  tried [.drbg, .entropy] m.ctr_drbg_seed
  tried [.conf] m.config_defaults
  call [.conf, .drbg]
  let conf ← authenticate m o (Conf.defaults o.server)
  let conf ← ownCertificate m o conf
  tried [.ssl, .conf] m.setup
  let hostname ← setHostname m o
  -- `mbedtls_ssl_conf_max_frag_len` and `mbedtls_ssl_set_bio`
  call [.conf]
  call [.ssl]
  return ⟨conf, hostname, 0⟩

/-- The loop of `handshake`. -/
def handshakeLoop (m : Mbedtls) (s : Session) (timeout_ms : ℕ) :
    ℕ → ℕ → Traced (List Context) (Option (Except Failure Unit))
  | 0, _ => return none
  | rounds + 1, k => do
    note [.ssl]
    let ret := m.handshake s k
    if ret = 0 then return some (.ok ())
    else if ret ≠ m.want_read ∧ ret ≠ m.want_write then do
      note [.ssl]
      return some (.error ⟨.code ret, m.get_verify_result s⟩)
    else if m.elapsed k > timeout_ms then return some (.error ⟨.timeout, 0⟩)
    else handshakeLoop m s timeout_ms rounds (k + 1)

/-- `handshake` once the contexts are initialised: still in its loop after `rounds` rounds, or how
it ends. -/
def negotiate (m : Mbedtls) (o : Options) (rounds : ℕ) :
    Traced (List Context) (Option (Except Failure Session)) := do
  match ← (bringUp m o).run with
  | .error e => return some (.error e)
  | .ok s =>
    match ← handshakeLoop m s o.timeout_ms rounds 0 with
    | none => return none
    | some (.error e) => return some (.error e)
    | some (.ok ()) =>
      note [.ssl]
      return some (verify m o s)

/-! ### Sessions and clients -/

/-- `EthernetTlsSession`. -/
structure TlsSession where
  refs : ℤ
  up : Bool
  connected : Bool

/-- As it is constructed. -/
def TlsSession.new : TlsSession := ⟨1, false, false⟩

/-- A call of mbedTLS did something to a context of a session. -/
structure Note where
  entry : Entry (ℕ × Context)
  /-- `_up` at the time. -/
  up : Bool

structure State where
  /-- Every session that was ever allocated. -/
  sessions : ℕ → TlsSession
  /-- How many there are. -/
  next : ℕ
  /-- `_s` of every object, null also for one that was destroyed. -/
  clients : List (Option ℕ)
  ledger : List Note

namespace State

/-- `_s` of an object. -/
def client (st : State) (i : ℕ) : Option ℕ := (st.clients[i]?).join

def setSession (st : State) (k : ℕ) (s : TlsSession) : State :=
  { st with sessions := fun j => if j = k then s else st.sessions j }

def setClient (st : State) (i : ℕ) (s : Option ℕ) : State :=
  { st with clients := st.clients.set i s }

/-- A call of mbedTLS with some contexts of a session. -/
def touch (st : State) (k : ℕ) (deed : Deed) (given : List Context) : State :=
  { st with ledger := st.ledger ++
      given.map fun c => ⟨⟨deed, (k, c)⟩, (st.sessions k).up⟩ }

/-! ### `EthernetTlsSession` -/

/-- `EthernetTlsSession::freeContexts`. -/
def freeContexts (st : State) (k : ℕ) : State :=
  if ¬ (st.sessions k).up then st
  else (st.touch k .release contexts).setSession k { st.sessions k with up := false }

/-- `EthernetTlsSession::close`. -/
def close (st : State) (k : ℕ) : State :=
  let st :=
    if (st.sessions k).connected then
      (st.touch k .use [.ssl]).setSession k { st.sessions k with connected := false }
    else st
  st.freeContexts k

def ref (st : State) (k : ℕ) : State :=
  st.setSession k { st.sessions k with refs := (st.sessions k).refs + 1 }

/-- `EthernetTlsSession::unref`; to delete a session is to close it. -/
def unref (st : State) (k : ℕ) : State :=
  let st := st.setSession k { st.sessions k with refs := (st.sessions k).refs - 1 }
  if (st.sessions k).refs ≤ 0 then st.close k else st

/-- The first lines of `handshake`. -/
def initContexts (st : State) (k : ℕ) : State :=
  (st.touch k .acquire contexts).setSession k { st.sessions k with up := true }

/-- The calls of mbedTLS that follow. -/
def touches (st : State) (k : ℕ) (calls : List (List Context)) : State :=
  calls.foldl (fun st given => st.touch k .use given) st

/-! ### `EthernetClientSecure` -/

/-- `EthernetClientSecure::release`. -/
def release (st : State) (i : ℕ) : State :=
  match st.client i with
  | none => st
  | some k => (st.unref k).setClient i none

/-- `EthernetClientSecure::copyFrom`, as far as the session goes. -/
def copyFrom (st : State) (i j : ℕ) : State :=
  let st' := st.setClient i (st.client j)
  match st.client j with
  | none => st'
  | some k => st'.ref k

/-- `operator=`. -/
def assign (st : State) (i j : ℕ) : State :=
  if i = j then st else (st.release i).copyFrom i j

/-- `EthernetClientSecure::stop`. -/
def stop (st : State) (i : ℕ) : State :=
  match st.client i with
  | none => st
  | some k => st.close k

/-- `EthernetClientSecure::newSession`; `alloc` is whether there is memory for one. -/
def newSession (st : State) (i : ℕ) (alloc : Bool) : State :=
  let st := st.release i
  if alloc then
    { (st.setSession st.next .new).setClient i (some st.next) with next := st.next + 1 }
  else st.setClient i none

/-- What follows in `connect`, once the session has its transport. -/
def secure (st : State) (k : ℕ) (m : Mbedtls) (o : Options) (rounds : ℕ) : Option State :=
  let r := negotiate m o rounds
  let st := (st.initContexts k).touches k r.events
  match r.value with
  | none => none
  | some (.error _) => some (st.close k)
  | some (.ok _) => some (st.setSession k { st.sessions k with connected := true })

/-- `EthernetClientSecure::connect`, of an object that was set to `c`, by name or, where `host` is
`none`, by address.  `tcp` is whether the transport connects.  The call is `none` if its handshake
is not over after so many rounds. -/
def connect (st : State) (i : ℕ) (alloc tcp : Bool) (m : Mbedtls) (c : EthernetClientSecure)
    (host : Option String) (rounds : ℕ) : Option State :=
  let st := (st.stop i).newSession i alloc
  match st.client i with
  | none => some st
  | some k => if ¬ tcp then some st else st.secure k m (c.options host) rounds

/-- An answer that only means that the call is to be made again. -/
def wanted (m : Mbedtls) (ret : ℤ) : Prop := ret = m.want_read ∨ ret = m.want_write

instance (m : Mbedtls) (ret : ℤ) : Decidable (wanted m ret) := inferInstanceAs (Decidable (_ ∨ _))

/-- The connection is over. -/
def lose (st : State) (k : ℕ) : State :=
  st.setSession k { st.sessions k with connected := false }

/-- The loop of `write`, given what its calls of `mbedtls_ssl_write` return and whether the time is
up after each. -/
def writeLoop (m : Mbedtls) (k size : ℕ) : List (ℤ × Bool) → ℕ → State → State
  | [], _, st => st
  | (ret, late) :: rets, sent, st =>
    if sent < size then
      let st := st.touch k .use [.ssl]
      if ret > 0 then writeLoop m k size rets (sent + ret.toNat) st
      else if ¬ wanted m ret then st.lose k
      else if late then st
      else writeLoop m k size rets sent st
    else st

/-- `EthernetClientSecure::write`. -/
def write (st : State) (i : ℕ) (m : Mbedtls) (size : ℕ) (rets : List (ℤ × Bool)) : State :=
  match st.client i with
  | none => st
  | some k => if ¬ (st.sessions k).connected ∨ size = 0 then st else writeLoop m k size rets 0 st

/-- `EthernetClientSecure::available`; `n` is what is buffered, and `ret` what the read of nothing
returns. -/
def available (st : State) (i : ℕ) (m : Mbedtls) (n : ℕ) (ret : ℤ) : State :=
  match st.client i with
  | none => st
  | some k =>
    let st := st.touch k .use [.ssl]
    if n > 0 then st
    else if ¬ (st.sessions k).connected then st
    else
      let st := st.touch k .use [.ssl]
      if ret < 0 ∧ ¬ wanted m ret then st.lose k else st.touch k .use [.ssl]

/-- `EthernetClientSecure::read` into a buffer; `n` is what is buffered. -/
def read (st : State) (i : ℕ) (m : Mbedtls) (size n : ℕ) (ret : ℤ) : State :=
  match st.client i with
  | none => st
  | some k =>
    if size = 0 then st
    else
      let closed := ¬ (st.sessions k).connected
      let st := if closed then st.touch k .use [.ssl] else st
      if closed ∧ n = 0 then st
      else
        let st := st.touch k .use [.ssl]
        if ret > 0 ∨ wanted m ret then st else st.lose k

/-- `EthernetClientSecure::connected`. -/
def connected (st : State) (i : ℕ) : State :=
  match st.client i with
  | none => st
  | some k => if ¬ (st.sessions k).connected then st else st.touch k .use [.ssl]

end State

/-! ### Runs -/

/-- What a sketch does with its objects.  `read` without a buffer is so many calls of `read`. -/
inductive Action where
  | new
  | copy (j : ℕ)
  | assign (i j : ℕ)
  | destroy (i : ℕ)
  | connect (i : ℕ) (alloc tcp : Bool) (m : Mbedtls) (c : EthernetClientSecure)
    (host : Option String) (rounds : ℕ)
  | write (i : ℕ) (m : Mbedtls) (size : ℕ) (rets : List (ℤ × Bool))
  | available (i : ℕ) (m : Mbedtls) (n : ℕ) (ret : ℤ)
  | read (i : ℕ) (m : Mbedtls) (size n : ℕ) (ret : ℤ)
  | connected (i : ℕ)
  | stop (i : ℕ)

/-- A new object, with no session. -/
def State.add (st : State) : State := { st with clients := st.clients ++ [none] }

/-- The objects that it is done with. -/
def Action.objects : Action → List ℕ
  | .new => []
  | .copy j => [j]
  | .assign i j => [i, j]
  | .destroy i | .connect i .. | .write i .. | .available i .. | .read i .. | .connected i
  | .stop i => [i]

def State.step (st : State) : Action → Option State
  | .new => some st.add
  | .copy j => some (st.add.copyFrom st.clients.length j)
  | .assign i j => some (st.assign i j)
  | .destroy i => some (st.release i)
  | .connect i alloc tcp m c host rounds => st.connect i alloc tcp m c host rounds
  | .write i m size rets => some (st.write i m size rets)
  | .available i m n ret => some (st.available i m n ret)
  | .read i m size n ret => some (st.read i m size n ret)
  | .connected i => some (st.connected i)
  | .stop i => some (st.stop i)

/-- At first there is no object and no session. -/
def State.empty : State := ⟨fun _ => ⟨0, false, false⟩, 0, [], []⟩

def machine : Machine State Action where
  init st := st = .empty
  step st a := if ∀ i ∈ a.objects, i < st.clients.length then st.step a else none

/-- A session of the object has its contexts, or there is none. -/
def State.Usable (st : State) (i : ℕ) : Prop := ∀ k, st.client i = some k → (st.sessions k).up

/-- `available`, and `read` of anything, are only called of an object that has no session, or of one
whose last `connect` has come to its handshake and who was not closed since. -/
def careful (st : State) : Action → Prop
  | .available i _ _ _ => st.Usable i
  | .read i _ size _ _ => size ≠ 0 → st.Usable i
  | _ => True

end Ch32h4.Tls.Lifecycle
