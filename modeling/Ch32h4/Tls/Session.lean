import Mathlib.Algebra.Order.Ring.Int

/-!
# The handshake of a TLS session

`EthernetTlsSession::handshake` brings up the contexts of mbedTLS and runs its handshake.  Who
verifies whom is decided here: from the role, the CA, the compiled-in store of CAs and the flags.
`EthernetClientSecure` and `EthernetServerSecure` call it with what they were set to.

mbedTLS is a parameter, with what its functions answer.  A null pointer to a string is `none`.
-/

namespace Ch32h4.Tls

/-- `MBEDTLS_SSL_VERIFY_*`. -/
inductive Authmode where
  | none
  | optional
  | required
deriving DecidableEq

/-- What a peer's certificate is checked against. -/
inductive Trust where
  /-- `mbedtls_ssl_conf_ca_chain`, of a parsed PEM. -/
  | chain (pem : String)
  /-- `mbedtls_ssl_conf_ca_cb`, of the compiled-in store. -/
  | store
deriving DecidableEq

/-- `mbedtls_ssl_config`. -/
structure Conf where
  server : Bool
  authmode : Authmode
  ca : Option Trust
  own_cert : Option (String × String)

/-- `mbedtls_ssl_config_defaults`. -/
def Conf.defaults (server : Bool) : Conf :=
  ⟨server, if server then .none else .required, none, none⟩

/-- The session, as mbedTLS and the owner of the session see it. -/
structure Session where
  conf : Conf
  /-- `mbedtls_ssl_set_hostname`. -/
  hostname : Option String
  verify_flags : ℕ

/-- What mbedTLS answers, and how it was built. -/
structure Mbedtls where
  /-- `MBEDTLS_SSL_SRV_C`. -/
  srv : Bool
  /-- `MBEDTLS_SSL_CLI_ALLOW_WEAK_CERTIFICATE_VERIFICATION_WITHOUT_HOSTNAME`. -/
  weak : Bool
  /-- `MBEDTLS_ERR_SSL_WANT_READ` and `MBEDTLS_ERR_SSL_WANT_WRITE`. -/
  want_read : ℤ
  want_write : ℤ
  /-- `CH32H4_CA_ROOT_COUNT`, zero without a store. -/
  ca_root_count : ℕ
  ctr_drbg_seed : ℤ
  config_defaults : ℤ
  crt_parse : String → ℤ
  pk_parse_key : String → ℤ
  conf_own_cert : String → String → ℤ
  setup : ℤ
  set_hostname : String → ℤ
  /-- What the calls of `mbedtls_ssl_handshake` return, one after the other. -/
  handshake : Session → ℕ → ℤ
  get_verify_result : Session → ℕ
  /-- `millis() - start` after each of the calls. -/
  elapsed : ℕ → ℕ

/-- **What mbedTLS documents**: a client that requires a certificate has to be told the name to look
for in it, or the handshake fails, unless the build says otherwise. -/
def Mbedtls.Documented (m : Mbedtls) : Prop :=
  m.weak = false → ∀ s k, s.conf.server = false → s.conf.authmode = .required →
    s.hostname = none → m.handshake s k ≠ 0

/-- `last_error`. -/
inductive Error where
  /-- What a function of mbedTLS has returned. -/
  | code (ret : ℤ)
  /-- `MBEDTLS_ERR_SSL_FEATURE_UNAVAILABLE`. -/
  | featureUnavailable
  /-- `MBEDTLS_ERR_SSL_CA_CHAIN_REQUIRED`. -/
  | caChainRequired
  /-- `MBEDTLS_ERR_SSL_PRIVATE_KEY_REQUIRED`. -/
  | privateKeyRequired
  /-- `MBEDTLS_ERR_SSL_TIMEOUT`. -/
  | timeout
  /-- `MBEDTLS_ERR_X509_CERT_VERIFY_FAILED`. -/
  | certVerifyFailed
deriving DecidableEq

/-- How a handshake fails: `last_error` and `verify_flags`. -/
structure Failure where
  last_error : Error
  verify_flags : ℕ

/-- The arguments of `handshake`. -/
structure Options where
  server : Bool
  hostname : Option String
  ca_pem : Option String
  cert_pem : Option String
  key_pem : Option String
  insecure : Bool
  require_client_cert : Bool
  timeout_ms : ℕ

/-- `if (last_error != 0) return false;`. -/
def check (ret : ℤ) : Except Failure Unit :=
  if ret ≠ 0 then .error ⟨.code ret, 0⟩ else .ok ()

/-- The CA of the sketch is parsed, and required. -/
def requireChain (m : Mbedtls) (conf : Conf) (pem : String) : Except Failure Conf := do
  check (m.crt_parse pem)
  return { conf with ca := some (.chain pem), authmode := .required }

/-- Who verifies whom. -/
def authenticate (m : Mbedtls) (o : Options) (conf : Conf) : Except Failure Conf :=
  if o.server then
    match o.ca_pem with
    | some pem =>
      if o.require_client_cert then requireChain m conf pem
      else .ok { conf with authmode := .none }
    | none => .ok { conf with authmode := .none }
  else if o.insecure then .ok { conf with authmode := .none }
  else
    match o.ca_pem with
    | some pem => requireChain m conf pem
    | none =>
      -- `ch32h4_ca_store_install`
      if m.ca_root_count ≠ 0 then .ok { conf with ca := some .store, authmode := .required }
      else .error ⟨.caChainRequired, 0⟩

/-- The endpoint's own certificate. -/
def ownCertificate (m : Mbedtls) (o : Options) (conf : Conf) : Except Failure Conf :=
  match o.cert_pem, o.key_pem with
  | some cert, some key => do
    check (m.crt_parse cert)
    check (m.pk_parse_key key)
    check (m.conf_own_cert cert key)
    return { conf with own_cert := some (cert, key) }
  | _, _ => if o.server then .error ⟨.privateKeyRequired, 0⟩ else .ok conf

/-- The name of the server. -/
def setHostname (m : Mbedtls) (o : Options) : Except Failure (Option String) :=
  match o.hostname with
  | some name =>
    if ¬ o.server ∧ name ≠ "" then do
      check (m.set_hostname name)
      return some name
    else .ok none
  | none => .ok none

/-- `handshake`, up to its loop. -/
def bringUp (m : Mbedtls) (o : Options) : Except Failure Session :=
  if o.server ∧ ¬ m.srv then .error ⟨.featureUnavailable, 0⟩
  else do
    check m.ctr_drbg_seed
    check m.config_defaults
    let conf ← authenticate m o (Conf.defaults o.server)
    let conf ← ownCertificate m o conf
    check m.setup
    let hostname ← setHostname m o
    return ⟨conf, hostname, 0⟩

/-- The loop of `handshake`, for so many rounds at most, from round `k` on. -/
def handshakeLoop (m : Mbedtls) (s : Session) (timeout_ms : ℕ) :
    ℕ → ℕ → Option (Except Failure Unit)
  | 0, _ => none
  | rounds + 1, k =>
    let ret := m.handshake s k
    if ret = 0 then some (.ok ())
    else if ret ≠ m.want_read ∧ ret ≠ m.want_write then
      some (.error ⟨.code ret, m.get_verify_result s⟩)
    else if m.elapsed k > timeout_ms then some (.error ⟨.timeout, 0⟩)
    else handshakeLoop m s timeout_ms rounds (k + 1)

/-- The end of `handshake`. -/
def verify (m : Mbedtls) (o : Options) (s : Session) : Except Failure Session :=
  let verify_flags := m.get_verify_result s
  if ¬ o.server ∧ ¬ o.insecure ∧ verify_flags ≠ 0 then .error ⟨.certVerifyFailed, verify_flags⟩
  else .ok { s with verify_flags }

/-- `EthernetTlsSession::handshake`, which is still in its loop after `rounds` rounds, or has
returned `true` or `false`. -/
def handshake (m : Mbedtls) (o : Options) (rounds : ℕ) : Option (Except Failure Session) :=
  match bringUp m o with
  | .error e => some (.error e)
  | .ok s =>
    match handshakeLoop m s o.timeout_ms rounds 0 with
    | none => none
    | some (.error e) => some (.error e)
    | some (.ok ()) => some (verify m o s)

/-! ### Clients and servers -/

/-- `EthernetClientSecure`, as far as `connect` uses it. -/
structure EthernetClientSecure where
  ca_pem : Option String
  cert_pem : Option String
  key_pem : Option String
  hostname : Option String
  insecure : Bool
  handshake_ms : ℕ
deriving DecidableEq

/-- A client that was not set to anything. -/
def EthernetClientSecure.new : EthernetClientSecure := ⟨none, none, none, none, false, 10000⟩

def EthernetClientSecure.setCACert (c : EthernetClientSecure) (rootCA : Option String) :
    EthernetClientSecure :=
  { c with ca_pem := rootCA, insecure := false }

def EthernetClientSecure.setCertificate (c : EthernetClientSecure) (clientCert : Option String) :
    EthernetClientSecure :=
  { c with cert_pem := clientCert }

def EthernetClientSecure.setPrivateKey (c : EthernetClientSecure) (clientKey : Option String) :
    EthernetClientSecure :=
  { c with key_pem := clientKey }

def EthernetClientSecure.setInsecure (c : EthernetClientSecure) : EthernetClientSecure :=
  { c with insecure := true }

/-- The handshake of `connect(host, port)`, or of `connect(ip, port)` where `host` is `none`. -/
def EthernetClientSecure.options (c : EthernetClientSecure) (host : Option String) : Options :=
  ⟨false, c.hostname.or host, c.ca_pem, c.cert_pem, c.key_pem, c.insecure, false, c.handshake_ms⟩

/-- `EthernetServerSecure`, as far as `accept` uses it. -/
structure EthernetServerSecure where
  cert_pem : Option String
  key_pem : Option String
  client_ca_pem : Option String
  require_client_cert : Bool
  handshake_ms : ℕ

/-- The handshake of `accept`. -/
def EthernetServerSecure.options (server : EthernetServerSecure) : Options :=
  ⟨true, none, server.client_ca_pem, server.cert_pem, server.key_pem, false,
    server.require_client_cert, server.handshake_ms⟩

/-- `EthernetServerSecure::accept`, on a connection. -/
def EthernetServerSecure.accept (m : Mbedtls) (server : EthernetServerSecure) (rounds : ℕ) :
    Option (Except Failure Session) :=
  if server.cert_pem = none ∨ server.key_pem = none then some (.error ⟨.privateKeyRequired, 0⟩)
  else handshake m server.options rounds

end Ch32h4.Tls
