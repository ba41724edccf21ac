import Ch32h4.Tls.Session
import Ch32h4.TransitionSystem

/-!
# `HTTPClientSecure` and the client it makes

An `HTTPClientSecure` keeps the settings of TLS itself, and puts them on the client that `begin`
makes for it.  `begin(url)` replaces a client of the wrong kind, and `begin(host, port, uri, https)`
takes whatever client there is.

Only what decides on the client is modelled: `disconnect(true)` keeps it, and no client was given to
the object by the sketch.
-/

namespace Ch32h4.Http

open Tls

/-- What `_clientMade` leads to. -/
inductive Made where
  /-- An `EthernetClient`. -/
  | plain
  | tls (client : EthernetClientSecure)
deriving DecidableEq

def Made.isTls : Made → Bool
  | .plain => false
  | .tls _ => true

structure HTTPClientSecure where
  ca : Option String
  cert : Option String
  key : Option String
  insecure : Bool
  clientMade : Option Made
  clientTLS : Bool
deriving DecidableEq

/-- The settings, on a client. -/
def HTTPClientSecure.apply (http : HTTPClientSecure) (tls : EthernetClientSecure) :
    EthernetClientSecure :=
  let tls :=
    if http.insecure then tls.setInsecure
    else if http.ca.isSome then tls.setCACert http.ca
    else tls
  let tls := if http.cert.isSome then tls.setCertificate http.cert else tls
  if http.key.isSome then tls.setPrivateKey http.key else tls

/-- `_configure`; it casts the client, and its kind is what `_clientTLS` says. -/
def HTTPClientSecure.configure (http : HTTPClientSecure) : HTTPClientSecure :=
  match http.clientMade with
  | some (.tls client) =>
    if http.clientTLS then { http with clientMade := some (.tls (http.apply client)) } else http
  | _ => http

def HTTPClientSecure.setInsecure (http : HTTPClientSecure) : HTTPClientSecure :=
  { http with insecure := true, ca := none }.configure

def HTTPClientSecure.setCACert (http : HTTPClientSecure) (rootCA : Option String) :
    HTTPClientSecure :=
  { http with ca := rootCA, insecure := false }.configure

def HTTPClientSecure.setCertificate (http : HTTPClientSecure) (client_ca : Option String) :
    HTTPClientSecure :=
  { http with cert := client_ca }.configure

def HTTPClientSecure.setPrivateKey (http : HTTPClientSecure) (private_key : Option String) :
    HTTPClientSecure :=
  { http with key := private_key }.configure

/-- `_tls`, which is `_makeSecureClient`. -/
def HTTPClientSecure.tls (http : HTTPClientSecure) : HTTPClientSecure :=
  if http.clientMade = none ∨ ¬ http.clientTLS then
    { http with clientMade := some (.tls .new), clientTLS := true }.configure
  else http

/-- `if (!_client())`, of both `begin`s. -/
def HTTPClientSecure.make (http : HTTPClientSecure) (https : Bool) : HTTPClientSecure :=
  if http.clientMade = none then
    if https then http.tls else { http with clientMade := some .plain }
  else http

/-- The protocol of a URL, in lower case. -/
def protocol (url : List Char) : Option (List Char) :=
  if ':' ∈ url then some ((url.takeWhile (· ≠ ':')).map Char.toLower) else none

/-- What a URL asks for, if it is one of HTTP. -/
def wantsTls (url : List Char) : Option Bool :=
  if protocol url = some ['h', 't', 't', 'p', 's'] then some true
  else if protocol url = some ['h', 't', 't', 'p'] then some false
  else none

/-- `begin(url)`, where the protocol is known. -/
def HTTPClientSecure.beginUrl (http : HTTPClientSecure) (wants_tls : Bool) : HTTPClientSecure :=
  let http :=
    if http.clientMade ≠ none ∧ http.clientTLS ≠ wants_tls then
      { http with clientMade := none, clientTLS := false }
    else http
  http.make wants_tls

/-- `begin(host, port, uri, https)`. -/
def HTTPClientSecure.beginHost (http : HTTPClientSecure) (https : Bool) : HTTPClientSecure :=
  http.make https

/-- An object, and what the sketch has asked of it. -/
structure System where
  http : HTTPClientSecure
  /-- Whether the last `begin` that went on asked for HTTPS. -/
  https : Option Bool
  /-- What the last of `setInsecure` and `setCACert` has set. -/
  insecure : Bool
  ca : Option String

inductive Action where
  | setInsecure
  | setCACert (rootCA : Option String)
  | setCertificate (client_ca : Option String)
  | setPrivateKey (private_key : Option String)
  | beginUrl (url : List Char)
  | beginHost (https : Bool)

def System.act (s : System) : Action → System
  | .setInsecure => { s with http := s.http.setInsecure, insecure := true, ca := none }
  | .setCACert rootCA =>
    { s with http := s.http.setCACert rootCA, insecure := false, ca := rootCA }
  | .setCertificate client_ca => { s with http := s.http.setCertificate client_ca }
  | .setPrivateKey private_key => { s with http := s.http.setPrivateKey private_key }
  | .beginUrl url =>
    match wantsTls url with
    | none => s
    | some wants_tls => { s with http := s.http.beginUrl wants_tls, https := some wants_tls }
  | .beginHost https => { s with http := s.http.beginHost https, https := some https }

/-- A new object. -/
def start : System := ⟨⟨none, none, none, false, none, false⟩, none, false, none⟩

def machine : Machine System Action where
  init s := s = start
  step s a := some (s.act a)

end Ch32h4.Http
