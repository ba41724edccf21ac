import Ch32h4.Md5.Builder
import Ch32h4.TransitionSystem
import Mathlib.Algebra.Order.Ring.Nat

/-!
# The over-the-air server

`ArduinoOTAClass` waits for an invite, a datagram that says what is coming and from where.  With a
password set it answers with a nonce and waits for one more datagram, which has to carry the MD5 of
the password hash, that nonce and a nonce of the sender's; only then does `handle` run the update.

A call of `handle` is given the datagram it finds, if there is one, and the time.  Which datagrams
are queued, lost or discarded is up to whoever makes the calls.  `_runUpdate` is what is entered,
and is not modelled further; `handle` returns to idle behind it.

Strings are lists of bytes.
-/

namespace Ch32h4.Ota

open Md5

/-! ### Datagrams -/

structure Datagram where
  remoteIP : ℕ
  remotePort : ℕ
  bytes : List UInt8
  deriving DecidableEq

/-- The characters of a string, as bytes. -/
def ascii (cs : List Char) : List UInt8 := cs.map fun c => UInt8.ofNat c.toNat

/-- What `atoi` makes of digits; it stops at the largest `int`. -/
def atoi (digits : List UInt8) : ℕ :=
  min (digits.foldl (fun n d => 10 * n + (d.toNat - 48)) 0) (2 ^ 31 - 1)

/-- The loop of `parseInt`, with room for so many digits more. -/
def parseDigits : ℕ → List UInt8 → List UInt8 → ℕ × List UInt8
  | 0, _, rest => (0, rest)
  | _ + 1, data, [] => (atoi data, [])
  | n + 1, data, value :: rest =>
    if value < 48 ∨ value > 57 then (atoi data, value :: rest)
    else parseDigits n (data ++ [value]) rest

/-- `ArduinoOTAClass::parseInt`, with what it leaves unread. -/
def parseInt (bs : List UInt8) : ℕ × List UInt8 := parseDigits 16 [] (bs.dropWhile (· = 32))

/-- `ArduinoOTAClass::readStringUntil`, with what it leaves unread. -/
def readStringUntil (stop : UInt8) : List UInt8 → List UInt8 × List UInt8
  | [] => ([], [])
  | value :: rest =>
    if value = 0 ∨ value = stop then ([], rest)
    else (value :: (readStringUntil stop rest).1, (readStringUntil stop rest).2)

/-- `isspace`. -/
def isSpace (b : UInt8) : Bool := b = 32 || (9 ≤ b && b ≤ 13)

/-- `String::trim`. -/
def trim (bs : List UInt8) : List UInt8 :=
  ((bs.dropWhile isSpace).reverse.dropWhile isSpace).reverse

/-- The MD5 of a string; the length of a string is handed over in 16 bits. -/
def md5String (s : List UInt8) : List UInt8 := ascii (md5 (s.take (s.length % 2 ^ 16)))

/-! ### The server -/

def uFlash : ℕ := 0

def uFs : ℕ := 100

def uAuth : ℕ := 200

inductive State where
  | idle
  | waitAuth
  | runUpdate
  deriving DecidableEq

/-- What an invite says. -/
structure Invite where
  cmd : ℕ
  otaIP : ℕ
  otaPort : ℕ
  otaUdpPort : ℕ
  size : ℕ
  md5 : List UInt8
  deriving DecidableEq

/-- The fields of `ArduinoOTAClass`. -/
structure Server where
  initialized : Bool
  password : List UInt8
  nonce : List UInt8
  state : State
  /-- `_cmd`, `_ota_ip`, `_ota_port`, `_ota_udp_port`, `_size` and `_md5`. -/
  invite : Invite

/-- A reply, and where it goes. -/
structure Reply where
  ip : ℕ
  port : ℕ
  text : List UInt8
  deriving DecidableEq

/-- What a datagram says when it is read as an invite; `md5` is what is left for the caller to
look at. -/
def readInvite (d : Datagram) : Invite :=
  let (cmd, rest) := parseInt d.bytes
  let (port, rest) := parseInt rest
  let (size, rest) := parseInt rest
  let (md5, _) := readStringUntil 10 (rest.drop 1)
  { cmd, otaIP := d.remoteIP, otaPort := port % 2 ^ 16, otaUdpPort := d.remotePort, size,
    md5 := trim md5 }

/-- What a datagram says when it is read as the answer to a challenge: its command, the nonce of
the sender and the response. -/
def readAuth (d : Datagram) : ℕ × List UInt8 × List UInt8 :=
  let (cmd, rest) := parseInt d.bytes
  let (cnonce, rest) := readStringUntil 32 (rest.drop 1)
  let (response, _) := readStringUntil 10 rest
  (cmd, cnonce, response)

/-- The nonce made of the time. -/
def nonceOf (micros : ℕ) : List UInt8 := md5String (ascii (Nat.toDigits 10 micros))

/-- What the response to a nonce has to be. -/
def responseTo (password nonce cnonce : List UInt8) : List UInt8 :=
  md5String (password ++ ascii [':'] ++ nonce ++ ascii [':'] ++ cnonce)

def authReq (nonce : List UInt8) : List UInt8 := ascii "AUTH ".toList ++ nonce

def authFailed : List UInt8 := ascii "Authentication Failed".toList

/-- `_onRx`, in the state `OTA_IDLE`. -/
def Server.onInvite (o : Server) (d : Datagram) (micros : ℕ) : Server × List Reply :=
  let i := readInvite d
  if i.cmd ≠ uFlash ∧ i.cmd ≠ uFs then (o, [])
  else
    let o := { o with invite := i }
    if i.md5.length ≠ 32 then (o, [])
    else if o.password.length ≠ 0 then
      let nonce := nonceOf micros
      ({ o with nonce, state := .waitAuth }, [⟨i.otaIP, i.otaUdpPort, authReq nonce⟩])
    else ({ o with state := .runUpdate }, [])

/-- `_onRx`, in the state `OTA_WAITAUTH`. -/
def Server.onAuth (o : Server) (d : Datagram) : Server × List Reply :=
  let (cmd, cnonce, response) := readAuth d
  if cmd ≠ uAuth then ({ o with state := .idle }, [])
  else if cnonce.length ≠ 32 ∨ response.length ≠ 32 then ({ o with state := .idle }, [])
  else if responseTo o.password o.nonce cnonce = response then
    ({ o with state := .runUpdate }, [])
  else
    ({ o with state := .idle }, [⟨o.invite.otaIP, o.invite.otaUdpPort, authFailed⟩])

/-- `ArduinoOTAClass::_onRx`.  A datagram without bytes is like none. -/
def Server.onRx (o : Server) (d : Option Datagram) (micros : ℕ) : Server × List Reply :=
  match d with
  | none => (o, [])
  | some d =>
    if d.bytes = [] then (o, [])
    else
      match o.state with
      | .idle => o.onInvite d micros
      | .waitAuth => o.onAuth d
      | .runUpdate => (o, [])

/-- `ArduinoOTAClass::begin`; `bound` is whether the port can be bound. -/
def Server.begin (o : Server) (bound : Bool) : Server :=
  if o.initialized then o else if bound then { o with initialized := true, state := .idle } else o

/-- `ArduinoOTAClass::end`. -/
def Server.end (o : Server) : Server := { o with initialized := false, state := .idle }

/-- `ArduinoOTAClass::setPasswordHash`. -/
def Server.setPasswordHash (o : Server) (password : List UInt8) : Server :=
  if o.initialized = false ∧ o.password.length = 0 then { o with password } else o

/-- `ArduinoOTAClass::setPassword`. -/
def Server.setPassword (o : Server) (password : List UInt8) : Server :=
  o.setPasswordHash (md5String password)

/-! ### Runs -/

/-- A challenge: the invite it answers, and its nonce. -/
structure Challenge where
  invite : Datagram
  nonce : List UInt8

/-- `_runUpdate` was entered: after so many challenges, on a datagram, with the fields of an invite
in place. -/
structure Entry where
  round : ℕ
  packet : Option Datagram
  invite : Invite

/-- The server, with what it has done. -/
structure System where
  server : Server
  sent : List Reply
  issued : List Challenge
  entered : List Entry

inductive Action where
  | begin (bound : Bool)
  | «end»
  | setPassword (password : List UInt8)
  | setPasswordHash (password : List UInt8)
  | handle (packet : Option Datagram) (micros : ℕ)

/-- The challenges after a call of `_onRx`: one more if it has begun to wait. -/
def issuedAfter (issued : List Challenge) (o o' : Server) (packet : Option Datagram) :
    List Challenge :=
  match packet with
  | none => issued
  | some d =>
    if o.state = .idle ∧ o'.state = .waitAuth then issued ++ [⟨d, o'.nonce⟩] else issued

/-- `ArduinoOTAClass::handle`. -/
def handle (s : System) (packet : Option Datagram) (micros : ℕ) : System :=
  let r := if s.server.initialized then s.server.onRx packet micros else (s.server, [])
  let issued := issuedAfter s.issued s.server r.1 packet
  if r.1.state = .runUpdate then
    ⟨{ r.1 with state := .idle }, s.sent ++ r.2, issued,
      s.entered ++ [⟨issued.length, packet, r.1.invite⟩]⟩
  else ⟨r.1, s.sent ++ r.2, issued, s.entered⟩

def step (s : System) : Action → System
  | .begin bound => { s with server := s.server.begin bound }
  | .«end» => { s with server := s.server.end }
  | .setPassword password => { s with server := s.server.setPassword password }
  | .setPasswordHash password => { s with server := s.server.setPasswordHash password }
  | .handle packet micros => handle s packet micros

/-- Runs start with a password in place, before the server has begun. -/
def machine (password : List UInt8) : Machine System Action where
  init s := s.server.password = password ∧ s.server.initialized = false ∧
    s.server.state = .idle ∧ s.issued = [] ∧ s.entered = []
  step s a := some (step s a)

end Ch32h4.Ota
