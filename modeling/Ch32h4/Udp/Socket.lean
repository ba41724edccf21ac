import Ch32h4.Ledger
import Ch32h4.TransitionSystem
import Mathlib.Algebra.Order.Ring.Int

/-!
# A UDP socket

Translation of `EthernetUDP`.  lwIP hands it datagrams from inside of `yield`, which are queued until
`parsePacket` makes the first of them current; a datagram that is sent is built by `beginPacket`,
`write` and `endPacket`.

lwIP itself is not part of the repository.  `PbufApi` are its functions that look into a pbuf, and
what its other functions answer comes with each action.  Pbufs are numbered as the socket comes to
hold them, and a trace says what was done with each and what was copied where.
-/

namespace Ch32h4.Udp

/-- `MAX_QUEUED`. -/
abbrev maxQueued : ℕ := 4

/-- A pbuf, or a chain of them: its number, and its bytes, as many as `tot_len` can say. -/
structure Pbuf where
  id : ℕ
  payload : List UInt8
  tot_len_lt : payload.length < 2 ^ 16

/-- What lwIP hands to the socket. -/
structure Arrival where
  payload : List UInt8
  addr : ℕ
  port : ℕ
  tot_len_lt : payload.length < 2 ^ 16 := by decide

structure Datagram where
  p : Pbuf
  addr : ℕ
  port : ℕ

/-- The functions of lwIP that look into a pbuf. -/
structure PbufApi where
  copyPartial : List UInt8 → ℕ → ℕ → List UInt8
  getAt : List UInt8 → ℕ → UInt8

/-- What is documented of them. -/
structure PbufApi.Documented (api : PbufApi) : Prop where
  /-- `pbuf_copy_partial` copies so many bytes from an offset on, or all that there are. -/
  copyPartial_eq : ∀ payload len off, api.copyPartial payload len off = (payload.drop off).take len
  /-- `pbuf_get_at` is the byte at an offset. -/
  getAt_eq : ∀ payload off (h : off < payload.length), api.getAt payload off = payload[off]

/-- The functions, computed. -/
def lwip : PbufApi where
  copyPartial payload len off := (payload.drop off).take len
  getAt payload off := payload[off]?.getD 0

theorem lwip_documented : lwip.Documented where
  copyPartial_eq _ _ _ := rfl
  getAt_eq payload off h := by simp [lwip, h]

/-- What is done with the pbufs. -/
inductive Event where
  /-- The socket holds it from now on. -/
  | acquire (id : ℕ)
  | use (id : ℕ)
  | free (id : ℕ)
  /-- So many bytes are written from an offset on, where there is room for some. -/
  | copy (off size room : ℕ)
  /-- `udp_sendto`. -/
  | send (payload : List UInt8) (addr port : ℕ)
  deriving DecidableEq

structure Socket where
  /-- `_pcb` is not null. -/
  pcb : Bool
  /-- The first `_count` entries of `_queue`. -/
  queue : List Datagram
  rx : Option Pbuf
  rx_offset : ℕ
  remote_ip : ℕ
  remote_port : ℕ
  tx : Option Pbuf
  tx_len : ℕ
  tx_addr : ℕ
  tx_port : ℕ
  /-- The number of the next pbuf. -/
  next : ℕ
  trace : List Event

namespace Socket

variable (api : PbufApi) (s : Socket)

def freeOpt : Option Pbuf → List Event
  | none => []
  | some p => [.free p.id]

/-- `_drop_current`. -/
def dropCurrent : Socket :=
  { s with rx := none, rx_offset := 0, trace := s.trace ++ freeOpt s.rx }

def stop : Socket :=
  { s with
    pcb := false
    queue := []
    rx := none
    rx_offset := 0
    tx := none
    tx_len := 0
    trace := s.trace ++ s.queue.map (fun d => .free d.p.id) ++ freeOpt s.rx ++ freeOpt s.tx }

/-- `begin`, with the success of `udp_new` and `udp_bind`. -/
def begin (new bind : Bool) : Socket := { s.stop with pcb := new && bind }

/-- `beginMulticast`, with the success of `igmp_joingroup` too. -/
def beginMulticast (new bind group : Bool) : Socket :=
  let s := s.begin new bind
  if s.pcb && !group then s.stop else s

/-! ### Receiving -/

/-- `_on_recv`. -/
def onRecv (a : Arrival) : Socket :=
  let p : Pbuf := ⟨s.next, a.payload, a.tot_len_lt⟩
  let s := { s with next := s.next + 1, trace := s.trace ++ [Event.acquire p.id] }
  if maxQueued ≤ s.queue.length then { s with trace := s.trace ++ [Event.free p.id] }
  else { s with queue := s.queue ++ [⟨p, a.addr, a.port⟩] }

/-- What lwIP does inside of `yield`. -/
def pump (arrivals : List Arrival) : Socket := if s.pcb then arrivals.foldl onRecv s else s

/-- The end of `parsePacket`. -/
def nextPacket : Socket × ℕ :=
  match s.queue with
  | [] => (s, 0)
  | d :: queue =>
    ({ s with rx := some d.p, remote_ip := d.addr, remote_port := d.port, queue, rx_offset := 0 },
      d.p.payload.length)

def parsePacket (arrivals : List Arrival) : Socket × ℕ := (s.pump arrivals).dropCurrent.nextPacket

def available : ℤ :=
  match s.rx with
  | none => 0
  | some p => (p.payload.length : ℤ) - s.rx_offset

/-- `read`, where `buffer` says whether there is one; it answers with what is copied into it, too. -/
def read (buffer : Bool) (len : ℕ) : Socket × ℤ × List UInt8 :=
  match s.rx with
  | none => (s, -1, [])
  | some p =>
    let have_ := s.available
    if have_ ≤ 0 then (s, -1, [])
    else
      let len := if (len : ℤ) > have_ then have_.toNat else len
      let bytes := if buffer then api.copyPartial p.payload (len % 2 ^ 16) s.rx_offset else []
      ({ s with
          rx_offset := (s.rx_offset + len % 2 ^ 16) % 2 ^ 16
          trace := s.trace ++ [.use p.id] }, len, bytes)

/-- `read` of a single byte. -/
def readByte : Socket × ℤ :=
  let r := s.read api true 1
  (r.1, if r.2.1 ≠ 1 then -1 else (r.2.2.headD 0).toNat)

def peek : ℤ :=
  match s.rx with
  | none => -1
  | some p => if s.available ≤ 0 then -1 else (api.getAt p.payload s.rx_offset).toNat

/-! ### Sending -/

/-- `beginPacket`.  There is no address if the host was not found, and the others are the answers to
`begin`, if it is called. -/
def beginPacket (ip : Option ℕ) (port : ℕ) (new bind : Bool) : Socket × ℕ :=
  match ip with
  | none => (s, 0)
  | some ip =>
    let s := if s.pcb then s else s.begin new bind
    if s.pcb then
      ({ s with
          tx := none
          tx_len := 0
          tx_addr := ip
          tx_port := port
          trace := s.trace ++ freeOpt s.tx }, 1)
    else (s, 0)

/-- `memcpy`, as far as there is room. -/
def blit (dst : List UInt8) (off : ℕ) (src : List UInt8) : List UInt8 :=
  dst.take off ++ src.take (dst.length - off) ++ dst.drop (off + src.length)

theorem length_blit (dst : List UInt8) (off : ℕ) (src : List UInt8) :
    (blit dst off src).length = dst.length := by
  simp only [blit, List.length_append, List.length_take, List.length_drop]
  omega

/-- A new pbuf, with what happens to be in its memory. -/
def alloc (len : ℕ) (memory : ℕ → UInt8) : List UInt8 := (List.range len).map memory

theorem length_alloc (len : ℕ) (memory : ℕ → UInt8) : (alloc len memory).length = len := by
  rw [alloc, List.length_map, List.length_range]

/-- What is in the new pbuf of `write` at the end. -/
def grown (need : ℕ) (memory : ℕ → UInt8) (buffer : List UInt8) : List UInt8 :=
  let fresh := alloc need memory
  let kept :=
    match s.tx with
    | none => fresh
    | some p => blit fresh 0 (api.copyPartial p.payload s.tx_len 0)
  blit kept s.tx_len buffer

theorem length_grown (need : ℕ) (memory : ℕ → UInt8) (buffer : List UInt8) :
    (s.grown api need memory buffer).length = need := by
  rw [grown, length_blit]
  cases s.tx with
  | none => exact length_alloc need memory
  | some p => exact (length_blit _ _ _).trans (length_alloc need memory)

/-- The events of `write` from the allocation on. -/
def growing (need : ℕ) (buffer : List UInt8) : List Event :=
  (match s.tx with
    | none => [.acquire s.next]
    | some p => [.acquire s.next, .use p.id,
        .copy 0 (api.copyPartial p.payload s.tx_len 0).length need, .free p.id]) ++
  [.copy s.tx_len buffer.length need]

/-- `write`, with the memory that `pbuf_alloc` comes up with, if it does. -/
def write (buffer : List UInt8) (memory : Option (ℕ → UInt8)) : Socket × ℕ :=
  if !s.pcb || buffer.length = 0 then (s, 0)
  else
    let need := (s.tx_len + buffer.length) % 2 ^ 16
    match memory with
    | none => (s, 0)
    | some memory =>
      ({ s with
          tx := some ⟨s.next, s.grown api need memory buffer, by
            rw [length_grown]; exact Nat.mod_lt _ (by decide)⟩
          tx_len := need
          next := s.next + 1
          trace := s.trace ++ s.growing api need buffer }, buffer.length)

/-- `endPacket`, with the success of `pbuf_alloc`, if it is called, and of `udp_sendto`. -/
def endPacket (memory sent : Bool) : Socket × ℕ :=
  if s.pcb then
    match s.tx with
    | none =>
      if memory then
        ({ s with
            next := s.next + 1
            trace := s.trace ++ [.acquire s.next, .use s.next, .send [] s.tx_addr s.tx_port,
              .free s.next] }, if sent then 1 else 0)
      else (s, 0)
    | some p =>
      ({ s with
          tx := none
          tx_len := 0
          trace := s.trace ++ [.use p.id, .send p.payload s.tx_addr s.tx_port, .free p.id] },
        if sent then 1 else 0)
  else (s, 0)

end Socket

/-! ### Every order of calls and arrivals -/

inductive Action where
  /-- A datagram arrives between two calls of the sketch. -/
  | arrive (a : Arrival)
  | begin (new bind : Bool)
  | beginMulticast (new bind group : Bool)
  /-- `stop`, and the destructor. -/
  | stop
  | parsePacket (arrivals : List Arrival)
  | read (buffer : Bool) (len : ℕ)
  | readByte
  | flush
  | beginPacket (ip : Option ℕ) (port : ℕ) (new bind : Bool)
  | write (buffer : List UInt8) (memory : Option (ℕ → UInt8))
  | endPacket (memory sent : Bool)

/-- The socket of a new `EthernetUDP`. -/
def Socket.new : Socket := ⟨false, [], none, 0, 0, 0, none, 0, 0, 0, 0, []⟩

def Socket.after (api : PbufApi) (s : Socket) : Action → Socket
  | .arrive a => s.pump [a]
  | .begin new bind => s.begin new bind
  | .beginMulticast new bind group => s.beginMulticast new bind group
  | .stop => s.stop
  | .parsePacket arrivals => (s.parsePacket arrivals).1
  | .read buffer len => (s.read api buffer len).1
  | .readByte => (s.readByte api).1
  | .flush => s.dropCurrent
  | .beginPacket ip port new bind => (s.beginPacket ip port new bind).1
  | .write buffer memory => (s.write api buffer memory).1
  | .endPacket memory sent => (s.endPacket memory sent).1

def machine (api : PbufApi) : Machine Socket Action where
  init s := s = .new
  step s a := some (s.after api a)

end Ch32h4.Udp
