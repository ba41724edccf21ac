import Ch32h4.Circular
import Ch32h4.TransitionSystem

/-!
# Receiving Ethernet frames

The DMA of the MAC fills a ring of descriptors and raises an interrupt.  The handler acknowledges
the causes and sets a flag; the foreground sees the flag in `eth_rx_process`, clears it, and drains
the ring in `eth_rx_drain`, which hands each frame to lwIP.  lwIP may call back into the sketch, and
the sketch into `eth_rx_process` again.

An action is one register access of the handler, one access of the foreground, or one act of the
hardware, so a run is an interleaving of these.  The foreground runs only while the handler does
not, as both share a core.  Causes that are not enabled are left out, and a summary bit is the `or`
of the causes it summarizes.
-/

namespace Ch32h4.Eth

/-- `ETH_RX_DESC_NUM`. -/
abbrev rxDescNum : ℕ := 12

/-- The status word of a receive descriptor: owned by the DMA, first and last descriptor of the
frame, error summary, and the length of the frame with its CRC. -/
structure Status where
  own : Bool
  fs : Bool
  ls : Bool
  es : Bool
  fl : ℕ

/-- A receive descriptor, with the buffer it leads to. -/
structure Descriptor where
  status : Status
  buffer : List UInt8

/-- `eth_rx_cur->Status = ETH_DMARxDesc_OWN`. -/
def Descriptor.handBack (d : Descriptor) : Descriptor :=
  { d with status := ⟨true, false, false, false, 0⟩ }

/-- The length of the frame that `eth_rx_drain` hands on, if it does. -/
def Status.length (maxPacketSize : ℕ) (status : Status) : Option ℕ :=
  let complete := status.fs && status.ls
  if complete && !status.es then
    let len := status.fl
    if len ≥ 4 ∧ len ≤ maxPacketSize then some (len - 4) else none
  else none

/-- `ETH->DMASR`, as far as it can interrupt. -/
structure Dmasr where
  rs : Bool
  ts : Bool
  physr : Bool
  rbus : Bool

def Dmasr.nis (r : Dmasr) : Bool := r.rs || r.ts || r.physr

def Dmasr.ais (r : Dmasr) : Bool := r.rbus

/-- The accesses of the handler once it has read `DMASR`. -/
inductive Access where
  | ackRs
  | ackTs
  | ackPhysr
  | ackRbus
  /-- Writes to the summary bits, which the causes keep as they are. -/
  | ackNis
  | ackAis
  | setRxPending
  | setLinkEvent
  | countRxBufUnavail
deriving DecidableEq

/-- `eth_irq_handler`, from the status that it has read. -/
def ethIrqHandler (status : Dmasr) : List Access :=
  (if status.nis then
    (if status.rs then [.ackRs, .setRxPending] else []) ++
      (if status.ts then [.ackTs] else []) ++
      (if status.physr then [.ackPhysr, .setLinkEvent] else []) ++ [.ackNis]
  else []) ++
  (if status.ais then
    (if status.rbus then [.countRxBufUnavail, .ackRbus, .setRxPending] else []) ++ [.ackAis]
  else [])

/-- Where the handler is. -/
inductive Irq where
  | idle
  /-- It has yet to read `DMASR`. -/
  | entered
  | acting (rest : List Access)

/-- Where a call of `eth_rx_process` is: at the access that comes next. -/
inductive Pc where
  /-- It reads `rx_pending`. -/
  | reading
  /-- It reads `in_rx`. -/
  | guarding
  /-- It sets `in_rx`. -/
  | entering
  /-- It clears `rx_pending`. -/
  | clearing
  /-- The condition of the loop of `eth_rx_drain`. -/
  | polling
  /-- It reads the status of the descriptor. -/
  | examining
  /-- `eth_rx_frame` takes a `pbuf`, and fills it with so many bytes. -/
  | filling (len : ℕ)
  /-- lwIP has the frame. -/
  | input
  /-- It gives the descriptor to the DMA. -/
  | handing
  /-- It moves `eth_rx_cur` on. -/
  | advancing
  /-- It writes `DMARPDR`. -/
  | demanding
  /-- It clears `in_rx`. -/
  | leaving
deriving DecidableEq

structure Stats where
  rx_frames : ℕ
  rx_dropped : ℕ
  rx_buf_unavail : ℕ

structure System where
  /-- `eth_rx_desc`. -/
  ring : ℕ → Descriptor
  /-- The descriptor that the DMA fills next. -/
  dma : ℕ
  dmasr : Dmasr
  irq : Irq
  /-- `eth_rx_cur`, as an index. -/
  cur : ℕ
  rx_pending : Bool
  link_event : Bool
  in_rx : Bool
  stats : Stats
  /-- The calls of `eth_rx_process` that have not returned, the innermost first. -/
  calls : List Pc
  /-- What the DMA has completed. -/
  completed : List Descriptor
  /-- What the drain has read. -/
  examined : List Descriptor
  /-- The indices of the descriptors given to the DMA. -/
  returned : List ℕ
  /-- What lwIP was given. -/
  delivered : List (List UInt8)

/-- An access of the handler. -/
def System.access (s : System) : Access → System
  | .ackRs => { s with dmasr := { s.dmasr with rs := false } }
  | .ackTs => { s with dmasr := { s.dmasr with ts := false } }
  | .ackPhysr => { s with dmasr := { s.dmasr with physr := false } }
  | .ackRbus => { s with dmasr := { s.dmasr with rbus := false } }
  | .ackNis => s
  | .ackAis => s
  | .setRxPending => { s with rx_pending := true }
  | .setLinkEvent => { s with link_event := true }
  | .countRxBufUnavail =>
    { s with stats := { s.stats with rx_buf_unavail := s.stats.rx_buf_unavail + 1 } }

def System.drop (s : System) : System :=
  { s with stats := { s.stats with rx_dropped := s.stats.rx_dropped + 1 } }

def System.goto (s : System) (pc : Pc) (outer : List Pc) : System := { s with calls := pc :: outer }

/-- An access of `eth_rx_process` and `eth_rx_drain`, called from `outer`; `ok` is what `pbuf_alloc`
and `netif->input` answer. -/
def System.access_rx (maxPacketSize : ℕ) (s : System) (outer : List Pc) (ok : Bool) : Pc → System
  | .reading => if s.rx_pending then s.goto .guarding outer else { s with calls := outer }
  | .guarding => if s.in_rx then { s with calls := outer } else s.goto .entering outer
  | .entering => { s with in_rx := true }.goto .clearing outer
  | .clearing => { s with rx_pending := false }.goto .polling outer
  | .polling =>
    if (s.ring s.cur).status.own then s.goto .demanding outer else s.goto .examining outer
  | .examining =>
    let s' := { s with examined := s.examined ++ [s.ring s.cur] }
    match (s.ring s.cur).status.length maxPacketSize with
    | some len => s'.goto (.filling len) outer
    | none => s'.drop.goto .handing outer
  | .filling len =>
    if ok then
      { s with
        stats := { s.stats with rx_frames := s.stats.rx_frames + 1 },
        delivered := s.delivered ++ [(s.ring s.cur).buffer.take len] }.goto .input outer
    else s.drop.goto .handing outer
  | .input => if ok then s.goto .handing outer else s.drop.goto .handing outer
  | .handing =>
    { s with
      ring := Function.update s.ring s.cur (s.ring s.cur).handBack,
      returned := s.returned ++ [s.cur] }.goto .advancing outer
  | .advancing => { s with cur := (s.cur + 1) % rxDescNum }.goto .polling outer
  | .demanding => s.goto .leaving outer
  | .leaving => { s with in_rx := false, calls := outer }

inductive Action where
  /-- The DMA completes a descriptor. -/
  | complete (status : Status) (buffer : List UInt8)
  /-- The DMA finds no descriptor. -/
  | starve
  /-- A frame was sent. -/
  | sent
  /-- The link changed. -/
  | link
  /-- The handler is entered. -/
  | interrupt
  /-- The handler goes on. -/
  | irq
  /-- `eth_rx_process` is called: by the background hook, or by what lwIP has called. -/
  | process
  /-- The innermost call goes on. -/
  | run (ok : Bool)

/-- The DMA writes a descriptor, and says so when the frame ends with it. -/
def System.complete (s : System) (status : Status) (buffer : List UInt8) : System :=
  let d : Descriptor := ⟨{ status with own := false }, buffer⟩
  { s with
    ring := Function.update s.ring s.dma d,
    dma := (s.dma + 1) % rxDescNum,
    dmasr := { s.dmasr with rs := s.dmasr.rs || status.ls },
    completed := s.completed ++ [d] }

/-- Whether `eth_rx_process` may be called. -/
def callable : List Pc → Bool
  | [] => true
  | pc :: _ => pc = .input

def step (maxPacketSize : ℕ) (s : System) : Action → Option System
  | .complete status buffer =>
    if (s.ring s.dma).status.own then some (s.complete status buffer) else none
  | .starve =>
    if (s.ring s.dma).status.own then none
    else some { s with dmasr := { s.dmasr with rbus := true } }
  | .sent => some { s with dmasr := { s.dmasr with ts := true } }
  | .link => some { s with dmasr := { s.dmasr with physr := true } }
  | .interrupt =>
    match s.irq with
    | .idle => if s.dmasr.nis || s.dmasr.ais then some { s with irq := .entered } else none
    | _ => none
  | .irq =>
    match s.irq with
    | .idle => none
    | .entered => some { s with irq := .acting (ethIrqHandler s.dmasr) }
    | .acting [] => some { s with irq := .idle }
    | .acting (a :: rest) => some { s.access a with irq := .acting rest }
  | .process =>
    match s.irq with
    | .idle => if callable s.calls then some (s.goto .reading s.calls) else none
    | _ => none
  | .run ok =>
    match s.irq, s.calls with
    | .idle, pc :: outer => some (s.access_rx maxPacketSize outer ok pc)
    | _, _ => none

/-- After `eth_mac_init`. -/
def start : System where
  ring _ := ⟨⟨true, false, false, false, 0⟩, []⟩
  dma := 0
  dmasr := ⟨false, false, false, false⟩
  irq := .idle
  cur := 0
  rx_pending := false
  link_event := false
  in_rx := false
  stats := ⟨0, 0, 0⟩
  calls := []
  completed := []
  examined := []
  returned := []
  delivered := []

def machine (maxPacketSize : ℕ) : Machine System Action where
  init s := s = start
  step := step maxPacketSize

end Ch32h4.Eth
