import Ch32h4.TransitionSystem

/-!
# Parking the other core

`ch32h4_park.c`, at the granularity of its single loads and stores.  One core asks: it runs
`ch32h4_park_other` and `ch32h4_unpark_other`.  The other core answers: it runs sketch code,
polls through `ch32h4_park_check`, takes the IPC interrupt, and from either ends up in
`park_spin`.

* `Words` are the three words of shared RAM that belong to the core being parked, and the bit of
  its IPC channel.
* `SpinPc` and `RequestPc` are the program counters inside `park_spin` and `ch32h4_park_other`,
  each named by the access that comes next; `SpinPc.step` and `RequestPc.step` execute it.
* `machine` interleaves the two cores.  The interrupt may be taken at any moment at which it is
  pending and the core has interrupts enabled, and the `millis()` comparison may go either way, so
  late handlers and timeouts are runs like any others.

The spin masks interrupts, so only one of the two contexts of the answering core (what the
sketch was doing, and the handler above it) can be past the masking instruction; the handler of a
channel does not preempt itself.
-/

namespace Ch32h4.Park

/-- What the two cores share about one core that can be parked: `ch32h4_park_req[self]`,
`ch32h4_park_ack[self]`, `ch32h4_park_live[self]`, and the bit of its channel in the IPC. -/
structure Words where
  req : Bool
  ack : Bool
  ipc : Bool
  live : Bool
  deriving DecidableEq, Repr

/-- Where a core stands inside `park_spin`: the access it executes next. -/
inductive SpinPc where
  /-- `csrrci mstatus, 8`. -/
  | mask
  /-- `ch32h4_park_ack[self] = 1u`. -/
  | storeAck
  /-- `while (ch32h4_park_req[self])`. -/
  | loadReq
  /-- `ch32h4_park_ack[self] = 0u`. -/
  | clearAck
  /-- `IPC->CLR = PARK_MASK(ch)`. -/
  | clearIpc
  /-- `csrsi mstatus, 8`, when interrupts were enabled on entry. -/
  | restore
  deriving DecidableEq, Repr

/-- One access of `park_spin`; `none` as the new position means it has returned. -/
def SpinPc.step (w : Words) : SpinPc → Words × Option SpinPc
  | mask => (w, some storeAck)
  | storeAck => ({ w with ack := true }, some loadReq)
  | loadReq => (w, some (if w.req then loadReq else clearAck))
  | clearAck => ({ w with ack := false }, some clearIpc)
  | clearIpc => ({ w with ipc := false }, some restore)
  | restore => (w, none)

/-- Where a core stands inside `ch32h4_park_other`: the access it executes next. -/
inductive RequestPc where
  /-- `if (!ch32h4_park_live[other])`. -/
  | loadLive
  /-- `ch32h4_park_ack[other] = 0u`. -/
  | clearAck
  /-- `ch32h4_park_req[other] = 1u`. -/
  | storeReq
  /-- `IPC->SET = PARK_MASK(..)`. -/
  | setIpc
  /-- `while (!ch32h4_park_ack[other])`. -/
  | loadAck
  /-- `(uint32_t)(millis() - start) > timeout_ms`. -/
  | checkTime
  /-- `ch32h4_park_req[other] = 0u`, on the way to `return false`. -/
  | giveUp
  deriving DecidableEq, Repr

/-- One access of `ch32h4_park_other`: the next position, or the value returned.  `late` is the
outcome of the `millis()` comparison. -/
def RequestPc.step (w : Words) (late : Bool) : RequestPc → Words × (RequestPc ⊕ Bool)
  | loadLive => (w, if w.live then .inl clearAck else .inr true)
  | clearAck => ({ w with ack := false }, .inl storeReq)
  | storeReq => ({ w with req := true }, .inl setIpc)
  | setIpc => ({ w with ipc := true }, .inl loadAck)
  | loadAck => (w, if w.ack then .inr true else .inl checkTime)
  | checkTime => (w, .inl (if late then giveUp else loadAck))
  | giveUp => ({ w with req := false }, .inr false)

/-- What the asking core is doing. -/
inductive Requester where
  | idle
  | calling (pc : RequestPc)
  /-- Inside `ch32h4_unpark_other`, about to store `ch32h4_park_req[other] = 0u`. -/
  | unparking
  deriving DecidableEq, Repr

/-- What the answering core is doing below its IPC handler. -/
inductive Base where
  /-- Sketch code, out of flash. -/
  | sketch
  /-- In `ch32h4_park_check`, about to load `ch32h4_park_req[self]`. -/
  | pollReq
  /-- In `ch32h4_park_check`, about to load `ch32h4_park_ack[self]`. -/
  | pollAck
  /-- In the `park_spin` that `ch32h4_park_check` called. -/
  | spin (pc : SpinPc)
  deriving DecidableEq, Repr

/-- Whether the answering core has interrupts enabled: `park_spin` masks them with its first
instruction and enables them again with its last. -/
def Base.unmasked : Base → Bool
  | spin .mask => true
  | spin _ => false
  | _ => true

structure State where
  words : Words
  requester : Requester
  /-- `ch32h4_park_other` has returned true and `ch32h4_unpark_other` has not been called since. -/
  parked : Bool
  base : Base
  /-- The IPC handler, while it runs: `IPC_CH2_Handler` and `IPC_CH3_Handler` only call
  `park_spin`. -/
  handler : Option SpinPc
  deriving DecidableEq, Repr

/-- The `park_spin` the answering core is executing, if it is executing one. -/
def State.spinPc (s : State) : Option SpinPc :=
  match s.handler, s.base with
  | some pc, _ => some pc
  | none, .spin pc => some pc
  | none, _ => none

/-- One step of one of the two cores. -/
inductive Action where
  /-- The asking core calls `ch32h4_park_other`. -/
  | callPark
  /-- The asking core calls `ch32h4_unpark_other`. -/
  | callUnpark
  /-- The asking core executes its next access. -/
  | request (late : Bool)
  /-- The sketch on the answering core calls `ch32h4_park_check`. -/
  | poll
  /-- The answering core takes the IPC interrupt. -/
  | interrupt
  /-- The answering core executes its next access. -/
  | answer
  deriving DecidableEq, Repr

/-- The asking core's next access. -/
def State.stepRequest (s : State) (late : Bool) : Option State :=
  match s.requester with
  | .idle => none
  | .unparking => some { s with words := { s.words with req := false }, requester := .idle }
  | .calling pc =>
    match pc.step s.words late with
    | (w, .inl pc') => some { s with words := w, requester := .calling pc' }
    | (w, .inr true) => some { s with words := w, requester := .idle, parked := true }
    | (w, .inr false) => some { s with words := w, requester := .idle }

/-- The answering core's next access: the handler's while it runs, otherwise that of the code
below it. -/
def State.stepAnswer (s : State) : Option State :=
  match s.handler with
  | some pc => some { s with words := (pc.step s.words).1, handler := (pc.step s.words).2 }
  | none =>
    match s.base with
    | .sketch => none
    | .pollReq => some { s with base := if s.words.req then .pollAck else .sketch }
    | .pollAck => some { s with base := if s.words.ack then .sketch else .spin .mask }
    | .spin pc =>
      match pc.step s.words with
      | (w, some pc') => some { s with words := w, base := .spin pc' }
      | (w, none) => some { s with words := w, base := .sketch }

def step (s : State) : Action → Option State
  | .callPark =>
    if s.requester = .idle then some { s with requester := .calling .loadLive } else none
  | .callUnpark =>
    if s.requester = .idle then some { s with requester := .unparking, parked := false } else none
  | .request late => s.stepRequest late
  | .poll => if s.handler = none ∧ s.base = .sketch then some { s with base := .pollReq } else none
  | .interrupt =>
    if s.words.ipc ∧ s.handler = none ∧ s.base.unmasked then some { s with handler := some .mask }
    else none
  | .answer => s.stepAnswer

/-- The words as `ch32h4_xcore_init` and `ch32h4_park_live_here` leave them, and both cores
outside the parking code.  `live` says whether the answering core has called
`ch32h4_park_live_here`. -/
def start (live : Bool) : State where
  words := ⟨false, false, false, live⟩
  requester := .idle
  parked := false
  base := .sketch
  handler := none

/-- The two cores, interleaved. -/
def machine : Machine State Action where
  init s := ∃ live, s = start live
  step := step

end Ch32h4.Park
