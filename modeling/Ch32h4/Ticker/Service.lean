import Ch32h4.Linked
import Ch32h4.Timer.Tone
import Mathlib.Data.Fintype.Card

/-!
# Tickers

Translation of `Ticker.cpp`.  `ι` are the Tickers of the sketch, of which there is any number, and
`κ` what a callback may be, with its argument if it takes one.  What is masked is one step.  `arm`
of the sketch is cut before and inside of `timer_start` and before it inserts the Ticker, and the
walk of the interrupt before every Ticker; a callback is any calls of `arm` and `detach`, until it
returns.

The loop of `detach` looks at as many links as there are, as one that looks at more never ends; its
step is missing then.  TIM4 has a line in the interrupt controller, so `timer_start` does not give
it back for the lack of one.
-/

namespace Ch32h4.Ticker

open Timer (Owner Registry Tim Irq)

/-- The members of a Ticker, other than `_nextTicker`. -/
structure Fields (κ : Type*) where
  active : Bool
  repeats : Bool
  interval : ℕ
  remaining : ℕ
  /-- `_cb`, or `_cbArg` with `_arg`. -/
  cb : Option κ

/-- The arguments of `arm`. -/
structure Request (κ : Type*) where
  ms : ℕ
  cb : Option κ
  repeats : Bool

/-- What `arm` refuses. -/
def Request.Refused {κ : Type*} (r : Request κ) : Prop := r.ms = 0 ∨ r.cb.isNone = true

instance {κ : Type*} (r : Request κ) : Decidable r.Refused := inferInstanceAs (Decidable (_ ∨ _))

/-- Where the sketch is. -/
inductive Place (ι κ : Type*)
  | idle
  /-- `timer_start` next. -/
  | start (x : ι) (r : Request κ)
  /-- The timer has been started, `s_timer_running` is set next. -/
  | started (x : ι) (r : Request κ)
  /-- The Ticker is inserted next. -/
  | insert (x : ι) (r : Request κ)

/-- The Ticker that `arm` of the sketch is about. -/
def Place.pending {ι κ : Type*} : Place ι κ → Option ι
  | .idle => none
  | .start x _ | .started x _ | .insert x _ => some x

/-- Where `serviceFromIsr` is. -/
inductive Walk (ι : Type*)
  | idle
  | visit (t : ι)
  /-- In a callback; this is what comes next. -/
  | callback (next : Option ι)
deriving DecidableEq

structure System (ι κ : Type*) where
  tickers : ι → Fields κ
  /-- `_head` and every `_nextTicker`. -/
  links : Links ι
  /-- `s_timer_running`. -/
  running : Bool
  timers : Registry
  tim4 : Tim
  irq4 : Irq
  place : Place ι κ
  walk : Walk ι

variable {ι κ : Type*}

/-! ### The timer -/

/-- `prescaler` and `top`. -/
def timeBase (hz : ℕ) : ℕ × ℕ :=
  let prescaler := hz / (1000 * 1000)
  if prescaler = 0 then (1, hz / 1000) else (prescaler, 1000)

namespace System

/-- `timer_start` up to `TIM_Cmd`, with the timer claimed. -/
def timerSetup (clock : ℕ) (s : System ι κ) : System ι κ :=
  let base := timeBase clock
  let dev := { s.tim4 with clock := true }.reset.timeBaseInit
    ((base.1 + 4294967295) % 4294967296 % 65536) ((base.2 + 4294967295) % 4294967296 % 65536)
  { s with
    timers := (s.timers.claim 4 .ticker).2
    tim4 := dev.cmd true
    irq4 := ⟨some .ticker, true, false, true⟩ }

/-- `timer_start`. -/
def timerStart (clock : ℕ) (s : System ι κ) : Bool × System ι κ :=
  if s.running then (true, s)
  else if !(s.timers.claim 4 .ticker).1 then (false, s)
  else (true, { s.timerSetup clock with running := true })

/-- `timer_stop`. -/
def timerStop (s : System ι κ) : System ι κ :=
  if !s.running then s
  else
    { s with
      irq4 := { s.irq4 with fn := none, enabled := false }
      tim4 := s.tim4.cmd false
      timers := s.timers.release 4 .ticker
      running := false }

/-! ### The list -/

variable [DecidableEq ι] [Fintype ι]

/-- What `detach` does to an active Ticker. -/
def unlink (s : System ι κ) (x : ι) : Option (System ι κ) :=
  (s.links.unlink x (Fintype.card ι + 1)).map fun links =>
    { s with
      links := { links with next := Function.update links.next x none }
      tickers := Function.update s.tickers x { s.tickers x with active := false } }

def detach (s : System ι κ) (x : ι) : Option (System ι κ) :=
  (if (s.tickers x).active then s.unlink x else some s).map fun s =>
    if s.links.head.isNone then s.timerStop else s

/-- The end of `arm`. -/
def insert (s : System ι κ) (x : ι) (r : Request κ) : System ι κ :=
  { s with
    tickers := Function.update s.tickers x ⟨true, r.repeats, r.ms, r.ms, r.cb⟩
    links := ⟨some x, Function.update s.links.next x s.links.head⟩ }

/-- `arm` in a callback. -/
def arm (clock : ℕ) (s : System ι κ) (x : ι) (r : Request κ) : Option (System ι κ) :=
  if r.Refused then some s
  else
    (s.detach x).map fun s =>
      let started := s.timerStart clock
      if started.1 then started.2.insert x r else s

/-! ### The walk -/

/-- `t = next`. -/
def advance (s : System ι κ) (next : Option ι) : System ι κ :=
  { s with walk := next.elim .idle .visit }

/-- One round of `serviceFromIsr`, up to the callback. -/
def visit (s : System ι κ) (t : ι) : Option (System ι κ) :=
  let next := s.links.next t
  let f := s.tickers t
  if f.active && f.remaining > 0 then
    let counted := { f with remaining := f.remaining - 1 }
    let s := { s with tickers := Function.update s.tickers t counted }
    if f.remaining - 1 = 0 then
      (if f.repeats then
        some { s with tickers := Function.update s.tickers t { f with remaining := f.interval } }
      else s.detach t).map fun s =>
        if f.cb.isSome then { s with walk := .callback next } else s.advance next
    else some (s.advance next)
  else some (s.advance next)

/-- `timer_dispatch` for TIM4.  What a handler of somebody else does is not modelled. -/
def dispatch (s : System ι κ) : System ι κ :=
  let s := { s with irq4 := { s.irq4 with flag := false } }
  if s.irq4.fn = some .ticker then s.advance s.links.head else s

/-! ### The machine -/

/-- The owners that are not Tickers. -/
abbrev Other := { o : Owner // o ≠ .free ∧ o ≠ .ticker }

/-- `arm` and `detach` are calls of the sketch, or of the callback that runs. -/
inductive Action (ι κ : Type*)
  | arm (x : ι) (r : Request κ)
  | detach (x : ι)
  /-- `arm` of the sketch goes on. -/
  | sketch
  /-- A period of TIM4 is over. -/
  | update
  /-- The interrupt of TIM4 is taken. -/
  | tick
  /-- The walk goes on. -/
  | visit
  /-- The callback returns. -/
  | leave
  /-- Another owner claims TIM4, sets its registers and its interrupt, or releases it. -/
  | claim (o : Other)
  | program (o : Other) (dev : Tim) (enabled flag line : Bool)
  | release (o : Other)

/-- No call is in progress. -/
def Idle (s : System ι κ) : Prop :=
  (match s.place with | .idle => True | _ => False) ∧ s.walk = .idle

instance (s : System ι κ) : Decidable s.Idle := by
  unfold Idle
  refine @instDecidableAnd _ _ ?_ inferInstance
  split <;> infer_instance

def sketch (clock : ℕ) (s : System ι κ) : Option (System ι κ) :=
  match s.place with
  | .idle => none
  | .start x r => some (
      if s.running then { s with place := .insert x r }
      else if !(s.timers.claim 4 .ticker).1 then { s with place := .idle }
      else { s.timerSetup clock with place := .started x r })
  | .started x r => some { s with running := true, place := .insert x r }
  | .insert x r => some { s.insert x r with place := .idle }

def act (clock : ℕ) (s : System ι κ) : Action ι κ → Option (System ι κ)
  | .arm x r =>
    match s.walk with
    | .callback _ => s.arm clock x r
    | .visit _ => none
    | .idle =>
      if !s.Idle then none
      else if r.Refused then some s
      else (s.detach x).map fun s => { s with place := .start x r }
  | .detach x =>
    match s.walk with
    | .callback _ => s.detach x
    | .visit _ => none
    | .idle => if s.Idle then s.detach x else none
  | .sketch => if s.walk = .idle then s.sketch clock else none
  | .update =>
    if s.tim4.enabled then some { s with irq4 := { s.irq4 with flag := true } } else none
  | .tick =>
    if s.walk = .idle ∧ (s.irq4.line && s.irq4.enabled && s.irq4.flag) = true then some s.dispatch
    else none
  | .visit => match s.walk with | .visit t => s.visit t | _ => none
  | .leave => match s.walk with | .callback next => some (s.advance next) | _ => none
  | .claim o =>
    if s.Idle then some { s with timers := (s.timers.claim 4 o).2 } else none
  | .program o dev enabled flag line =>
    if s.Idle ∧ s.timers.owner 4 = o then
      some { s with tim4 := dev, irq4 := ⟨some o, enabled, flag, line⟩ }
    else none
  | .release o => if s.Idle then some { s with timers := s.timers.release 4 o } else none

/-- No Ticker was armed yet. -/
structure Fresh (s : System ι κ) : Prop where
  inactive : ∀ x, (s.tickers x).active = false
  empty : s.links.head = none
  stopped : s.running = false
  owner : s.timers.owner 4 ≠ .ticker
  idle : s.Idle

end System

/-- The sketch with its Tickers, and the other owners of TIM4. -/
def machine (ι κ : Type*) [DecidableEq ι] [Fintype ι] (clock : ℕ) :
    Machine (System ι κ) (System.Action ι κ) where
  init s := s.Fresh
  step s a := s.act clock a

end Ch32h4.Ticker
