import Ch32h4.TransitionSystem
import Mathlib.Algebra.Order.Ring.Nat

/-!
# The FIFO between the cores

One of the two rings of `ch32h4_xcore.c`, at the granularity of the single loads and stores of
`ch32h4_fifo_push_nb`, `ch32h4_fifo_pop_nb` and `ch32h4_fifo_available`.  One core pushes to it
and the other pops from it; `head` is stored only by the first and `tail` only by the second.

* `PushPc`, `PopPc` and `AvailablePc` are the positions inside the three functions, each named by
  the access that comes next; their `step` executes it, and gives the next position or what the
  function returns.
* `machine` interleaves the two cores, with any calls in any order.

A state also carries the words pushed and popped so far, in their order.  A word counts as pushed
when the store of `head` publishes it, and as popped when the store of `tail` gives up its slot.
-/

namespace Ch32h4.Xcore.Fifo

/-- `CH32H4_FIFO_DEPTH`. -/
def fifoDepth : ℕ := 8

/-- `& (CH32H4_FIFO_DEPTH - 1u)`. -/
def wrap (i : ℕ) : ℕ := i &&& (fifoDepth - 1)

structure Ring where
  buf : ℕ → UInt32
  head : ℕ
  tail : ℕ

/-- Where a core stands inside `ch32h4_fifo_push_nb(value)`. -/
inductive PushPc where
  /-- `const uint32_t head = r->head`. -/
  | loadHead (value : UInt32)
  /-- `if (next == r->tail)`. -/
  | loadTail (value : UInt32) (head : ℕ)
  /-- `r->buf[head] = value`. -/
  | storeBuf (value : UInt32) (head : ℕ)
  /-- `r->head = next`. -/
  | storeHead (value : UInt32) (head : ℕ)
  /-- `ring_doorbell()`. -/
  | doorbell
  deriving DecidableEq, Repr

/-- One access of `ch32h4_fifo_push_nb`: the ring after it, the word it publishes, and the next
position or the value returned. -/
def PushPc.step (r : Ring) : PushPc → Ring × List UInt32 × (PushPc ⊕ Bool)
  | loadHead value => (r, [], .inl (loadTail value r.head))
  | loadTail value head =>
    (r, [], if wrap (head + 1) = r.tail then .inr false else .inl (storeBuf value head))
  | storeBuf value head =>
    ({ r with buf := Function.update r.buf head value }, [], .inl (storeHead value head))
  | storeHead value head => ({ r with head := wrap (head + 1) }, [value], .inl doorbell)
  | doorbell => (r, [], .inr true)

/-- Where a core stands inside `ch32h4_fifo_pop_nb`. -/
inductive PopPc where
  /-- `const uint32_t tail = r->tail`. -/
  | loadTail
  /-- `if (tail == r->head)`. -/
  | loadHead (tail : ℕ)
  /-- `const uint32_t v = r->buf[tail]`. -/
  | loadBuf (tail : ℕ)
  /-- `r->tail = (tail + 1u) & (CH32H4_FIFO_DEPTH - 1u)`. -/
  | storeTail (tail : ℕ) (v : UInt32)
  deriving DecidableEq, Repr

/-- One access of `ch32h4_fifo_pop_nb`: the ring after it, and the next position or the word
returned, `none` standing for `false`. -/
def PopPc.step (r : Ring) : PopPc → Ring × (PopPc ⊕ Option UInt32)
  | loadTail => (r, .inl (loadHead r.tail))
  | loadHead tail => (r, if tail = r.head then .inr none else .inl (loadBuf tail))
  | loadBuf tail => (r, .inl (storeTail tail (r.buf tail)))
  | storeTail tail v => ({ r with tail := wrap (tail + 1) }, .inr (some v))

/-- Where a core stands inside `ch32h4_fifo_available`.  In which order `r->head - r->tail` loads
its operands is the compiler's choice. -/
inductive AvailablePc where
  | loadHead
  | thenTail (head : ℕ)
  | loadTail
  | thenHead (tail : ℕ)
  deriving DecidableEq, Repr

/-- `(r->head - r->tail) & (CH32H4_FIFO_DEPTH - 1u)`, a difference of 32-bit words. -/
def difference (head tail : ℕ) : ℕ := wrap ((head + 2 ^ 32 - tail) % 2 ^ 32)

/-- One access of `ch32h4_fifo_available`: the next position, or the value returned. -/
def AvailablePc.step (r : Ring) : AvailablePc → AvailablePc ⊕ ℕ
  | loadHead => .inl (thenTail r.head)
  | thenTail head => .inr (difference head r.tail)
  | loadTail => .inl (thenHead r.tail)
  | thenHead tail => .inr (difference r.head tail)

/-- What the popping core is doing. -/
inductive Consumer where
  | idle
  | popping (pc : PopPc)
  | counting (pc : AvailablePc)
  deriving DecidableEq, Repr

structure State where
  ring : Ring
  /-- What the pushing core is doing; `none` outside of `ch32h4_fifo_push_nb`. -/
  producer : Option PushPc
  consumer : Consumer
  pushed : List UInt32
  popped : List UInt32

/-- The words pushed and not popped. -/
def State.pending (s : State) : ℕ := s.pushed.length - s.popped.length

/-- One step of one of the two cores. -/
inductive Action where
  /-- The pushing core calls `ch32h4_fifo_push_nb`. -/
  | callPush (value : UInt32)
  /-- It executes its next access. -/
  | push
  /-- The popping core calls `ch32h4_fifo_pop_nb`. -/
  | callPop
  /-- It calls `ch32h4_fifo_available`, which loads `head` first or `tail` first. -/
  | callAvailable (headFirst : Bool)
  /-- It executes its next access. -/
  | pop
  deriving DecidableEq, Repr

/-- The pushing core's next access. -/
def State.stepPush (s : State) (pc : PushPc) : State :=
  let (ring, new, next) := pc.step s.ring
  { s with
    ring := ring
    pushed := s.pushed ++ new
    producer := match next with
      | .inl pc => some pc
      | .inr _ => none }

/-- The popping core's next access. -/
def State.stepPop (s : State) (pc : PopPc) : State :=
  match pc.step s.ring with
  | (ring, .inl pc) => { s with ring := ring, consumer := .popping pc }
  | (ring, .inr v) => { s with ring := ring, consumer := .idle, popped := s.popped ++ v.toList }

/-- The popping core's next access in `ch32h4_fifo_available`. -/
def State.stepAvailable (s : State) (pc : AvailablePc) : State :=
  match pc.step s.ring with
  | .inl pc => { s with consumer := .counting pc }
  | .inr _ => { s with consumer := .idle }

def step (s : State) : Action → Option State
  | .callPush value =>
    if s.producer = none then some { s with producer := some (.loadHead value) } else none
  | .push => s.producer.map s.stepPush
  | .callPop => if s.consumer = .idle then some { s with consumer := .popping .loadTail } else none
  | .callAvailable headFirst =>
    if s.consumer = .idle then
      some { s with consumer := .counting (if headFirst then .loadHead else .loadTail) }
    else none
  | .pop =>
    match s.consumer with
    | .idle => none
    | .popping pc => some (s.stepPop pc)
    | .counting pc => some (s.stepAvailable pc)

/-- The ring as `ch32h4_xcore_init` leaves it, with whatever its memory held, and both cores
outside of the FIFO code. -/
def start (buf : ℕ → UInt32) : State where
  ring := ⟨buf, 0, 0⟩
  producer := none
  consumer := .idle
  pushed := []
  popped := []

/-- The two cores, interleaved. -/
def machine : Machine State Action where
  init s := ∃ buf, s = start buf
  step := step

end Ch32h4.Xcore.Fifo
