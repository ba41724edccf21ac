import Ch32h4.TransitionSystem
import Mathlib

/-!
# The two regions of the heap

`_sbrk` and `ch32h4_heap_free` of `ch32h4_sbrk.c`.  The heap is what the linker leaves of DTCM and
all of the shared region; the break begins at the start of the first and goes over to the second
when a request does not fit.  Addresses are words of 32 bits, and so is their sum with an increment.

`machine` runs any sequence of calls.  Beside the two variables its state has the bytes that are
granted: a call with a positive increment grants those from the address that it returns, and one
with a negative increment takes back what it moves the break over.
-/

namespace Ch32h4.Heap

/-- The linker's symbols. -/
structure Regions where
  dtcmStart : ℤ
  dtcmEnd : ℤ
  sharedStart : ℤ
  sharedEnd : ℤ
  /-- No region begins at `NULL`. -/
  pos : 0 < dtcmStart
  dtcm_le : dtcmStart ≤ dtcmEnd
  /-- The buffers of the peripherals lie between them. -/
  gap : dtcmEnd < sharedStart
  shared_le : sharedStart ≤ sharedEnd
  /-- The memory of the part ends far below the middle of the address space. -/
  high : sharedEnd < 2 ^ 31

/-- `s_region`. -/
inductive Region where
  | dtcm
  | shared
  deriving DecidableEq, Repr

/-- `s_brk`, which is `NULL` before the first call, and `s_region`. -/
structure Break where
  brk : Option ℤ
  region : Region
  deriving DecidableEq, Repr

variable (mem : Regions)

namespace Break

/-- `if (s_brk == NULL) s_brk = _heap_dtcm_start`: the address. -/
def addr (b : Break) : ℤ := b.brk.getD mem.dtcmStart

/-- Its effect. -/
def started (b : Break) : Break := { b with brk := some (b.addr mem) }

end Break

/-- `p + incr` on a pointer. -/
def offset (p incr : ℤ) : ℤ := (p + incr) % 2 ^ 32

/-- `_sbrk`: the address that it returns, or `(void *)-1` with `ENOMEM`. -/
def sbrk (b : Break) (incr : ℤ) : Break × Option ℤ :=
  let prev := b.addr mem
  let limit := match b.region with
    | .dtcm => mem.dtcmEnd
    | .shared => mem.sharedEnd
  if offset prev incr > limit then
    match b.region with
    | .dtcm =>
      -- the break has moved by the time that the request is refused
      if offset mem.sharedStart incr ≤ mem.sharedEnd then
        (⟨some (offset mem.sharedStart incr), .shared⟩, some mem.sharedStart)
      else (⟨some mem.sharedStart, .shared⟩, none)
    | .shared => (b.started mem, none)
  else ({ b with brk := some (offset prev incr) }, some prev)

/-- `ch32h4_heap_free`. -/
def heapFree (b : Break) : ℤ :=
  let dtcm := match b.region with
    | .dtcm => (mem.dtcmEnd - b.addr mem) % 2 ^ 32
    | .shared => 0
  let shared := match b.region with
    | .dtcm => (mem.sharedEnd - mem.sharedStart) % 2 ^ 32
    | .shared => (mem.sharedEnd - b.addr mem) % 2 ^ 32
  (dtcm + shared) % 2 ^ 32

/-- The heap, and the bytes that are granted. -/
structure State where
  brk : Break
  granted : Set ℤ

/-- What a call makes of the bytes that are granted; `p` is what it returned. -/
def State.regrant (s : State) (incr : ℤ) : Option ℤ → Set ℤ
  | none => s.granted
  | some p => (s.granted ∪ Set.Ico p (p + incr)) \ Set.Ico (p + incr) p

/-- `ptrdiff_t`. -/
def Increment : Type := { incr : ℤ // -2 ^ 31 ≤ incr ∧ incr < 2 ^ 31 }

def step (s : State) (incr : Increment) : Option State :=
  let (brk, p) := sbrk mem s.brk incr.val
  some ⟨brk, s.regrant incr.val p⟩

/-- Before the first call. -/
def start : State := ⟨⟨none, .dtcm⟩, ∅⟩

/-- Any sequence of calls. -/
def machine : Machine State Increment where
  init s := s = start
  step := step mem

end Ch32h4.Heap
