import Ch32h4.TransitionSystem

/-!
# The recursive mutex between the cores

`ch32h4_mutex_try_lock_rec`, `ch32h4_mutex_lock_rec` and `ch32h4_mutex_unlock_rec` of
`ch32h4_xcore.c` on one semaphore, at the granularity of their single loads and stores.  Beside
the hardware semaphore each core keeps a depth of its own, one byte in shared RAM.

* `Pc` are the positions inside the three functions, each named by the access that comes next;
  `CoreState.access` executes it.
* A core runs one frame and keeps those that interrupts have put aside, so a handler may preempt
  the code below it, and that a handler, between any two accesses.
* `machine` interleaves the two cores.  Which of the functions a frame calls, when interrupts
  arrive and when a handler returns is left open.

Reading `HSEM->RLRX[id]` takes the semaphore if it is free and returns zero exactly then; writing
it back through `HSEM_ReleaseOneSem` releases it if the writing core has it.
-/

namespace Ch32h4.Xcore

/-- The two cores. -/
inductive Core where
  | v3f
  | v5f
  deriving DecidableEq, Repr

namespace Mutex

/-- Where a frame stands: the access it executes next. -/
inductive Pc where
  /-- Outside of the three functions. -/
  | idle
  /-- `lock_rec`: the load of `s_mutex_depth[id][core]++`. -/
  | lockLoad
  /-- Its store, `depth` being what was loaded. -/
  | lockStore (depth : ℕ)
  /-- `while (!ch32h4_mutex_try_lock(id))`. -/
  | lockTake
  /-- `try_lock_rec`: `if (s_mutex_depth[id][core] != 0u)`. -/
  | tryLoad
  /-- The load of `s_mutex_depth[id][core]++`. -/
  | tryReload
  /-- Its store. -/
  | tryStore (depth : ℕ)
  /-- `if (!ch32h4_mutex_try_lock(id))`. -/
  | tryTake
  /-- `s_mutex_depth[id][core] = 1u`. -/
  | trySet
  /-- `unlock_rec`: `if (s_mutex_depth[id][core] == 0u)`. -/
  | unlockLoad
  /-- The load of `--s_mutex_depth[id][core]`. -/
  | unlockReload
  /-- Its store. -/
  | unlockStore (depth : ℕ)
  /-- `ch32h4_mutex_unlock(id)`. -/
  | release
  deriving DecidableEq, Repr

/-- The code that runs on a core, or that an interrupt has put aside.  `base` is the number of
locks the core held when the frame began. -/
structure Frame where
  pc : Pc
  base : ℕ
  deriving DecidableEq, Repr

/-- One core: its depth, the frame that runs, and those below it, the latest first.  `held`
counts its successful calls of `lock_rec` and `try_lock_rec` that no `unlock_rec` has undone; the
code does not know it. -/
structure CoreState where
  depth : ℕ
  held : ℕ
  run : Frame
  below : List Frame
  deriving DecidableEq, Repr

/-- The running frame goes on at `pc`. -/
def CoreState.goto (x : CoreState) (pc : Pc) : CoreState :=
  { x with run := { x.run with pc := pc } }

/-- The next access of the frame that runs on the core `c`, while the semaphore is with `owner`.
The depth is a byte. -/
def CoreState.access (c : Core) (x : CoreState) (owner : Option Core) : CoreState × Option Core :=
  match x.run.pc with
  | .idle => (x, owner)
  | .lockLoad => (x.goto (.lockStore x.depth), owner)
  | .lockStore depth =>
    let x := { x with depth := (depth + 1) % 256 }
    if depth ≠ 0 then ({ x with held := x.held + 1 }.goto .idle, owner)
    else (x.goto .lockTake, owner)
  | .lockTake =>
    if owner = none then ({ x with held := x.held + 1 }.goto .idle, some c) else (x, owner)
  | .tryLoad => (x.goto (if x.depth ≠ 0 then .tryReload else .tryTake), owner)
  | .tryReload => (x.goto (.tryStore x.depth), owner)
  | .tryStore depth =>
    ({ x with depth := (depth + 1) % 256, held := x.held + 1 }.goto .idle, owner)
  | .tryTake => if owner = none then (x.goto .trySet, some c) else (x.goto .idle, owner)
  | .trySet => ({ x with depth := 1, held := x.held + 1 }.goto .idle, owner)
  | .unlockLoad =>
    if x.depth = 0 then ({ x with held := x.held - 1 }.goto .idle, owner)
    else (x.goto .unlockReload, owner)
  | .unlockReload => (x.goto (.unlockStore x.depth), owner)
  | .unlockStore depth =>
    let x := { x with depth := (depth + 255) % 256, held := x.held - 1 }
    (x.goto (if x.depth = 0 then .release else .idle), owner)
  | .release => (x.goto .idle, if owner = some c then none else owner)

/-- The three functions. -/
inductive Op where
  | lock
  | tryLock
  | unlock
  deriving DecidableEq, Repr

/-- The first access of a function. -/
def Op.entry : Op → Pc
  | lock => .lockLoad
  | tryLock => .tryLoad
  | unlock => .unlockLoad

structure State where
  core : Core → CoreState
  /-- The core the semaphore is with. -/
  owner : Option Core

/-- One step of one of the two cores. -/
inductive Action where
  /-- The running frame calls one of the functions. -/
  | call (c : Core) (op : Op)
  /-- It executes its next access. -/
  | access (c : Core)
  /-- An interrupt puts it aside. -/
  | interrupt (c : Core)
  /-- The handler returns. -/
  | return (c : Core)
  deriving DecidableEq, Repr

def State.setCore (s : State) (c : Core) (x : CoreState) : State :=
  { s with core := Function.update s.core c x }

def step (s : State) : Action → Option State
  | .call c op =>
    if (s.core c).run.pc = .idle then some (s.setCore c ((s.core c).goto op.entry)) else none
  | .access c =>
    if (s.core c).run.pc = .idle then none
    else
      let (x, owner) := (s.core c).access c s.owner
      some { s.setCore c x with owner := owner }
  | .interrupt c =>
    some (s.setCore c { s.core c with
      run := ⟨.idle, (s.core c).held⟩
      below := (s.core c).run :: (s.core c).below })
  | .return c =>
    match (s.core c).below with
    | [] => none
    | f :: below =>
      if (s.core c).run.pc = .idle then some (s.setCore c { s.core c with run := f, below := below })
      else none

/-- The depths as `ch32h4_xcore_init` leaves them, and the semaphore free. -/
def start : State where
  core _ := { depth := 0, held := 0, run := ⟨.idle, 0⟩, below := [] }
  owner := none

/-- The two cores, interleaved. -/
def machine : Machine State Action where
  init s := s = start
  step := step

end Mutex

end Ch32h4.Xcore
