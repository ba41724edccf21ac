import Ch32h4.Flash.Controller

/-!
# The flash driver

`ch32h4_flash_erase` and `ch32h4_flash_write` of `ch32h4_flash.c`, over the controller and over the
parking of the other core.

A call of `ch32h4_park_other` is a run of the accesses of `Park.RequestPc` that comes to an end,
with anything the other core may do in between; so it may return either value, after any time.
-/

namespace Ch32h4.Flash

open Park

/-! ### Parking -/

/-- What the other core may do to the words it is parked by. -/
structure Answering (w w' : Words) : Prop where
  req : w'.req = w.req
  live : w'.live = w.live

/-- From this access on, `ch32h4_park_other` returns that value and leaves those words. -/
inductive Returns : RequestPc → Words → Bool → Words → Prop
  | next {pc pc' : RequestPc} {w w' w'' v : Words} {b : Bool} (late : Bool) :
    pc.step w late = (w', .inl pc') → Answering w' w'' → Returns pc' w'' b v → Returns pc w b v
  | done {pc : RequestPc} {w w' : Words} {b : Bool} (late : Bool) :
    pc.step w late = (w', .inr b) → Returns pc w b w'

/-- A call of `ch32h4_park_other`. -/
structure ParkCall (w : Words) where
  result : Bool
  words : Words
  returns : Returns .loadLive w result words

namespace Board

variable (c : Controller) (park : ∀ w, ParkCall w)

/-- `ch32h4_park_other(PARK_TIMEOUT_MS)`. -/
def parkOther (s : Board) : Bool × Board :=
  ((park s.words).result, { s with words := (park s.words).words })

/-- `ch32h4_unpark_other`. -/
def unparkOther (s : Board) : Board :=
  { s with words := { s.words with req := false } }

/-! ### Erasing and writing -/

/-- The loops over the pages, which stop at the first one that fails.  The offset does not
overflow, since the length is so many pages. -/
def forPages (op : ℕ → Board → Bool × Board) (page len : ℕ) (hpage : 0 < page) (off : ℕ)
    (ok : Bool) (s : Board) : Bool × Board :=
  if ok ∧ off < len then
    let r := op off s
    forPages op page len hpage (off + page) r.1 r.2
  else (ok, s)
termination_by len - off

/-- `ch32h4_flash_erase`. -/
def flashErase (s : Board) (addr len : BitVec 32) : Bool × Board :=
  let page := c.capacity.flashPageSize
  if len = 0 ∨ addr.toNat % page ≠ 0 ∨ len.toNat % page ≠ 0 then (false, s)
  else
    let p := s.parkOther park
    if !p.1 then (false, p.2)
    else
      let r := forPages (fun off s => s.erasePage c (addr + BitVec.ofNat 32 off)) page len.toNat
        c.capacity.flashPageSize_pos 0 true (p.2.unlock c)
      (r.1, r.2.lock.unparkOther)

/-- The words of the page that is copied from the source. -/
def copied (s : Board) (src : Address) (off i : ℕ) : BitVec 32 :=
  s.mem.word (src + BitVec.ofNat 32 (off + i * 4))

/-- `memcmp` of two ranges gives 0. -/
def sameBytes (s : Board) (a b : Address) (len : ℕ) : Bool :=
  (List.range len).all fun i => s.mem (a + BitVec.ofNat 32 i) == s.mem (b + BitVec.ofNat 32 i)

/-- `ch32h4_flash_write`. -/
def flashWrite (s : Board) (addr src len : BitVec 32) : Bool × Board :=
  if len = 0 then (true, s)
  else if addr.toNat % progPage ≠ 0 ∨ len.toNat % progPage ≠ 0 then (false, s)
  else
    let p := s.parkOther park
    if !p.1 then (false, p.2)
    else
      let r := forPages
        (fun off s => s.programPage c (addr + BitVec.ofNat 32 off) (s.copied src off))
        progPage len.toNat (by decide) 0 true (p.2.unlock c)
      let s' := r.2.lock.unparkOther
      if !r.1 then (false, s') else (s'.sameBytes addr src len.toNat, s')

end Board

end Ch32h4.Flash
