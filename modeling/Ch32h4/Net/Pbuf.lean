import Mathlib.Algebra.Order.Ring.Nat

/-!
# Packet buffers

The pbufs of lwIP as far as `LwipClientContext` uses them: chains of pbufs with reference counts.
lwIP itself is not part of the repository.  `PbufApi` are its functions on pbufs, and
`PbufApi.Documented` says what is documented of them; `lwip` does what it says.

A pool holds all the pbufs there have ever been, so a pbuf is a number that is never used again.
A link of a chain holds a reference on the pbuf it leads to.
-/

namespace Ch32h4.Net

structure Pbuf where
  payload : List UInt8
  next : Option ℕ
  ref : ℕ
  /-- How often its memory has been given back. -/
  frees : ℕ

abbrev Pool := List Pbuf

/-- A pbuf whose last reference is gone. -/
def Pbuf.freed (n : Pbuf) : Pbuf := { n with ref := 0, frees := n.frees + 1 }

/-- The pbufs `is`, linked one to the next, each with the one reference of its link. -/
def Chain (σ : Pool) : Option ℕ → List ℕ → Prop
  | o, [] => o = none
  | o, i :: is => o = some i ∧ i ∉ is ∧
      ∃ n, σ[i]? = some n ∧ n.ref = 1 ∧ n.frees = 0 ∧ Chain σ n.next is

/-- The bytes in a pbuf. -/
def payload (σ : Pool) (i : ℕ) : List UInt8 := (σ[i]?.map Pbuf.payload).getD []

/-- The bytes in some pbufs. -/
def bytes (σ : Pool) (is : List ℕ) : List UInt8 := is.flatMap (payload σ)

/-- The functions of lwIP on pbufs. -/
structure PbufApi where
  ref : Pool → ℕ → Pool
  free : Pool → ℕ → Pool
  cat : Pool → ℕ → ℕ → Pool
  copyPartial : Pool → ℕ → ℕ → ℕ → List UInt8
  getAt : Pool → ℕ → ℕ → UInt8

/-- `if (next) pbuf_ref(next)`. -/
def PbufApi.refNext (api : PbufApi) (σ : Pool) : Option ℕ → Pool
  | none => σ
  | some q => api.ref σ q

/-- What is documented of them. -/
structure PbufApi.Documented (api : PbufApi) : Prop where
  /-- `pbuf_ref` adds a reference. -/
  ref_eq : ∀ σ p n, σ[p]? = some n → 0 < n.ref →
    api.ref σ p = σ.set p { n with ref := n.ref + 1 }
  /-- `pbuf_free` takes a reference away. -/
  free_shared : ∀ σ p n, σ[p]? = some n → 1 < n.ref →
    api.free σ p = σ.set p { n with ref := n.ref - 1 }
  /-- Without a reference left the pbuf is freed. -/
  free_last : ∀ σ p n, σ[p]? = some n → n.ref = 1 → n.next = none →
    api.free σ p = σ.set p n.freed
  /-- Its link goes with it, and the reference that the link holds. -/
  free_link : ∀ σ p n q, σ[p]? = some n → n.ref = 1 → n.next = some q →
    api.free σ p = api.free (σ.set p n.freed) q
  /-- `pbuf_cat` links a chain behind the last pbuf of another, and takes over its reference. -/
  cat_eq : ∀ σ h t is l n, Chain σ (some h) (is ++ [l]) → σ[l]? = some n →
    api.cat σ h t = σ.set l { n with next := some t }
  /-- `pbuf_copy_partial` copies so many bytes of a chain from an offset on. -/
  copyPartial_eq : ∀ σ p is len off, Chain σ (some p) is →
    api.copyPartial σ p len off = ((bytes σ is).drop off).take len
  /-- `pbuf_get_at` is the byte of a chain at an offset. -/
  getAt_eq : ∀ σ p is off b, Chain σ (some p) is → (bytes σ is)[off]? = some b →
    api.getAt σ p off = b

/-! ### Walking along a chain -/

/-- The pbufs that the links lead to, at most so many. -/
def walk (σ : Pool) : ℕ → Option ℕ → List ℕ
  | 0, _ => []
  | _ + 1, none => []
  | fuel + 1, some p =>
    match σ[p]? with
    | none => []
    | some n => p :: walk σ fuel n.next

/-- The pbufs of a chain: it has at most as many as there are. -/
def chain (σ : Pool) (o : Option ℕ) : List ℕ := walk σ σ.length o

/-- `pbuf_free`, on at most so many pbufs. -/
def freeWalk : ℕ → Pool → ℕ → Pool
  | 0, σ, _ => σ
  | fuel + 1, σ, p =>
    match σ[p]? with
    | none => σ
    | some n =>
      if n.ref = 1 then
        match n.next with
        | none => σ.set p n.freed
        | some q => freeWalk fuel (σ.set p n.freed) q
      else σ.set p { n with ref := n.ref - 1 }

/-- The pbufs that have a reference. -/
def held (σ : Pool) : ℕ := σ.countP fun n => 0 < n.ref

/-- The functions on pbufs, computed. -/
def lwip : PbufApi where
  ref σ p :=
    match σ[p]? with
    | none => σ
    | some n => σ.set p { n with ref := n.ref + 1 }
  free σ p := freeWalk (held σ) σ p
  cat σ h t :=
    match (chain σ (some h)).getLast? with
    | none => σ
    | some l =>
      match σ[l]? with
      | none => σ
      | some n => σ.set l { n with next := some t }
  copyPartial σ p len off := ((bytes σ (chain σ (some p))).drop off).take len
  getAt σ p off := (bytes σ (chain σ (some p)))[off]?.getD 0

/-- The pbufs of a new chain, in the numbers from `base` on. -/
def link (base : ℕ) : List (List UInt8) → List Pbuf
  | [] => []
  | [p] => [⟨p, none, 1, 0⟩]
  | p :: q :: ps => ⟨p, some (base + 1), 1, 0⟩ :: link (base + 1) (q :: ps)

end Ch32h4.Net
