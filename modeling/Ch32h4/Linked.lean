import Mathlib.Data.List.Basic
import Mathlib.Data.List.Nodup
import Mathlib.Logic.Function.Basic
import Mathlib.Tactic.Common

/-!
# Singly linked lists

The members of the list hold the link to the next one, and one more link is the head.  `Links` are
all of these, and `Spells` says what list is found behind a link.

A member is taken out by going from link to link, with a pointer to the link, until one is found
that leads to it (`seek`); `spells_unlink` says that this takes that one member out.  Where the
links go round in a circle and miss it, the search does not end: it gets as many steps as are asked
for, and `none` says that they were not enough.
-/

namespace Ch32h4

/-- The links of a list, and of everything that may be a member. -/
@[ext]
structure Links (ι : Type*) where
  head : Option ι
  next : ι → Option ι

namespace Links

variable {ι : Type*} {next next' : ι → Option ι} {m : Links ι} {link : Option ι} {x y : ι}
variable {l l' pre post : List ι} {fuel : ℕ}

/-! ### The list behind a link -/

/-- Behind the link is the list. -/
def Spells (next : ι → Option ι) : Option ι → List ι → Prop
  | link, [] => link = none
  | link, x :: l => link = some x ∧ Spells next (next x) l

theorem Spells.eq_head? (h : Spells next link l) : link = l.head? := by
  cases l with
  | nil => exact h
  | cons x l => exact h.1

theorem Spells.unique (h : Spells next link l) (h' : Spells next link l') : l = l' := by
  induction l generalizing link l' with
  | nil =>
    cases l' with
    | nil => rfl
    | cons y l' => cases h.symm.trans h'.1
  | cons x l ih =>
    cases l' with
    | nil => cases h.1.symm.trans h'
    | cons y l' =>
      obtain rfl : x = y := Option.some.inj (h.1.symm.trans h'.1)
      rw [ih h.2 h'.2]

/-- Only the links of the members matter. -/
theorem Spells.congr (h : Spells next link l) (hsame : ∀ x ∈ l, next' x = next x) :
    Spells next' link l := by
  induction l generalizing link with
  | nil => exact h
  | cons x l ih =>
    refine ⟨h.1, ?_⟩
    rw [hsame x List.mem_cons_self]
    exact ih h.2 fun y hy => hsame y (List.mem_cons_of_mem x hy)

/-- A member leads to the rest. -/
theorem Spells.next_eq (h : Spells next link (pre ++ x :: post)) : next x = post.head? := by
  induction pre generalizing link with
  | nil => exact h.2.eq_head?
  | cons y pre ih => exact ih h.2

variable [DecidableEq ι]

/-- A new member goes to the front. -/
theorem Spells.cons (h : Spells next link l) (hx : x ∉ l) :
    Spells (Function.update next x link) (some x) (x :: l) := by
  refine ⟨rfl, ?_⟩
  rw [Function.update_self]
  exact h.congr fun y hy => Function.update_of_ne (fun heq : y = x => hx (heq ▸ hy)) ..

/-- What is not a member may be changed. -/
theorem Spells.update (h : Spells next link l) (hx : x ∉ l) (target : Option ι) :
    Spells (Function.update next x target) link l :=
  h.congr fun y hy => Function.update_of_ne (fun heq : y = x => hx (heq ▸ hy)) ..

/-! ### Taking a member out -/

/-- What a link leads to; `none` stands for the head. -/
def deref (m : Links ι) : Option ι → Option ι
  | none => m.head
  | some x => m.next x

def set (m : Links ι) (link target : Option ι) : Links ι :=
  match link with
  | none => { m with head := target }
  | some x => { m with next := Function.update m.next x target }

/-- The link that leads to `x`, or the last one. -/
def seek (m : Links ι) (x : ι) : ℕ → Option ι → Option (Option ι)
  | 0, _ => none
  | fuel + 1, link =>
    if m.deref link = none ∨ m.deref link = some x then some link
    else m.seek x fuel (m.deref link)

def unlink (m : Links ι) (x : ι) (fuel : ℕ) : Option (Links ι) :=
  (m.seek x fuel none).map fun link =>
    if m.deref link = none then m else m.set link (m.next x)

theorem deref_set_self (m : Links ι) (link target : Option ι) :
    (m.set link target).deref link = target := by
  cases link with
  | none => rfl
  | some x => exact Function.update_self ..

theorem deref_set_of_ne (m : Links ι) {link link' : Option ι} (h : link' ≠ link)
    (target : Option ι) : (m.set link target).deref link' = m.deref link' := by
  cases link with
  | none =>
    cases link' with
    | none => exact absurd rfl h
    | some y => rfl
  | some x =>
    cases link' with
    | none => rfl
    | some y => exact Function.update_of_ne (fun heq => h (congrArg some heq)) ..

/-- From any link that is not one of the list behind it. -/
theorem seek_spells (hspells : Spells m.next (m.deref link) (pre ++ x :: post))
    (hnodup : (pre ++ x :: post).Nodup) (hlink : ∀ y ∈ pre ++ x :: post, link ≠ some y)
    (hfuel : pre.length < fuel) :
    ∃ found, m.seek x fuel link = some found ∧ m.deref found = some x ∧
      (found = link ∨ ∃ y ∈ pre, found = some y) ∧
      Spells (m.set found (m.next x)).next ((m.set found (m.next x)).deref link) (pre ++ post) := by
  induction pre generalizing link fuel with
  | nil =>
    obtain ⟨fuel, rfl⟩ := Nat.exists_eq_succ_of_ne_zero (Nat.ne_of_gt hfuel)
    refine ⟨link, by rw [seek, if_pos (.inr hspells.1)], hspells.1, .inl rfl, ?_⟩
    rw [deref_set_self]
    refine hspells.2.congr fun y hy => ?_
    have hne : some y ≠ link := (hlink y (List.mem_cons_of_mem x hy)).symm
    exact deref_set_of_ne m hne _
  | cons z pre ih =>
    obtain ⟨fuel, rfl⟩ := Nat.exists_eq_succ_of_ne_zero (Nat.ne_of_gt (Nat.zero_lt_of_lt hfuel))
    obtain ⟨hz, hrest⟩ := List.nodup_cons.mp hnodup
    have hzx : z ≠ x := fun heq => hz (heq ▸ List.mem_append_right pre List.mem_cons_self)
    have hstep : ∀ y ∈ pre ++ x :: post, some z ≠ some y :=
      fun y hy heq => hz (Option.some.inj heq ▸ hy)
    have hbehind : Spells m.next (m.deref (some z)) (pre ++ x :: post) := hspells.2
    obtain ⟨found, hseek, hderef, hfound, hspells'⟩ :=
      ih hbehind hrest hstep (Nat.lt_of_succ_lt_succ hfuel)
    -- The link that is found is one of a member, so the one the search began with stays.
    have hmember : ∃ y ∈ z :: pre, found = some y := by
      rcases hfound with rfl | ⟨y, hy, rfl⟩
      · exact ⟨z, List.mem_cons_self, rfl⟩
      · exact ⟨y, List.mem_cons_of_mem z hy, rfl⟩
    have hne : link ≠ found := by
      obtain ⟨y, hy, rfl⟩ := hmember
      exact hlink y (List.mem_append_left _ hy)
    refine ⟨found, ?_, hderef, .inr hmember, ?_, hspells'⟩
    · have hnot : ¬ (m.deref link = none ∨ m.deref link = some x) := by
        rw [hspells.1]
        rintro (h | h)
        · cases h
        · exact hzx (Option.some.inj h)
      rw [seek, if_neg hnot, hspells.1]
      exact hseek
    · rw [deref_set_of_ne m hne]
      exact hspells.1

/-- **A member is taken out.** -/
theorem spells_unlink (hspells : Spells m.next m.head (pre ++ x :: post))
    (hnodup : (pre ++ x :: post).Nodup) (hfuel : pre.length < fuel) :
    ∃ m', m.unlink x fuel = some m' ∧ Spells m'.next m'.head (pre ++ post) := by
  have hbehind : Spells m.next (m.deref none) (pre ++ x :: post) := hspells
  obtain ⟨found, hseek, hderef, -, hspells'⟩ :=
    seek_spells hbehind hnodup (fun _ _ h => nomatch h) hfuel
  refine ⟨m.set found (m.next x), ?_, hspells'⟩
  rw [unlink, hseek, Option.map_some, if_neg (by rw [hderef]; exact Option.some_ne_none x)]

end Links

end Ch32h4
