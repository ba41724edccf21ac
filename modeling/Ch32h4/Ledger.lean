import Mathlib.Data.List.Basic
import Mathlib.Data.List.Count
import Mathlib.Data.List.Induction
import Mathlib.Data.List.Nodup

/-!
# Ledgers

A ledger is what was done with some resources, in order: each may be acquired, used and released.
It is `Lawful` if no resource is acquired twice, and each is used and released only while it is
held.  `Lawful.append_acquires`, `Lawful.append_uses` and `Lawful.append_releases` extend a lawful
ledger, and `Lawful.count_release` says that what was acquired and is not held any more was released
exactly once.  `Owns` adds to it a list of what is held.
-/

namespace Ch32h4

/-- What is done with a resource. -/
inductive Deed where
  | acquire
  | use
  | release
  deriving DecidableEq

/-- An entry of a ledger. -/
structure Entry (ρ : Type) where
  deed : Deed
  resource : ρ
  deriving DecidableEq

namespace Ledger

variable {ρ : Type} {l l' : List (Entry ρ)} {e : Entry ρ} {r : ρ} {rs : List ρ}

/-- The resource was acquired and not released. -/
def Held (l : List (Entry ρ)) (r : ρ) : Prop := ⟨.acquire, r⟩ ∈ l ∧ ⟨.release, r⟩ ∉ l

/-- The ledger may go on with this entry. -/
def Allows (l : List (Entry ρ)) (e : Entry ρ) : Prop :=
  if e.deed = .acquire then e ∉ l else Held l e.resource

/-- Every entry was allowed by those before it. -/
def Lawful (l : List (Entry ρ)) : Prop :=
  ∀ before e after, l = before ++ e :: after → Allows before e

/-! ### What is held -/

theorem held_append : Held (l ++ l') r ↔
    (⟨.acquire, r⟩ ∈ l ∨ ⟨.acquire, r⟩ ∈ l') ∧ ⟨.release, r⟩ ∉ l ∧ ⟨.release, r⟩ ∉ l' := by
  rw [Held, List.mem_append, List.mem_append, not_or]

/-- Entries that do not acquire and release nothing that matters change nothing. -/
theorem held_append_iff (ha : ⟨.acquire, r⟩ ∉ l') (hr : ⟨.release, r⟩ ∉ l') :
    Held (l ++ l') r ↔ Held l r := by
  rw [held_append, or_iff_left ha, and_iff_left hr, Held]

/-! ### Extending a ledger -/

theorem lawful_nil : Lawful ([] : List (Entry ρ)) := by
  intro before e after h
  exact absurd h (by simp)

theorem Lawful.append (h : Lawful l)
    (h' : ∀ before e after, l' = before ++ e :: after → Allows (l ++ before) e) :
    Lawful (l ++ l') := by
  intro before e after heq
  rcases List.append_eq_append_iff.mp heq with ⟨mid, hb, hl'⟩ | ⟨mid, hl, hcons⟩
  · rw [hb]
    exact h' mid e after hl'
  · cases mid with
    | nil =>
      rw [List.append_nil] at hl
      rw [← hl, ← List.append_nil l]
      exact h' [] e after hcons.symm
    | cons a mid =>
      obtain ⟨rfl, rfl⟩ := List.cons.inj hcons
      exact h before e mid hl

/-- Entries of one deed. -/
def all (d : Deed) (rs : List ρ) : List (Entry ρ) := rs.map fun r => ⟨d, r⟩

theorem mem_all {d : Deed} : e ∈ all d rs ↔ e.deed = d ∧ e.resource ∈ rs := by
  rw [all, List.mem_map]
  constructor
  · rintro ⟨r, hr, rfl⟩
    exact ⟨rfl, hr⟩
  · rintro ⟨rfl, hr⟩
    exact ⟨e.resource, hr, rfl⟩

theorem all_eq_append {d : Deed} {before after : List (Entry ρ)}
    (h : all d rs = before ++ e :: after) :
    ∃ rs₁ r rs₂, rs = rs₁ ++ r :: rs₂ ∧ before = all d rs₁ ∧ e = ⟨d, r⟩ := by
  obtain ⟨rs₁, rest, rfl, hb, hrest⟩ := List.map_eq_append_iff.mp h
  obtain ⟨r, rs₂, rfl, he, -⟩ := List.map_eq_cons_iff.mp hrest
  exact ⟨rs₁, r, rs₂, rfl, hb.symm, he.symm⟩

/-- Resources that were never acquired may be, each once. -/
theorem Lawful.append_acquires (h : Lawful l) (hnodup : rs.Nodup)
    (hnew : ∀ r ∈ rs, ⟨.acquire, r⟩ ∉ l) : Lawful (l ++ all .acquire rs) := by
  refine h.append fun before e after heq => ?_
  obtain ⟨rs₁, r, rs₂, rfl, rfl, rfl⟩ := all_eq_append heq
  have hr : r ∉ rs₁ := fun hr =>
    (List.nodup_append.mp hnodup).2.2 r hr r List.mem_cons_self rfl
  rw [Allows, if_pos rfl, List.mem_append, not_or, mem_all]
  exact ⟨hnew r (List.mem_append_right _ List.mem_cons_self), fun hin => hr hin.2⟩

/-- What is held may be used. -/
theorem Lawful.append_uses (h : Lawful l) (hheld : ∀ r ∈ rs, Held l r) :
    Lawful (l ++ all .use rs) := by
  refine h.append fun before e after heq => ?_
  obtain ⟨rs₁, r, rs₂, rfl, rfl, rfl⟩ := all_eq_append heq
  rw [Allows, if_neg Deed.noConfusion, held_append_iff]
  · exact hheld r (List.mem_append_right _ List.mem_cons_self)
  · exact fun hin => Deed.noConfusion (mem_all.mp hin).1
  · exact fun hin => Deed.noConfusion (mem_all.mp hin).1

/-- What is held may be released, once. -/
theorem Lawful.append_releases (h : Lawful l) (hnodup : rs.Nodup) (hheld : ∀ r ∈ rs, Held l r) :
    Lawful (l ++ all .release rs) := by
  refine h.append fun before e after heq => ?_
  obtain ⟨rs₁, r, rs₂, rfl, rfl, rfl⟩ := all_eq_append heq
  have hr : r ∉ rs₁ := fun hr =>
    (List.nodup_append.mp hnodup).2.2 r hr r List.mem_cons_self rfl
  rw [Allows, if_neg Deed.noConfusion, held_append_iff]
  · exact hheld r (List.mem_append_right _ List.mem_cons_self)
  · exact fun hin => Deed.noConfusion (mem_all.mp hin).1
  · exact fun hin => hr (mem_all.mp hin).2

/-! ### Once -/

theorem Lawful.of_append (h : Lawful (l ++ l')) : Lawful l := by
  intro before e after heq
  refine h before e (after ++ l') ?_
  rw [heq, List.append_assoc, List.cons_append]

/-- What was never acquired was never released. -/
theorem Lawful.not_mem_release (h : Lawful l) (hacq : ⟨.acquire, r⟩ ∉ l) :
    ⟨.release, r⟩ ∉ l := by
  intro hrel
  obtain ⟨before, after, rfl⟩ := List.append_of_mem hrel
  have hallows := h before _ after rfl
  rw [Allows, if_neg Deed.noConfusion] at hallows
  exact hacq (List.mem_append_left _ hallows.1)

/-- What is released is not held, so it was not released before. -/
theorem Lawful.count_release_le [DecidableEq ρ] (h : Lawful l) (r : ρ) :
    l.count ⟨.release, r⟩ ≤ 1 := by
  induction l using List.reverseRecOn with
  | nil => exact Nat.zero_le 1
  | append_singleton l e ih =>
    rw [List.count_append]
    by_cases he : e = ⟨.release, r⟩
    · have hallows := h l e [] rfl
      rw [Allows, he, if_neg Deed.noConfusion] at hallows
      rw [List.count_eq_zero_of_not_mem hallows.2, Nat.zero_add, he]
      exact Nat.le_of_eq List.count_singleton_self
    · rw [List.count_singleton, if_neg (by simpa using he), Nat.add_zero]
      exact ih h.of_append

/-- **What was acquired and is not held was released exactly once.** -/
theorem Lawful.count_release [DecidableEq ρ] (h : Lawful l) (hacq : ⟨.acquire, r⟩ ∈ l) :
    l.count ⟨.release, r⟩ = 0 ∧ Held l r ∨ l.count ⟨.release, r⟩ = 1 ∧ ¬ Held l r := by
  by_cases hrel : ⟨.release, r⟩ ∈ l
  · have hpos := List.count_pos_iff.mpr hrel
    have hle := h.count_release_le r
    exact .inr ⟨by omega, fun hheld => hheld.2 hrel⟩
  · exact .inl ⟨List.count_eq_zero_of_not_mem hrel, hacq, hrel⟩

/-! ### An owner

Most programs name what they acquire by numbers that are new each time, and can tell what they hold.
-/

/-- A lawful ledger of resources that are numbered as they are acquired, `next` being the next, and
of which those of a list are held. -/
structure Owns (l : List (Entry ℕ)) (held : List ℕ) (next : ℕ) : Prop where
  lawful : Lawful l
  nodup : held.Nodup
  mem_iff : ∀ r, r ∈ held ↔ Held l r
  lt : ∀ r, ⟨.acquire, r⟩ ∈ l → r < next

section

variable {l : List (Entry ℕ)} {held held' rs : List ℕ} {next r : ℕ}

theorem owns_nil : Owns [] [] next where
  lawful := lawful_nil
  nodup := List.nodup_nil
  mem_iff r := by simp [Held]
  lt r h := absurd h (by simp)

theorem Owns.perm (h : Owns l held next) (hperm : held.Perm held') : Owns l held' next :=
  ⟨h.lawful, hperm.nodup_iff.mp h.nodup, fun r => hperm.mem_iff.symm.trans (h.mem_iff r), h.lt⟩

theorem Owns.acquire (h : Owns l held next) :
    Owns (l ++ [⟨.acquire, next⟩]) (next :: held) (next + 1) := by
  have hnew : ⟨.acquire, next⟩ ∉ l := fun hin => Nat.lt_irrefl _ (h.lt next hin)
  have hunused : ∀ r ∈ [next], ⟨.acquire, r⟩ ∉ l := fun r hr =>
    (List.mem_singleton.mp hr).symm ▸ hnew
  refine ⟨?_, ?_, fun r => ?_, fun r hr => ?_⟩
  · exact h.lawful.append_acquires (List.nodup_singleton next) hunused
  · exact List.nodup_cons.mpr ⟨fun hin => hnew ((h.mem_iff next).mp hin).1, h.nodup⟩
  · rw [List.mem_cons, h.mem_iff, held_append, Held]
    by_cases hr : r = next
    · simp [hr, h.lawful.not_mem_release hnew]
    · simp [hr]
  · rcases List.mem_append.mp hr with hr | hr
    · exact Nat.lt_succ_of_lt (h.lt r hr)
    · obtain ⟨-, rfl⟩ := Entry.mk.inj (List.mem_singleton.mp hr)
      exact Nat.lt_succ_self _

theorem Owns.uses (h : Owns l held next) (hrs : ∀ r ∈ rs, r ∈ held) :
    Owns (l ++ all .use rs) held next := by
  have hnot : ∀ d r, d ≠ .use → (⟨d, r⟩ : Entry ℕ) ∉ all .use rs :=
    fun d r hd hin => hd (mem_all.mp hin).1
  refine ⟨h.lawful.append_uses fun r hr => (h.mem_iff r).mp (hrs r hr), h.nodup, fun r => ?_,
    fun r hr => ?_⟩
  · rw [held_append_iff (hnot .acquire r Deed.noConfusion) (hnot .release r Deed.noConfusion)]
    exact h.mem_iff r
  · rcases List.mem_append.mp hr with hr | hr
    · exact h.lt r hr
    · exact absurd hr (hnot .acquire r Deed.noConfusion)

theorem Owns.release (h : Owns l (rs ++ held) next) : Owns (l ++ all .release rs) held next := by
  obtain ⟨hrs, hheld, hdisjoint⟩ := List.nodup_append.mp h.nodup
  refine ⟨?_, hheld, fun r => ?_, fun r hr => ?_⟩
  · exact h.lawful.append_releases hrs fun r hr =>
      (h.mem_iff r).mp (List.mem_append_left held hr)
  · rw [held_append, ← and_assoc, or_iff_left (fun hin => Deed.noConfusion (mem_all.mp hin).1),
      ← Held, ← h.mem_iff, List.mem_append, mem_all]
    constructor
    · intro hin
      exact ⟨.inr hin, fun hrel => hdisjoint r hrel.2 r hin rfl⟩
    · rintro ⟨hin | hin, hrel⟩
      · exact absurd ⟨rfl, hin⟩ hrel
      · exact hin
  · rcases List.mem_append.mp hr with hr | hr
    · exact h.lt r hr
    · exact Deed.noConfusion (mem_all.mp hr).1

/-- What was acquired is held, or was released exactly once. -/
theorem Owns.count_release (h : Owns l held next) (hacq : ⟨.acquire, r⟩ ∈ l) :
    l.count ⟨.release, r⟩ = if r ∈ held then 0 else 1 := by
  rcases h.lawful.count_release hacq with ⟨hcount, hheld⟩ | ⟨hcount, hheld⟩
  · rw [hcount, if_pos ((h.mem_iff r).mpr hheld)]
  · rw [hcount, if_neg (hheld ∘ (h.mem_iff r).mp)]

end

end Ledger

end Ch32h4
