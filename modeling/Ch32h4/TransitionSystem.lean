import Mathlib.Data.List.Basic
import Mathlib.Logic.Basic

/-!
# Machines, guarded reachability and the invariant rule

A `Machine` is a labelled transition system given by a partial step function: an action is either
enabled, and then the next state is determined, or it is not.  Interleavings of several threads
are machines whose actions say which thread moves, so a statement about every reachable state is
a statement about every interleaving.

`Reachable M G` are the states reached by runs all of whose steps meet the guard `G`; with the
trivial guard these are all reachable states.  `Machine.invariant` is the induction rule,
`Machine.reachable_of_run` turns a concrete trace into a reachable state, and
`Reachable.mono` relates guards.  `observed` puts an observer beside a machine, for properties that
need a note of what happened.
-/

namespace Ch32h4

/-- A labelled transition system with a partial, deterministic step for each action. -/
structure Machine (σ α : Type*) where
  /-- The states a run may begin in. -/
  init : σ → Prop
  /-- The state after an action, when the action is enabled. -/
  step : σ → α → Option σ

namespace Machine

variable {σ α : Type*} (M : Machine σ α)

/-- The states reached by runs whose every step meets the guard `G`. -/
inductive Reachable (G : σ → α → Prop) : σ → Prop where
  | init {s : σ} : M.init s → Reachable G s
  | step {s s' : σ} {a : α} : Reachable G s → G s a → M.step s a = some s' → Reachable G s'

/-- The guard that admits every step. -/
def anyStep : σ → α → Prop := fun _ _ => True

variable {M}

/-- **The invariant rule**: what holds initially and is preserved by every guarded step holds in
every state reached. -/
theorem invariant {G : σ → α → Prop} {I : σ → Prop} (hinit : ∀ s, M.init s → I s)
    (hstep : ∀ s a s', I s → G s a → M.step s a = some s' → I s') {s : σ}
    (h : M.Reachable G s) : I s := by
  induction h with
  | init h => exact hinit _ h
  | step _ hG hs ih => exact hstep _ _ _ ih hG hs

/-- A weaker guard reaches more states. -/
theorem Reachable.mono {G G' : σ → α → Prop} (hGG' : ∀ s a, G s a → G' s a) {s : σ}
    (h : M.Reachable G s) : M.Reachable G' s := by
  induction h with
  | init h => exact .init h
  | step _ hG hs ih => exact .step ih (hGG' _ _ hG) hs

variable (M)

/-- Take the actions of a list in order, as long as each is enabled and meets the guard. -/
def run (G : σ → α → Prop) [∀ s a, Decidable (G s a)] : σ → List α → Option σ
  | s, [] => some s
  | s, a :: as => if G s a then (M.step s a).bind fun s' => run G s' as else none

variable {M}

/-- A trace that runs to its end leads from a reachable state to a reachable state. -/
theorem reachable_of_run {G : σ → α → Prop} [∀ s a, Decidable (G s a)] :
    ∀ {as : List α} {s s' : σ}, M.Reachable G s → M.run G s as = some s' → M.Reachable G s'
  | [], s, s', hs, h => by
    rw [run, Option.some.injEq] at h
    exact h ▸ hs
  | a :: as, s, s', hs, h => by
    rw [run] at h
    split_ifs at h with hG
    obtain ⟨t, ht, hrest⟩ := Option.bind_eq_some_iff.mp h
    exact reachable_of_run (.step hs hG ht) hrest

/-- Where every action is enabled, any list of actions that meet the guard leads on. -/
theorem reachable_foldl {G : σ → α → Prop} {f : σ → α → σ}
    (hf : ∀ s a, M.step s a = some (f s a)) {as : List α} {s : σ} (hG : ∀ a ∈ as, ∀ s, G s a)
    (hs : M.Reachable G s) : M.Reachable G (as.foldl f s) := by
  induction as generalizing s with
  | nil => exact hs
  | cons a as ih =>
    have hrest : ∀ a' ∈ as, ∀ s, G s a' := fun a' ha' => hG a' (List.mem_cons_of_mem a ha')
    exact ih hrest (.step hs (hG a List.mem_cons_self s) (hf s a))

/-! ### Observers -/

section

variable {γ : Type*} (M) (note₀ : σ → γ) (note : σ → γ → α → γ)

/-- The machine with an observer beside it, who keeps a note of the steps.  The machine does not
see the note. -/
def observed : Machine (σ × γ) α where
  init s := M.init s.1 ∧ s.2 = note₀ s.1
  step s a := (M.step s.1 a).map fun s' => (s', note s.1 s.2 a)

variable {M note₀ note}

theorem observed_step {s s' : σ × γ} {a : α} :
    (M.observed note₀ note).step s a = some s' ↔
      M.step s.1 a = some s'.1 ∧ s'.2 = note s.1 s.2 a := by
  rw [observed, Option.map_eq_some_iff]
  constructor
  · rintro ⟨t, ht, rfl⟩
    exact ⟨ht, rfl⟩
  · rintro ⟨ht, hnote⟩
    exact ⟨s'.1, ht, by rw [← hnote]⟩

/-- Every run may be observed, and an observed run is a run. -/
theorem reachable_observed_iff {G : σ → α → Prop} {s : σ} :
    (∃ g, (M.observed note₀ note).Reachable (fun t a => G t.1 a) (s, g)) ↔ M.Reachable G s := by
  constructor
  · rintro ⟨g, h⟩
    have hfst : ∀ t, (M.observed note₀ note).Reachable (fun t a => G t.1 a) t →
        M.Reachable G t.1 := by
      intro t ht
      induction ht with
      | init h => exact .init h.1
      | step _ hG hs ih => exact .step ih hG (observed_step.mp hs).1
    exact hfst _ h
  · intro h
    induction h with
    | @init s h => exact ⟨note₀ s, .init ⟨h, rfl⟩⟩
    | step _ hG hs ih =>
      obtain ⟨g, hg⟩ := ih
      exact ⟨_, .step hg hG (observed_step.mpr ⟨hs, rfl⟩)⟩

end

instance : ∀ (s : σ) (a : α), Decidable (anyStep s a) := fun _ _ => inferInstanceAs (Decidable True)

end Machine

end Ch32h4
