import Mathlib.Data.List.Basic

/-!
# Machines that write a list for each element they read

A coder that works on a stream is a state and a step: for each element it writes some elements,
possibly none, and goes on in another state.  How the stream is cut into blocks does not matter
(`runBlocks_eq`).  A second such machine, which reads what the first one writes, undoes it if each
step is undone up to what is still on its way between them (`Undoes`).
-/

namespace Ch32h4.Transducer

variable {σ τ α β : Type*}

/-- What is written for the elements of a list, and the state at its end. -/
def run (step : σ → α → List β × σ) : σ → List α → List β × σ
  | s, [] => ([], s)
  | s, a :: as =>
    let r := run step (step s a).2 as
    ((step s a).1 ++ r.1, r.2)

/-- The same for a list that comes in blocks. -/
def runBlocks (step : σ → α → List β × σ) : σ → List (List α) → List β × σ
  | s, [] => ([], s)
  | s, block :: blocks =>
    let r := runBlocks step (run step s block).2 blocks
    ((run step s block).1 ++ r.1, r.2)

variable {step : σ → α → List β × σ} {back : τ → β → List α × τ} {s s' : σ} {t t' : τ}
  {as bs : List α} {out : List β}

theorem run_append (s : σ) (as bs : List α) :
    run step s (as ++ bs) =
      ((run step s as).1 ++ (run step (run step s as).2 bs).1,
        (run step (run step s as).2 bs).2) := by
  induction as generalizing s with
  | nil => rfl
  | cons a as ih => rw [List.cons_append, run, run, ih, List.append_assoc]

theorem runBlocks_eq (s : σ) (blocks : List (List α)) :
    runBlocks step s blocks = run step s blocks.flatten := by
  induction blocks generalizing s with
  | nil => rfl
  | cons block blocks ih => rw [runBlocks, ih, List.flatten_cons, run_append]

/-- `Rel pending s t` says where the second machine can be when the first one is at `s` and
`pending` has been read by the first one and not been given back yet.  Each step of the first
machine gives back some of it and leaves the rest on its way. -/
def Undoes (step : σ → α → List β × σ) (back : τ → β → List α × τ)
    (Rel : List α → σ → τ → Prop) : Prop :=
  ∀ pending s t, Rel pending s t → ∀ a, ∃ pending',
    pending ++ [a] = (run back t (step s a).1).1 ++ pending' ∧
      Rel pending' (step s a).2 (run back t (step s a).1).2

theorem Undoes.run {Rel : List α → σ → τ → Prop} (h : Undoes step back Rel) {pending : List α}
    (hrel : Rel pending s t) (as : List α) : ∃ pending',
      pending ++ as = (run back t (Transducer.run step s as).1).1 ++ pending' ∧
        Rel pending' (Transducer.run step s as).2
          (Transducer.run back t (Transducer.run step s as).1).2 := by
  induction as generalizing pending s t with
  | nil => exact ⟨pending, by rw [List.append_nil]; rfl, hrel⟩
  | cons a as ih =>
    obtain ⟨mid, hmid, hrel'⟩ := h pending s t hrel a
    obtain ⟨pending', hout, hend⟩ := ih hrel'
    refine ⟨pending', ?_, ?_⟩
    · rw [Transducer.run, run_append, List.append_cons, hmid]
      simp only [List.append_assoc, hout]
    · rw [Transducer.run, run_append]
      exact hend

end Ch32h4.Transducer
