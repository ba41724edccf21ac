import Mathlib.Logic.Basic

/-!
# Traced computations

A `Traced ε α` computes an `α` and notes events of type `ε` on its way, in order.  `All P` says that
every event noted meets `P`; it is computed along the computation, by a rule for each way to build
one (`all_pure`, `all_note`, `all_bind`, `all_ite`, `all_mapM`).
-/

namespace Ch32h4

/-- A value, and the events noted on the way to it. -/
structure Traced (ε α : Type) where
  value : α
  events : List ε

namespace Traced

variable {ε α β : Type}

/-- Note an event. -/
def note (e : ε) : Traced ε Unit := ⟨(), [e]⟩

instance : Monad (Traced ε) where
  pure a := ⟨a, []⟩
  bind x f := ⟨(f x.value).value, x.events ++ (f x.value).events⟩

instance : LawfulMonad (Traced ε) :=
  LawfulMonad.mk' (Traced ε) (fun x => congrArg (Traced.mk _) (List.append_nil x.events))
    (fun _ _ => rfl) (fun _ _ _ => congrArg (Traced.mk _) (List.append_assoc _ _ _))

@[simp] theorem value_pure (a : α) : (pure a : Traced ε α).value = a := rfl

@[simp] theorem value_bind (x : Traced ε α) (f : α → Traced ε β) :
    (x >>= f).value = (f x.value).value := rfl

@[simp] theorem value_ite (p : Prop) [Decidable p] (x y : Traced ε α) :
    (if p then x else y).value = if p then x.value else y.value := apply_ite value p x y

theorem value_mapM {f : α → Traced ε β} (l : List α) :
    (l.mapM f).value = l.map fun a => (f a).value := by
  induction l with
  | nil => rfl
  | cons a l ih => rw [List.mapM_cons, value_bind, value_bind, value_pure, ih, List.map_cons]

/-! ### What is true of all events -/

/-- Every event noted meets `P`. -/
def All (P : ε → Prop) (x : Traced ε α) : Prop := ∀ e ∈ x.events, P e

variable {P : ε → Prop}

@[simp] theorem all_pure (a : α) : (pure a : Traced ε α).All P := List.forall_mem_nil P

@[simp] theorem all_note (e : ε) : (note e).All P ↔ P e := List.forall_mem_singleton

@[simp] theorem all_bind (x : Traced ε α) (f : α → Traced ε β) :
    (x >>= f).All P ↔ x.All P ∧ (f x.value).All P := List.forall_mem_append

@[simp] theorem all_map (f : α → β) (x : Traced ε α) : (f <$> x).All P ↔ x.All P := by
  rw [map_eq_pure_bind, all_bind, and_iff_left (all_pure _)]

theorem all_ite (p : Prop) [Decidable p] (x y : Traced ε α) :
    (if p then x else y).All P ↔ (p → x.All P) ∧ (¬ p → y.All P) := by
  by_cases hp : p <;> simp [hp]

theorem all_mapM {f : α → Traced ε β} (l : List α) :
    (l.mapM f).All P ↔ ∀ a ∈ l, (f a).All P := by
  induction l with
  | nil => simp
  | cons a l ih =>
    rw [List.mapM_cons, all_bind, all_bind, List.forall_mem_cons, ih, and_iff_left (all_pure _)]

end Traced

end Ch32h4
