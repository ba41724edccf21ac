import Mathlib.Algebra.BigOperators.Group.Finset.Basic
import Mathlib.Data.Finset.Card
import Mathlib.Data.Fintype.Card

/-!
# Counting the members with a property

`tally S f p` is the number of members of `S` whose value under `f` satisfies `p`.  Programs keep
such numbers beside the table `f` and adjust them when one entry of `f` changes;
`tally_update_same`, `tally_update_gain` and `tally_update_loss` say by how much.
`tally_le_of_slots` is the pigeonhole bound for values that are places with a bounded number of
slots, and `sum_tally` adds up the tallies of the parts of a partition.
-/

namespace Ch32h4

variable {ι γ : Type*}

/-- How many members of `S` have a value that satisfies `p`. -/
def tally (S : Finset ι) (f : ι → γ) (p : γ → Prop) [DecidablePred p] : ℕ :=
  (S.filter fun i => p (f i)).card

section

variable {S : Finset ι} {f : ι → γ} {p : γ → Prop} [DecidablePred p]

theorem tally_congr {f' : ι → γ} (h : ∀ i ∈ S, (p (f' i) ↔ p (f i))) :
    tally S f' p = tally S f p :=
  congrArg Finset.card (Finset.filter_congr h)

theorem tally_pos : 0 < tally S f p ↔ ∃ i ∈ S, p (f i) := by
  rw [tally, Finset.card_pos]
  exact ⟨fun ⟨i, hi⟩ => ⟨i, Finset.mem_filter.mp hi⟩,
    fun ⟨i, hi, hp⟩ => ⟨i, Finset.mem_filter.mpr ⟨hi, hp⟩⟩⟩

theorem tally_eq_zero : tally S f p = 0 ↔ ∀ i ∈ S, ¬ p (f i) := by
  rw [tally, Finset.card_eq_zero, Finset.filter_eq_empty_iff]

theorem tally_le_card : tally S f p ≤ S.card := Finset.card_filter_le _ _

/-- Changing an entry without changing whether it counts. -/
theorem tally_update_same [DecidableEq ι] {i : ι} {v : γ} (h : p v ↔ p (f i)) :
    tally S (Function.update f i v) p = tally S f p := by
  refine tally_congr fun j _ => ?_
  rcases eq_or_ne j i with rfl | hne
  · rw [Function.update_self, h]
  · rw [Function.update_of_ne hne]

/-- An entry that did not count and now does. -/
theorem tally_update_gain [DecidableEq ι] {i : ι} {v : γ} (hi : i ∈ S) (hold : ¬ p (f i))
    (hnew : p v) :
    tally S (Function.update f i v) p = tally S f p + 1 := by
  have hset : (S.filter fun j => p (Function.update f i v j)) =
      insert i (S.filter fun j => p (f j)) := by
    ext j
    rw [Finset.mem_insert, Finset.mem_filter, Finset.mem_filter]
    rcases eq_or_ne j i with rfl | hne
    · rw [Function.update_self]
      exact ⟨fun _ => .inl rfl, fun _ => ⟨hi, hnew⟩⟩
    · rw [Function.update_of_ne hne]
      exact ⟨.inr, fun h => h.resolve_left hne⟩
  have hnot : i ∉ S.filter fun j => p (f j) := fun h => hold (Finset.mem_filter.mp h).2
  rw [tally, hset, Finset.card_insert_of_notMem hnot, tally]

/-- An entry that counted and now does not. -/
theorem tally_update_loss [DecidableEq ι] {i : ι} {v : γ} (hi : i ∈ S) (hold : p (f i))
    (hnew : ¬ p v) :
    tally S (Function.update f i v) p + 1 = tally S f p := by
  have h := tally_update_gain (f := Function.update f i v) (v := f i) hi
    (by rwa [Function.update_self]) hold
  rw [Function.update_idem, Function.update_eq_self] at h
  exact h.symm

end

/-- Counting one more number. -/
theorem tally_range_succ (f : ℕ → γ) (p : γ → Prop) [DecidablePred p] (k : ℕ) :
    tally (Finset.range (k + 1)) f p = tally (Finset.range k) f p + if p (f k) then 1 else 0 := by
  rw [tally, Finset.range_add_one, Finset.filter_insert, tally]
  split_ifs with hp
  · exact Finset.card_insert_of_notMem fun hmem =>
      absurd (Finset.mem_range.mp (Finset.mem_filter.mp hmem).1) (lt_irrefl k)
  · rfl

/-- The members at one place, when no two of them share a slot, are no more than its slots. -/
theorem tally_le_of_slots {β : Type*} [DecidableEq β] {S : Finset ι} {f : ι → Option (β × ℕ)}
    {k : ℕ} (b : β) (hlt : ∀ i ∈ S, ∀ c n, f i = some (c, n) → n < k)
    (hinj : ∀ i ∈ S, ∀ j ∈ S, ∀ x, f i = some x → f j = some x → i = j) :
    tally S f (fun x => x.map Prod.fst = some b) ≤ k := by
  have hcard : (S.filter fun i => (f i).map Prod.fst = some b).card ≤ (Finset.range k).card := by
    refine Finset.card_le_card_of_injOn (fun i => ((f i).map Prod.snd).getD 0) ?_ ?_
    · intro i hi
      obtain ⟨hS, hb⟩ := Finset.mem_filter.mp hi
      obtain ⟨⟨c, n⟩, hcn, -⟩ := Option.map_eq_some_iff.mp hb
      simpa [hcn] using hlt i hS c n hcn
    · intro i hi j hj hij
      obtain ⟨hS, hb⟩ := Finset.mem_filter.mp hi
      obtain ⟨hS', hb'⟩ := Finset.mem_filter.mp hj
      obtain ⟨⟨c, n⟩, hcn, hc⟩ := Option.map_eq_some_iff.mp hb
      obtain ⟨⟨c', n'⟩, hcn', hc'⟩ := Option.map_eq_some_iff.mp hb'
      obtain rfl : c = c' := hc.trans hc'.symm
      obtain rfl : n = n' := by simpa [hcn, hcn'] using hij
      exact hinj i hS j hS' _ hcn hcn'
  rwa [Finset.card_range] at hcard

/-- The members that have a place are counted place by place. -/
theorem sum_tally {β : Type*} [DecidableEq β] (S : Finset ι) (B : Finset β)
    (f : ι → Option (β × ℕ)) (hB : ∀ i ∈ S, ∀ x, f i = some x → x.1 ∈ B) :
    ∑ b ∈ B, tally S f (fun x => x.map Prod.fst = some b) = tally S f fun x => x.isSome := by
  classical
  rw [tally, Finset.card_eq_sum_card_fiberwise (f := fun i => (f i).map Prod.fst)
    (t := B.map Function.Embedding.some), Finset.sum_map]
  · refine Finset.sum_congr rfl fun b _ => ?_
    rw [tally, Finset.filter_filter]
    refine congrArg Finset.card (Finset.filter_congr fun i _ => ⟨fun h => ⟨?_, h⟩, fun h => h.2⟩)
    cases hx : f i <;> simp_all
  · intro i hi
    obtain ⟨hS, hsome⟩ := Finset.mem_filter.mp hi
    obtain ⟨x, hx⟩ := Option.isSome_iff_exists.mp hsome
    simpa [hx] using hB i hS x hx

end Ch32h4
