import Ch32h4.I2s.Port
import Ch32h4.Circular
import Mathlib.Tactic.SplitIfs

/-!
# The ring as a queue

`Ring p xs`: the ring of a port holds the bytes `xs`, oldest first.  `Ring.ringPush` and
`Ring.ringPop` are the two ends of the queue, `Ring.ringUsed` and `Ring.ringFree` its length and its
room, and `Ring.contents` says that the bytes are determined.
-/

namespace Ch32h4.I2s

open Circular

/-! ### Memory -/

variable {mem : Memory} {off n : ℕ} {bs : List UInt8}

@[simp] theorem load_length : (load mem off n).length = n := by
  rw [load, List.length_map, List.length_range]

theorem load_add {m : ℕ} : load mem off (m + n) = load mem off m ++ load mem (off + m) n := by
  unfold load
  rw [List.range_add, List.map_append, List.map_map]
  simp [Function.comp_def, Nat.add_assoc]

theorem load_congr {mem' : Memory} (h : ∀ i, off ≤ i → i < off + n → mem' i = mem i) :
    load mem' off n = load mem off n := by
  refine List.map_congr_left fun i hi => ?_
  have := List.mem_range.mp hi
  exact h _ (by omega) (by omega)

theorem load_store : load (store mem off bs) off bs.length = bs := by
  refine List.ext_getElem (by simp) fun i h₁ h₂ => ?_
  have hget : (load (store mem off bs) off bs.length)[i] = store mem off bs (off + i) := by
    simp [load]
  rw [hget, store, if_pos ⟨by omega, by omega⟩, Nat.add_sub_cancel_left,
    List.getD_eq_getElem _ _ h₂]

/-- A store elsewhere is not seen. -/
theorem load_store_of_disjoint {off' : ℕ} (h : off' + n ≤ off ∨ off + bs.length ≤ off') :
    load (store mem off bs) off' n = load mem off' n := by
  refine load_congr fun i hi hlt => ?_
  rw [store, if_neg (by omega)]

/-- Bytes put behind others. -/
theorem load_store_append {xs : List UInt8} (h : load mem off xs.length = xs) :
    load (store mem (off + xs.length) bs) off (xs.length + bs.length) = xs ++ bs := by
  rw [load_add, load_store, load_store_of_disjoint (.inl le_rfl), h]

/-! ### The ring -/

namespace I2S

variable {p : I2S} {xs ys : List UInt8}

/-- The ring holds these bytes. -/
structure Ring (p : I2S) (xs : List UInt8) : Prop where
  tail_lt : p.tail < p.ring_size
  head_eq : p.head = (p.tail + xs.length) % p.ring_size
  length_lt : xs.length < p.ring_size
  holds : Holds p.ring p.ring_size p.tail xs

theorem Ring.ringUsed (h : Ring p xs) : p.ringUsed = xs.length := by
  obtain ⟨htail, hhead, hlength, -⟩ := h
  unfold I2S.ringUsed
  rw [hhead]
  by_cases hwrap : p.tail + xs.length < p.ring_size
  · rw [Nat.mod_eq_of_lt hwrap, if_pos (Nat.le_add_right ..)]
    omega
  · have hmod : (p.tail + xs.length) % p.ring_size = p.tail + xs.length - p.ring_size := by
      rw [Nat.mod_eq_sub_mod (by omega), Nat.mod_eq_of_lt (by omega)]
    rw [hmod, if_neg (by omega)]
    omega

theorem Ring.ringFree (h : Ring p xs) : p.ringFree = p.ring_size - xs.length - 1 := by
  rw [I2S.ringFree, h.ringUsed]

theorem next_mod {size i : ℕ} (hpos : 0 < size) : next size (i % size) = (i + 1) % size := by
  have hlt := Nat.mod_lt i hpos
  unfold next
  rw [← Nat.mod_add_mod]
  split_ifs with hlast
  · rw [hlast, Nat.mod_self]
  · exact (Nat.mod_eq_of_lt (show i % size + 1 < size by omega)).symm

/-- The loop of `ringPush` appends to the list. -/
theorem ringPushLoop_spec {size t : ℕ} {bs : List UInt8} : ∀ {ring : ℕ → UInt8}
    {xs : List UInt8}, Holds ring size t xs → xs.length + bs.length < size →
      Holds (ringPushLoop size ring ((t + xs.length) % size) bs).1 size t (xs ++ bs) ∧
        (ringPushLoop size ring ((t + xs.length) % size) bs).2 =
          (t + (xs ++ bs).length) % size := by
  induction bs with
  | nil =>
    intro ring xs h _
    rw [ringPushLoop, List.append_nil]
    exact ⟨h, rfl⟩
  | cons b bs ih =>
    intro ring xs h hroom
    rw [List.length_cons] at hroom
    rw [ringPushLoop, next_mod (by omega), List.append_cons]
    have hlength : (xs ++ [b]).length = xs.length + 1 := List.length_append
    have hnext := ih (h.push (y := b) (by omega)) (by omega)
    rw [hlength, ← Nat.add_assoc] at hnext
    exact hnext

theorem Ring.ringPush (h : Ring p xs) (hroom : xs.length + bs.length < p.ring_size) :
    Ring (p.ringPush bs) (xs ++ bs) := by
  obtain ⟨hholds, hhead⟩ := ringPushLoop_spec h.holds hroom
  rw [← h.head_eq] at hholds hhead
  refine ⟨h.tail_lt, hhead, ?_, hholds⟩
  rw [List.length_append]
  exact hroom

/-- The loop of `ringPop` takes from the front. -/
theorem ringPopLoop_spec {size : ℕ} {ring : ℕ → UInt8} (hpos : 0 < size) :
    ∀ {n t : ℕ} {xs : List UInt8}, Holds ring size t xs → n ≤ xs.length →
      ringPopLoop size ring (t % size) n = (xs.take n, (t + n) % size) ∧
        Holds ring size (t + n) (xs.drop n) := by
  intro n
  induction n with
  | zero =>
    intro t xs h _
    exact ⟨rfl, h⟩
  | succ n ih =>
    intro t xs h hle
    cases xs with
    | nil => cases hle
    | cons x xs =>
      obtain ⟨hpop, hrest⟩ := ih h.tail (Nat.le_of_succ_le_succ hle)
      rw [show t + 1 + n = t + (n + 1) by omega] at hpop hrest
      refine ⟨?_, hrest⟩
      rw [ringPopLoop, next_mod hpos, hpop, h.head]
      rfl

theorem Ring.ringPop (h : Ring p xs) (hle : n ≤ xs.length) :
    (p.ringPop n).1 = xs.take n ∧ Ring (p.ringPop n).2 (xs.drop n) := by
  have hpos : 0 < p.ring_size := h.length_lt.pos
  obtain ⟨hpop, hrest⟩ := ringPopLoop_spec hpos h.holds hle
  rw [Nat.mod_eq_of_lt h.tail_lt] at hpop
  unfold I2S.ringPop
  rw [hpop]
  refine ⟨rfl, Nat.mod_lt _ hpos, ?_, ?_, holds_mod.mpr hrest⟩
  · show p.head = ((p.tail + n) % p.ring_size + (xs.drop n).length) % p.ring_size
    rw [h.head_eq, Nat.mod_add_mod, List.length_drop, Nat.add_assoc, Nat.add_sub_cancel' hle]
  · rw [List.length_drop]
    exact (Nat.sub_le ..).trans_lt h.length_lt

theorem Ring.contents (h : Ring p xs) : p.contents = xs := by
  have hle : p.ringUsed ≤ xs.length := h.ringUsed.le
  rw [I2S.contents, (h.ringPop hle).1, h.ringUsed, List.take_length]

/-- `ringPop` moves the tail only. -/
theorem ringPop_port {p : I2S} (n : ℕ) : (p.ringPop n).2.rx = p.rx ∧
    (p.ringPop n).2.running = p.running ∧ (p.ringPop n).2.underflows = p.underflows :=
  ⟨rfl, rfl, rfl⟩

theorem ringPop_config {p : I2S} (n : ℕ) : (p.ringPop n).2.bits = p.bits ∧
    (p.ringPop n).2.stereo = p.stereo :=
  ⟨rfl, rfl⟩

theorem ring_start {rx stereo : Bool} {bits bytes : ℕ} {ring : ℕ → UInt8} :
    Ring (start rx bits stereo ring bytes) [] := by
  have hpos : 0 < setBuffer bytes := by
    unfold setBuffer dmaHalfBytes
    dsimp only
    split_ifs <;> omega
  exact ⟨hpos, (Nat.zero_mod _).symm, hpos, Holds.nil⟩

end I2S

end Ch32h4.I2s
