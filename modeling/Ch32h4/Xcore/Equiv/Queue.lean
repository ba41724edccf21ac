import Ch32h4.Xcore.Fifo
import Mathlib.Algebra.Order.Ring.Nat

/-!
# The FIFO loses and repeats nothing

`lossless_of_reachable`: in every interleaving the words popped are a prefix of the words pushed,
and the two kinds of refusal and the count of `ch32h4_fifo_available` are right about the words in
between.

The invariant reads the ring as a window of the words pushed: word number `i` is in slot
`i mod 8`, `head` is the number of words pushed and `tail` the number of words popped, both modulo
8, and never more than seven words are pending.  A core that has loaded an index of the other knows
a bound that can only have got better since.
-/

namespace Ch32h4.Xcore.Fifo

open Machine

theorem wrap_eq (i : ℕ) : wrap i = i % 8 := Nat.and_two_pow_sub_one_eq_mod i 3

/-- The index after the one of word number `n`. -/
theorem wrap_succ (n : ℕ) : wrap (n % 8 + 1) = (n + 1) % 8 := by
  rw [wrap_eq]
  omega

/-- The difference of the indices of two words that are fewer than eight apart. -/
theorem difference_eq {m n : ℕ} (hle : m ≤ n) (hlt : n < m + 8) :
    difference (n % 8) (m % 8) = n - m := by
  rw [difference, wrap_eq]
  omega

/-! ### The invariant -/

/-- What the pushing core has learnt, with `n` words pushed and `m` popped. -/
def PushPc.Fits (r : Ring) (m n : ℕ) : PushPc → Prop
  | loadHead _ | doorbell => True
  | loadTail _ head => head = n % 8
  | storeBuf _ head => head = n % 8 ∧ n < m + 7
  | storeHead value head => head = n % 8 ∧ n < m + 7 ∧ r.buf head = value

/-- What the popping core has learnt. -/
def Consumer.Fits (pushed : List UInt32) (m n : ℕ) : Consumer → Prop
  | .idle | .popping .loadTail | .counting .loadHead | .counting .loadTail => True
  | .popping (.loadHead tail) => tail = m % 8
  | .popping (.loadBuf tail) => tail = m % 8 ∧ m < n
  | .popping (.storeTail tail v) => tail = m % 8 ∧ pushed[m]? = some v
  | .counting (.thenTail head) => ∃ k, m ≤ k ∧ k ≤ n ∧ head = k % 8
  | .counting (.thenHead tail) => tail = m % 8

structure Inv (s : State) : Prop where
  head : s.ring.head = s.pushed.length % 8
  tail : s.ring.tail = s.popped.length % 8
  le : s.popped.length ≤ s.pushed.length
  lt : s.pushed.length < s.popped.length + 8
  popped : s.popped = s.pushed.take s.popped.length
  window : ∀ i, s.popped.length ≤ i → ∀ v, s.pushed[i]? = some v → s.ring.buf (i % 8) = v
  producer : ∀ pc, s.producer = some pc → pc.Fits s.ring s.popped.length s.pushed.length
  consumer : s.consumer.Fits s.pushed s.popped.length s.pushed.length

theorem inv_start (buf : ℕ → UInt32) : Inv (start buf) := by
  constructor <;> simp [start, Consumer.Fits]

/-- More words pushed: the popping core's knowledge stays good. -/
theorem Consumer.Fits.push {c : Consumer} {pushed : List UInt32} {m n : ℕ}
    (h : c.Fits pushed m n) (new : List UInt32) {n' : ℕ} (hn : n ≤ n') :
    c.Fits (pushed ++ new) m n' := by
  cases c with
  | idle => trivial
  | popping pc =>
    cases pc with
    | loadTail => trivial
    | loadHead tail => exact h
    | loadBuf tail => exact ⟨h.1, h.2.trans_le hn⟩
    | storeTail tail v =>
      obtain ⟨hm, -⟩ := List.getElem?_eq_some_iff.mp h.2
      exact ⟨h.1, (List.getElem?_append_left hm).trans h.2⟩
  | counting pc =>
    cases pc with
    | loadHead => trivial
    | loadTail => trivial
    | thenHead tail => exact h
    | thenTail head =>
      obtain ⟨k, hk, hkn, hhead⟩ := h
      exact ⟨k, hk, hkn.trans hn, hhead⟩

/-- A word popped: the pushing core's knowledge stays good. -/
theorem PushPc.Fits.pop {pc : PushPc} {r r' : Ring} {m m' n : ℕ} (h : pc.Fits r m n)
    (hm : m ≤ m') (hbuf : r'.buf = r.buf) : pc.Fits r' m' n := by
  cases pc with
  | loadHead | doorbell => trivial
  | loadTail value head => exact h
  | storeBuf value head => exact ⟨h.1, by have := h.2; omega⟩
  | storeHead value head => exact ⟨h.1, by have := h.2.1; omega, by rw [hbuf]; exact h.2.2⟩

variable {s s' : State}

/-! ### One access -/

/-- An access of the pushing core. -/
theorem Inv.stepPush (h : Inv s) {pc : PushPc} (hpc : s.producer = some pc) :
    Inv (s.stepPush pc) := by
  obtain ⟨hhead, htail, hle, hlt, hpopped, hwindow, hproducer, hconsumer⟩ := h
  have hfits := hproducer pc hpc
  -- an access that publishes nothing
  have keep : ∀ {ring : Ring} {producer : Option PushPc}, ring.head = s.ring.head →
      ring.tail = s.ring.tail → (∀ i, s.popped.length ≤ i → i < s.pushed.length →
        ring.buf (i % 8) = s.ring.buf (i % 8)) →
      (∀ pc, producer = some pc → pc.Fits ring s.popped.length s.pushed.length) →
      Inv { s with ring := ring, pushed := s.pushed ++ [], producer := producer } := by
    intro ring producer h₁ h₂ h₃ h₄
    constructor <;> simp only [List.append_nil]
    · rw [h₁, hhead]
    · rw [h₂, htail]
    · exact hle
    · exact hlt
    · exact hpopped
    · intro i hi v hv
      rw [h₃ i hi (List.getElem?_eq_some_iff.mp hv).1, hwindow i hi v hv]
    · exact h₄
    · exact hconsumer
  cases pc with
  | loadHead value =>
    refine keep rfl rfl (fun _ _ _ => rfl) fun pc hpc => ?_
    obtain rfl := Option.some.inj hpc
    exact hhead
  | loadTail value head =>
    refine keep rfl rfl (fun _ _ _ => rfl) fun pc hpc => ?_
    obtain rfl : head = s.pushed.length % 8 := hfits
    by_cases hfull : wrap (s.pushed.length % 8 + 1) = s.ring.tail
    · simp [hfull] at hpc
    · simp only [hfull, if_false, Option.some.injEq] at hpc
      subst hpc
      rw [wrap_succ, htail] at hfull
      exact ⟨rfl, by omega⟩
  | storeBuf value head =>
    obtain ⟨rfl, hroom⟩ := hfits
    refine keep rfl rfl (fun i hi hi' => Function.update_of_ne (by omega) _ _) fun pc hpc => ?_
    obtain rfl := Option.some.inj hpc
    exact ⟨rfl, hroom, Function.update_self ..⟩
  | storeHead value head =>
    -- the word is in its slot, and now published
    obtain ⟨rfl, hroom, hbuf⟩ := hfits
    constructor <;> simp only [State.stepPush, PushPc.step, List.length_append,
      List.length_singleton]
    · exact wrap_succ _
    · exact htail
    · omega
    · omega
    · rw [List.take_append_of_le_length hle]
      exact hpopped
    · intro i hi v hv
      rcases Nat.lt_or_ge i s.pushed.length with hold | hnew
      · rw [List.getElem?_append_left hold] at hv
        exact hwindow i hi v hv
      · obtain ⟨hlt', -⟩ := List.getElem?_eq_some_iff.mp hv
        rw [List.length_append, List.length_singleton] at hlt'
        obtain rfl : i = s.pushed.length := by omega
        rw [List.getElem?_concat_length, Option.some.injEq] at hv
        exact hbuf.trans hv
    · intro pc hpc
      obtain rfl := Option.some.inj hpc
      trivial
    · exact hconsumer.push _ (Nat.le_succ _)
  | doorbell => exact keep rfl rfl (fun _ _ _ => rfl) fun pc hpc => by cases hpc

/-- An access of the popping core in `ch32h4_fifo_pop_nb`. -/
theorem Inv.stepPop (h : Inv s) {pc : PopPc} (hpc : s.consumer = .popping pc) :
    Inv (s.stepPop pc) := by
  obtain ⟨hhead, htail, hle, hlt, hpopped, hwindow, hproducer, hconsumer⟩ := h
  rw [hpc] at hconsumer
  cases pc with
  | loadTail => exact ⟨hhead, htail, hle, hlt, hpopped, hwindow, hproducer, htail⟩
  | loadHead tail =>
    obtain rfl : tail = s.popped.length % 8 := hconsumer
    rw [State.stepPop, PopPc.step]
    by_cases hempty : s.popped.length % 8 = s.ring.head
    · simp only [hempty, if_true, Option.toList_none, List.append_nil]
      exact ⟨hhead, htail, hle, hlt, hpopped, hwindow, hproducer, trivial⟩
    · simp only [hempty, if_false]
      have hsome : s.popped.length < s.pushed.length := by omega
      exact ⟨hhead, htail, hle, hlt, hpopped, hwindow, hproducer, rfl, hsome⟩
  | loadBuf tail =>
    obtain ⟨rfl, hsome⟩ := hconsumer
    have hword : s.pushed[s.popped.length]? = some s.pushed[s.popped.length] :=
      List.getElem?_eq_getElem hsome
    have hread : s.pushed[s.popped.length]? = some (s.ring.buf (s.popped.length % 8)) := by
      rw [hword, hwindow _ le_rfl _ hword]
    exact ⟨hhead, htail, hle, hlt, hpopped, hwindow, hproducer, rfl, hread⟩
  | storeTail tail v =>
    -- the slot is given up with the word in hand
    obtain ⟨rfl, hword⟩ := hconsumer
    obtain ⟨hsome, hv⟩ := List.getElem?_eq_some_iff.mp hword
    constructor <;> simp only [State.stepPop, PopPc.step, Option.toList_some, List.length_append,
      List.length_singleton]
    · exact hhead
    · exact wrap_succ _
    · exact hsome
    · omega
    · rw [List.take_add_one, hword, Option.toList_some, ← hpopped]
    · exact fun i hi v hv => hwindow i (by omega) v hv
    · exact fun pc hpc => (hproducer pc hpc).pop (Nat.le_succ _) rfl
    · trivial

/-- An access of the popping core in `ch32h4_fifo_available`. -/
theorem Inv.stepAvailable (h : Inv s) {pc : AvailablePc} (hpc : s.consumer = .counting pc) :
    Inv (s.stepAvailable pc) := by
  obtain ⟨hhead, htail, hle, hlt, hpopped, hwindow, hproducer, hconsumer⟩ := h
  cases pc with
  | loadHead =>
    exact ⟨hhead, htail, hle, hlt, hpopped, hwindow, hproducer, _, hle, le_rfl, hhead⟩
  | loadTail => exact ⟨hhead, htail, hle, hlt, hpopped, hwindow, hproducer, htail⟩
  | thenTail | thenHead => exact ⟨hhead, htail, hle, hlt, hpopped, hwindow, hproducer, trivial⟩

/-- **Step lemma**. -/
theorem Inv.step {a : Action} (h : Inv s) (hst : machine.step s a = some s') : Inv s' := by
  obtain ⟨hhead, htail, hle, hlt, hpopped, hwindow, hproducer, hconsumer⟩ := h
  cases a with
  | callPush value =>
    simp only [machine, Fifo.step] at hst
    split_ifs at hst
    cases hst
    refine ⟨hhead, htail, hle, hlt, hpopped, hwindow, fun pc hpc => ?_, hconsumer⟩
    obtain rfl := Option.some.inj hpc
    trivial
  | push =>
    obtain ⟨pc, hpc, rfl⟩ := Option.map_eq_some_iff.mp hst
    exact Inv.stepPush ⟨hhead, htail, hle, hlt, hpopped, hwindow, hproducer, hconsumer⟩ hpc
  | callPop =>
    simp only [machine, Fifo.step] at hst
    split_ifs at hst
    cases hst
    exact ⟨hhead, htail, hle, hlt, hpopped, hwindow, hproducer, trivial⟩
  | callAvailable headFirst =>
    simp only [machine, Fifo.step] at hst
    split_ifs at hst
    all_goals
      cases hst
      exact ⟨hhead, htail, hle, hlt, hpopped, hwindow, hproducer, trivial⟩
  | pop =>
    have h : Inv s := ⟨hhead, htail, hle, hlt, hpopped, hwindow, hproducer, hconsumer⟩
    simp only [machine, Fifo.step] at hst
    rcases hc : s.consumer with _ | pc | pc
    · simp [hc] at hst
    · simp only [hc, Option.some.injEq] at hst
      exact hst ▸ h.stepPop hc
    · simp only [hc, Option.some.injEq] at hst
      exact hst ▸ h.stepAvailable hc

/-- **Run lemma**. -/
theorem inv_of_reachable (h : machine.Reachable anyStep s) : Inv s :=
  invariant (fun _ ⟨_, hs⟩ => hs ▸ inv_start _) (fun _ _ _ hs _ hst => hs.step hst) h

/-! ### The queue -/

/-- What the two cores are promised. -/
structure Lossless (s : State) : Prop where
  popped : s.popped <+: s.pushed
  pending : s.pending ≤ fifoDepth - 1
  /-- A push is refused while the ring is full. -/
  push_refused : ∀ pc, s.producer = some pc → (pc.step s.ring).2.2 = .inr false →
    s.pending = fifoDepth - 1
  /-- A pop is refused while the ring is empty. -/
  pop_refused : ∀ pc, s.consumer = .popping pc → (pc.step s.ring).2 = .inr none → s.pending = 0
  /-- The count that is returned is at most the words pending then. -/
  available : ∀ pc n, s.consumer = .counting pc → pc.step s.ring = .inr n → n ≤ s.pending

theorem Inv.lossless (h : Inv s) : Lossless s := by
  obtain ⟨hhead, htail, hle, hlt, hpopped, hwindow, hproducer, hconsumer⟩ := h
  have hdepth : fifoDepth - 1 = 7 := rfl
  constructor
  · rw [hpopped]
    exact List.take_prefix _ _
  · rw [State.pending, hdepth]
    omega
  · intro pc hpc hrefused
    have hfits := hproducer pc hpc
    cases pc with
    | loadTail value head =>
      obtain rfl : head = s.pushed.length % 8 := hfits
      rw [PushPc.step] at hrefused
      by_cases hfull : wrap (s.pushed.length % 8 + 1) = s.ring.tail
      · rw [wrap_succ, htail] at hfull
        rw [State.pending, hdepth]
        omega
      · simp [hfull] at hrefused
    | _ => simp [PushPc.step] at hrefused
  · intro pc hpc hrefused
    rw [hpc] at hconsumer
    cases pc with
    | loadHead tail =>
      obtain rfl : tail = s.popped.length % 8 := hconsumer
      rw [PopPc.step] at hrefused
      by_cases hempty : s.popped.length % 8 = s.ring.head
      · rw [hhead] at hempty
        rw [State.pending]
        omega
      · simp [hempty] at hrefused
    | _ => simp [PopPc.step] at hrefused
  · intro pc n hpc hn
    rw [hpc] at hconsumer
    rw [State.pending]
    cases pc with
    | loadHead | loadTail => cases hn
    | thenTail head =>
      obtain ⟨k, hk, hkn, rfl⟩ := hconsumer
      obtain rfl : difference (k % 8) s.ring.tail = n := by simpa [AvailablePc.step] using hn
      rw [htail, difference_eq hk (by omega)]
      omega
    | thenHead tail =>
      obtain rfl : tail = s.popped.length % 8 := hconsumer
      obtain rfl : difference s.ring.head (s.popped.length % 8) = n := by
        simpa [AvailablePc.step] using hn
      rw [hhead, difference_eq hle hlt]

/-- **The FIFO loses and repeats nothing**, in every interleaving. -/
theorem lossless_of_reachable (h : machine.Reachable anyStep s) : Lossless s :=
  (inv_of_reachable h).lossless

/-- A word is pushed and popped, and a second one pushed while the first is popped. -/
theorem lossless_of_reachable_onePopped : ∃ s, machine.run anyStep (start fun _ => 0)
      [.callPush 5, .push, .push, .push, .push, .push, .callPop, .callPush 6, .pop, .push, .pop,
        .push, .pop, .push, .push, .pop] = some s ∧
    s.popped = [5] ∧ s.pushed = [5, 6] ∧ Lossless s := by
  have hrun : ((machine.run anyStep (start fun _ => 0)
      [.callPush 5, .push, .push, .push, .push, .push, .callPop, .callPush 6, .pop, .push, .pop,
        .push, .pop, .push, .push, .pop]).map fun s => (s.popped, s.pushed)) =
      some ([5], [5, 6]) := by decide
  obtain ⟨s, hs, hwords⟩ := Option.map_eq_some_iff.mp hrun
  simp only [Prod.mk.injEq] at hwords
  exact ⟨s, hs, hwords.1, hwords.2,
    lossless_of_reachable (reachable_of_run (.init ⟨_, rfl⟩) hs)⟩

end Ch32h4.Xcore.Fifo
