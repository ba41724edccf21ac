import Ch32h4.I2s.Dma
import Ch32h4.I2s.Equiv.Ring

/-!
# Every half is accounted for

`halves_accounted`: each half that the DMA completes is moved to or from the ring as a whole
and in order, or counted, as long as the interrupt has cleared the flag of a half when the next one
completes, has moved it when the engine gets back to it, and counts none while `getUnderflows` is
between its load and its store.

The `k`th half that completes is the first one of the buffer or the second as `k` is even or odd, so
the flags tell which half is meant exactly while there is only one to tell; `Phase` says so, for
each place the interrupt can be at.  What the halves of the memory hold then is `Receiving` and
`Sending`.

`halves_accounted_one` and `not_halves_accounted` are runs on either side.
-/

namespace Ch32h4.I2s

open Machine I2S

variable {s s' : System}

/-! ### The property -/

/-- A half whose flag is cleared and that is not moved yet. -/
def Handler.held : Handler → ℕ
  | .cleared _ => 1
  | _ => 0

/-- The half that the interrupt is about, once it has read the flags. -/
def Handler.half : Handler → Option Bool
  | .idle => none
  | .reading ht => some !ht
  | .cleared ht => some !ht

/-- The halves that a flag or the interrupt stands for. -/
def System.waiting (s : System) : ℕ :=
  s.ht.toNat + s.tc.toNat + s.handler.held

/-- Received halves are delivered whole, in order, or left out. -/
structure Received (s : System) : Prop where
  inOrder : ∀ (j : ℕ) (bs : List UInt8), s.log[j]? = some (some bs) → s.completed[j]? = some bs
  reader : s.sketch ++ s.port.contents = (s.log.filterMap id).flatten

/-- What is sent are two halves of the cleared buffer, and then what each interrupt has put there:
a half of the ring, whole and in order, or silence. -/
structure Sent (s : System) : Prop where
  inOrder : s.completed <+: silence :: silence :: s.log.map (·.getD silence)
  whole : ∀ bs, some bs ∈ s.log → bs.length = dmaHalfBytes
  writer : s.sketch = (s.log.filterMap id).flatten ++ s.port.contents

/-- Each half that was completed is accounted for. -/
structure Accounted (s : System) : Prop where
  received : s.port.rx = true → Received s
  sent : s.port.rx = false → Sent s
  /-- None is skipped and none is taken twice. -/
  each : s.completed.length = s.log.length + s.waiting
  /-- The halves that nothing was moved for are counted, in 32 bits. -/
  counted : (s.reported + s.port.underflows) % 4294967296 =
    s.log.countP Option.isNone % 4294967296

/-- The interrupt keeps up with the engine, and does not count what `getUnderflows` clears. -/
def Prompt (s : System) : Action → Prop
  | .transfer _ _ =>
    (s.pos + 2 = dmaHalfBytes ∨ s.pos + 2 = dmaBufBytes → s.ht = false ∧ s.tc = false) ∧
      ∀ second ∈ s.handler.half,
        ¬(halfOffset second ≤ s.pos ∧ s.pos < halfOffset second + dmaHalfBytes)
  | .handle => ∀ second ∈ s.handler.half, s.moved second = none → s.loaded = none
  | _ => True

instance : (a : Action) → Decidable (Prompt s a)
  | .transfer _ _ => inferInstanceAs (Decidable (
    (s.pos + 2 = dmaHalfBytes ∨ s.pos + 2 = dmaBufBytes → s.ht = false ∧ s.tc = false) ∧
      ∀ second ∈ s.handler.half,
        ¬(halfOffset second ≤ s.pos ∧ s.pos < halfOffset second + dmaHalfBytes)))
  | .handle => inferInstanceAs (Decidable (
    ∀ second ∈ s.handler.half, s.moved second = none → s.loaded = none))
  | .enter | .clear | .write _ | .read _ | .loadUnderflows | .clearUnderflows =>
    inferInstanceAs (Decidable True)

/-! ### Where the engine and the interrupt are -/

/-- The flags tell this half. -/
def Flagged (s : System) (j : ℕ) : Prop :=
  s.ht = decide (j % 2 = 0) ∧ s.tc = decide (j % 2 = 1)

/-- No flag is set. -/
def Unflagged (s : System) : Prop :=
  s.ht = false ∧ s.tc = false

/-- How far the interrupt is behind the engine. -/
inductive Phase (s : System) : Prop
  | served : s.handler = .idle → Unflagged s → s.completed.length = s.log.length → Phase s
  | pending : s.handler = .idle → Flagged s s.log.length →
      s.completed.length = s.log.length + 1 → Phase s
  | reading : s.handler = .reading (decide (s.log.length % 2 = 0)) → Flagged s s.log.length →
      s.completed.length = s.log.length + 1 → Phase s
  | cleared : s.handler = .cleared (decide (s.log.length % 2 = 0)) → Unflagged s →
      s.completed.length = s.log.length + 1 → Phase s
  /-- The next half is complete, and the engine stands where the interrupt is to move. -/
  | late : s.handler = .cleared (decide (s.log.length % 2 = 0)) →
      Flagged s (s.log.length + 1) → s.completed.length = s.log.length + 2 → s.current = [] →
      Phase s

/-- Where the half of an index is. -/
abbrev offset (j : ℕ) : ℕ :=
  j % 2 * dmaHalfBytes

/-- The engine is in the half that it is to complete next, and the interrupt is behind. -/
structure Timed (s : System) : Prop where
  pos : s.pos = offset s.completed.length + s.current.length
  lt : s.current.length < dmaHalfBytes
  even : s.current.length % 2 = 0
  phase : Phase s

/-- What the memory of a receiving port holds. -/
structure Receiving (s : System) : Prop where
  halves : ∀ j, s.log.length ≤ j → j < s.completed.length →
    s.completed[j]? = some (load s.mem (offset j) dmaHalfBytes)
  current : load s.mem (offset s.completed.length) s.current.length = s.current
  inOrder : ∀ (j : ℕ) (bs : List UInt8), s.log[j]? = some (some bs) → s.completed[j]? = some bs
  ring : ∃ xs, Ring s.port xs ∧ s.sketch ++ xs = (s.log.filterMap id).flatten

/-- What a sending port sends. -/
def System.plan (s : System) : List (List UInt8) :=
  silence :: silence :: s.log.map (·.getD silence)

/-- What the memory of a sending port holds. -/
structure Sending (s : System) : Prop where
  halves : ∀ j, s.completed.length ≤ j → j < s.log.length + 2 →
    s.plan[j]? = some (load s.mem (offset j) dmaHalfBytes)
  current : load s.mem (offset s.completed.length) s.current.length = s.current
  inOrder : s.completed = s.plan.take s.completed.length
  whole : ∀ bs, some bs ∈ s.log → bs.length = dmaHalfBytes
  ring : ∃ xs, Ring s.port xs ∧ s.sketch = (s.log.filterMap id).flatten ++ xs

/-- The count, while `getUnderflows` may be between its load and its store. -/
structure Counting (s : System) : Prop where
  loaded : ∀ n, s.loaded = some n → n = s.port.underflows
  total : (s.reported + s.port.underflows) % 4294967296 =
    s.log.countP Option.isNone % 4294967296

/-- The invariant. -/
structure Sound (s : System) : Prop where
  timed : Timed s
  receiving : s.port.rx = true → Receiving s
  sending : s.port.rx = false → Sending s
  running : s.port.running = true
  counting : Counting s

theorem flagged_toNat {j : ℕ} (h : Flagged s j) : s.ht.toNat + s.tc.toNat = 1 := by
  rw [h.1, h.2]
  rcases Nat.mod_two_eq_zero_or_one j with hj | hj <;> simp [hj]

theorem unflagged_toNat (h : Unflagged s) : s.ht.toNat + s.tc.toNat = 0 := by
  rw [h.1, h.2]
  rfl

theorem Phase.each (h : Phase s) : s.completed.length = s.log.length + s.waiting := by
  unfold System.waiting
  rcases h with ⟨hidle, hflags, heq⟩ | ⟨hidle, hflags, heq⟩ | ⟨hreading, hflags, heq⟩ |
    ⟨hcleared, hflags, heq⟩ | ⟨hcleared, hflags, heq, -⟩
  · rw [hidle, heq, unflagged_toNat hflags]
    rfl
  · rw [hidle, heq, flagged_toNat hflags]
    rfl
  · rw [hreading, heq, flagged_toNat hflags]
    rfl
  · rw [hcleared, heq, unflagged_toNat hflags]
    rfl
  · rw [hcleared, heq, flagged_toNat hflags]
    rfl

/-! ### The engine -/

/-- What the engine moves. -/
def System.halfWord (s : System) (low high : UInt8) : List UInt8 :=
  if s.port.rx then [low, high] else load s.mem s.pos 2

theorem halfWord_length (s : System) (low high : UInt8) : (s.halfWord low high).length = 2 := by
  unfold System.halfWord
  split_ifs
  · rfl
  · exact load_length

/-- The memory after a transfer. -/
def System.written (s : System) (low high : UInt8) : Memory :=
  if s.port.rx then store s.mem s.pos [low, high] else s.mem

theorem half_eq : dmaHalfBytes = 256 :=
  rfl

theorem half_pos : 0 < dmaHalfBytes := by
  decide

theorem buf_eq : dmaBufBytes = 512 :=
  rfl

theorem offset_cases (j : ℕ) : offset j = 0 ∧ j % 2 = 0 ∨ offset j = 256 ∧ j % 2 = 1 := by
  unfold offset dmaHalfBytes
  omega

/-- Where the engine is next tells if it completes a half. -/
theorem Timed.completes_iff (h : Timed s) :
    (s.pos + 2 = dmaHalfBytes ↔ s.completed.length % 2 = 0 ∧ s.current.length + 2 = dmaHalfBytes) ∧
      (s.pos + 2 = dmaBufBytes ↔
        s.completed.length % 2 = 1 ∧ s.current.length + 2 = dmaHalfBytes) := by
  have hpos := h.pos
  have hlt := h.lt
  rw [half_eq, buf_eq] at *
  rcases offset_cases s.completed.length with ⟨hoff, hpar⟩ | ⟨hoff, hpar⟩ <;> omega

/-- Within a half, the engine goes on. -/
theorem transfer_within (h : Timed s) (low high : UInt8)
    (hlt : s.current.length + 2 ≠ dmaHalfBytes) :
    s.transfer low high = { s with
      mem := s.written low high
      pos := s.pos + 2
      current := s.current ++ s.halfWord low high } := by
  obtain ⟨hfirst, hsecond⟩ := h.completes_iff
  unfold System.transfer
  dsimp only
  rw [if_neg fun heq => hlt (hfirst.mp heq).2, if_neg fun heq => hlt (hsecond.mp heq).2]
  unfold System.written System.halfWord
  split_ifs <;> rfl

/-- At its end, the half is complete and its flag is raised. -/
theorem transfer_end (h : Timed s) (low high : UInt8)
    (hend : s.current.length + 2 = dmaHalfBytes) :
    s.transfer low high = { s with
      mem := s.written low high
      pos := offset (s.completed.length + 1)
      ht := s.ht || decide (s.completed.length % 2 = 0)
      tc := s.tc || decide (s.completed.length % 2 = 1)
      completed := s.completed ++ [s.current ++ s.halfWord low high]
      current := [] } := by
  obtain ⟨hfirst, hsecond⟩ := h.completes_iff
  have hwritten : s.written low high =
      if s.port.rx then store s.mem s.pos (s.halfWord low high) else s.mem := by
    unfold System.written System.halfWord
    split_ifs <;> rfl
  unfold System.transfer
  dsimp only
  rw [hwritten]
  unfold System.halfWord
  rcases offset_cases s.completed.length with ⟨-, hpar⟩ | ⟨-, hpar⟩
  · have hpos := hfirst.mpr ⟨hpar, hend⟩
    have hnext : offset (s.completed.length + 1) = s.pos + 2 := by
      unfold offset
      rw [hpos, Nat.add_mod, hpar, Nat.one_mul]
    rw [if_pos hpos, hnext, hpar, decide_eq_true rfl, decide_eq_false Nat.zero_ne_one,
      Bool.or_true, Bool.or_false]
  · have hpos := hsecond.mpr ⟨hpar, hend⟩
    have hnext : offset (s.completed.length + 1) = 0 := by
      unfold offset
      rw [Nat.add_mod, hpar, Nat.zero_mul]
    have hne : s.pos + 2 ≠ dmaHalfBytes := by
      rw [hpos]
      decide
    rw [if_neg hne, if_pos hpos, hnext, hpar, decide_eq_true rfl, decide_eq_false Nat.one_ne_zero,
      Bool.or_true, Bool.or_false]

/-- The half that the interrupt is about, as an index. -/
theorem halfOffset_eq (j : ℕ) : halfOffset (!decide (j % 2 = 0)) = offset j := by
  rcases offset_cases j with ⟨hoff, hpar⟩ | ⟨hoff, hpar⟩
  · rw [hoff, hpar]
    rfl
  · rw [hoff, hpar]
    rfl

theorem offset_add_two (j : ℕ) : offset (j + 2) = offset j := by
  unfold offset
  rw [Nat.add_mod_right]

/-- Nothing is moved while the interrupt is as late as it may be. -/
theorem Timed.not_late (h : Timed s) {low high : UInt8}
    (hprompt : Prompt s (.transfer low high)) : s.completed.length < s.log.length + 2 := by
  rcases h.phase with ⟨-, -, heq⟩ | ⟨-, -, heq⟩ | ⟨-, -, heq⟩ | ⟨-, -, heq⟩ |
    ⟨hcleared, -, heq, hcurrent⟩
  · omega
  · omega
  · omega
  · omega
  · have hpos := h.pos
    have hlt := h.lt
    rw [heq, offset_add_two] at hpos
    refine absurd ?_ (hprompt.2 (!decide (s.log.length % 2 = 0)) (by rw [hcleared]; rfl))
    rw [halfOffset_eq]
    omega

theorem Timed.transfer (h : Timed s) {low high : UInt8}
    (hprompt : Prompt s (.transfer low high)) : Timed (s.transfer low high) := by
  have hnot := h.not_late hprompt
  have hpos := h.pos
  have hlt := h.lt
  have heven := h.even
  have hlength := halfWord_length s low high
  by_cases hend : s.current.length + 2 = dmaHalfBytes
  · -- No flag is set, so the new one is the only one.
    rw [transfer_end h low high hend]
    obtain ⟨hfirst, hsecond⟩ := h.completes_iff
    have hflags : Unflagged s := by
      refine hprompt.1 ?_
      rcases Nat.mod_two_eq_zero_or_one s.completed.length with hpar | hpar
      · exact .inl (hfirst.mpr ⟨hpar, hend⟩)
      · exact .inr (hsecond.mpr ⟨hpar, hend⟩)
    have hone {j : ℕ} (hflagged : Flagged s j) : False := by
      have hone := flagged_toNat hflagged
      rw [unflagged_toNat hflags] at hone
      cases hone
    have hraised : (s.ht || decide (s.completed.length % 2 = 0)) =
        decide (s.completed.length % 2 = 0) ∧
        (s.tc || decide (s.completed.length % 2 = 1)) = decide (s.completed.length % 2 = 1) := by
      rw [hflags.1, hflags.2, Bool.false_or, Bool.false_or]
      exact ⟨rfl, rfl⟩
    have hcount : (s.completed ++ [s.current ++ s.halfWord low high]).length =
        s.completed.length + 1 := List.length_append
    refine ⟨?_, half_pos, rfl, ?_⟩
    · dsimp only
      rw [hcount]
      exact (Nat.add_zero _).symm
    · rcases h.phase with ⟨hidle, -, heq⟩ | ⟨-, hold, -⟩ | ⟨-, hold, -⟩ | ⟨hcleared, -, heq⟩ |
        ⟨-, -, heq, -⟩
      · refine .pending hidle ?_ (hcount.trans (by rw [heq]))
        exact heq ▸ hraised
      · exact (hone hold).elim
      · exact (hone hold).elim
      · refine .late hcleared ?_ (hcount.trans (by rw [heq])) rfl
        exact heq ▸ hraised
      · omega
  · rw [transfer_within h low high hend]
    rw [half_eq] at *
    have hgrown : (s.current ++ s.halfWord low high).length = s.current.length + 2 := by
      rw [List.length_append, hlength]
    refine ⟨?_, ?_, ?_, ?_⟩
    · show s.pos + 2 = offset s.completed.length + (s.current ++ s.halfWord low high).length
      omega
    · show (s.current ++ s.halfWord low high).length < 256
      omega
    · show (s.current ++ s.halfWord low high).length % 2 = 0
      omega
    · rcases h.phase with ⟨hidle, hflags, heq⟩ | ⟨hidle, hflags, heq⟩ | ⟨hreading, hflags, heq⟩ |
        ⟨hcleared, hflags, heq⟩ | ⟨-, -, heq, -⟩
      · exact .served hidle hflags heq
      · exact .pending hidle hflags heq
      · exact .reading hreading hflags heq
      · exact .cleared hcleared hflags heq
      · omega

theorem Receiving.transfer (h : Receiving s) (htimed : Timed s) {low high : UInt8}
    (hprompt : Prompt s (.transfer low high)) (hrx : s.port.rx = true) :
    Receiving (s.transfer low high) := by
  have hnot := htimed.not_late hprompt
  have hpos := htimed.pos
  have hlt := htimed.lt
  have hmoved : s.halfWord low high = [low, high] := if_pos hrx
  have hmem : s.written low high = store s.mem s.pos [low, high] := if_pos hrx
  -- The halves that wait are not where the engine is.
  have hwaiting {j : ℕ} (hge : s.log.length ≤ j) (hjlt : j < s.completed.length) :
      load (s.written low high) (offset j) dmaHalfBytes = load s.mem (offset j) dmaHalfBytes := by
    rw [hmem]
    refine load_store_of_disjoint ?_
    show offset j + dmaHalfBytes ≤ s.pos ∨ s.pos + 2 ≤ offset j
    have heven := htimed.even
    rw [half_eq] at *
    have hk : s.completed.length = j + 1 := by omega
    rw [hk] at hpos
    rcases offset_cases j with ⟨hj, hpar⟩ | ⟨hj, hpar⟩ <;>
      rcases offset_cases (j + 1) with ⟨hj', hpar'⟩ | ⟨hj', hpar'⟩ <;> omega
  have hgrown : load (s.written low high) (offset s.completed.length) (s.current.length + 2) =
      s.current ++ s.halfWord low high := by
    rw [hmem, hmoved, hpos]
    exact load_store_append h.current
  by_cases hend : s.current.length + 2 = dmaHalfBytes
  · rw [transfer_end htimed low high hend]
    rw [hend] at hgrown
    refine ⟨fun j hge hjlt => ?_, rfl, fun j bs hlog => ?_, h.ring⟩
    · show (s.completed ++ [s.current ++ s.halfWord low high])[j]? =
        some (load (s.written low high) (offset j) dmaHalfBytes)
      have hcount : j < s.completed.length + 1 := hjlt.trans_eq List.length_append
      by_cases hlast : j = s.completed.length
      · rw [hlast, List.getElem?_concat_length, hgrown]
      · have hjlt : j < s.completed.length := by omega
        rw [List.getElem?_append_left hjlt, hwaiting hge hjlt]
        exact h.halves j hge hjlt
    · have hold := h.inOrder j bs hlog
      exact (List.getElem?_append_left (List.getElem?_eq_some_iff.mp hold).1).trans hold
  · rw [transfer_within htimed low high hend]
    refine ⟨fun j hge hjlt => ?_, ?_, h.inOrder, h.ring⟩
    · show s.completed[j]? = some (load (s.written low high) (offset j) dmaHalfBytes)
      rw [hwaiting hge hjlt]
      exact h.halves j hge hjlt
    · show load (s.written low high) (offset s.completed.length)
        (s.current ++ s.halfWord low high).length = _
      rw [List.length_append, halfWord_length, hgrown]

theorem Sending.transfer (h : Sending s) (htimed : Timed s) {low high : UInt8}
    (hprompt : Prompt s (.transfer low high)) (hrx : s.port.rx = false) :
    Sending (s.transfer low high) := by
  have hnot := htimed.not_late hprompt
  have hpos := htimed.pos
  have hmoved : s.halfWord low high = load s.mem s.pos 2 := if_neg (by rw [hrx]; nofun)
  have hmem : s.written low high = s.mem := if_neg (by rw [hrx]; nofun)
  have hgrown : load s.mem (offset s.completed.length) (s.current.length + 2) =
      s.current ++ s.halfWord low high := by
    rw [load_add, h.current, hmoved, hpos]
  by_cases hend : s.current.length + 2 = dmaHalfBytes
  · rw [transfer_end htimed low high hend, hmem]
    rw [hend] at hgrown
    have hcount : (s.completed ++ [s.current ++ s.halfWord low high]).length =
        s.completed.length + 1 := List.length_append
    refine ⟨fun j hge hjlt => ?_, rfl, ?_, h.whole, h.ring⟩
    · exact h.halves j (Nat.le_of_succ_le (hcount.symm.trans_le hge)) hjlt
    · -- What was sent is what the plan has there.
      have hplan := h.halves s.completed.length le_rfl hnot
      show s.completed ++ [s.current ++ s.halfWord low high] =
        s.plan.take (s.completed ++ [s.current ++ s.halfWord low high]).length
      rw [hcount, List.take_add_one, ← h.inOrder, hplan, hgrown]
      rfl
  · rw [transfer_within htimed low high hend, hmem]
    refine ⟨h.halves, ?_, h.inOrder, h.whole, h.ring⟩
    show load s.mem (offset s.completed.length) (s.current ++ s.halfWord low high).length = _
    rw [List.length_append, halfWord_length, hgrown]

/-! ### The interrupt -/

theorem Timed.cleared (h : Timed s) {ht : Bool} (hcleared : s.handler = .cleared ht) :
    ht = decide (s.log.length % 2 = 0) ∧
      (Unflagged s ∧ s.completed.length = s.log.length + 1 ∨
        Flagged s (s.log.length + 1) ∧ s.completed.length = s.log.length + 2 ∧ s.current = []) := by
  rcases h.phase with ⟨hother, -, -⟩ | ⟨hother, -, -⟩ | ⟨hother, -, -⟩ | ⟨hsame, hflags, heq⟩ |
    ⟨hsame, hflags, heq, hcurrent⟩
  · cases hcleared.symm.trans hother
  · cases hcleared.symm.trans hother
  · cases hcleared.symm.trans hother
  · exact ⟨Handler.cleared.inj (hcleared.symm.trans hsame), .inl ⟨hflags, heq⟩⟩
  · exact ⟨Handler.cleared.inj (hcleared.symm.trans hsame), .inr ⟨hflags, heq, hcurrent⟩⟩

theorem Timed.handle (h : Timed s) {ht : Bool} (hcleared : s.handler = .cleared ht) :
    Timed (s.handle ht) := by
  have hcount : (s.log ++ [s.moved (!ht)]).length = s.log.length + 1 := List.length_append
  refine ⟨h.pos, h.lt, h.even, ?_⟩
  rcases (h.cleared hcleared).2 with ⟨hflags, heq⟩ | ⟨hflags, heq, -⟩
  · exact .served rfl hflags (heq.trans hcount.symm)
  · refine .pending rfl ?_ (heq.trans (congrArg Nat.succ hcount.symm))
    show Flagged _ (s.log ++ [s.moved (!ht)]).length
    rw [hcount]
    exact hflags

theorem filterMap_concat {log : List (Option (List UInt8))} {r : Option (List UInt8)} :
    ((log ++ [r]).filterMap id).flatten = (log.filterMap id).flatten ++ r.getD [] := by
  cases r <;> simp

theorem ring_underflow {p : I2S} {xs : List UInt8} (h : Ring p xs) : Ring p.underflow xs :=
  ⟨h.tail_lt, h.head_eq, h.length_lt, h.holds⟩

/-- **A received half** goes to the ring whole, or is counted. -/
theorem Receiving.handle (h : Receiving s) (htimed : Timed s) {ht : Bool}
    (hcleared : s.handler = .cleared ht) (hrx : s.port.rx = true) : Receiving (s.handle ht) := by
  obtain ⟨hht, hahead⟩ := htimed.cleared hcleared
  have hlt : s.log.length < s.completed.length := by omega
  have hcount : (s.log ++ [s.moved (!ht)]).length = s.log.length + 1 := List.length_append
  have hoffset : halfOffset (!ht) = offset s.log.length := by rw [hht, halfOffset_eq]
  obtain ⟨xs, hring, hreader⟩ := h.ring
  have hmem : (s.port.dmaHalfComplete s.mem (!ht)).2 = s.mem := by
    unfold dmaHalfComplete
    rw [if_pos hrx]
    split_ifs <;> rfl
  have hdone : ∃ ys, Ring (s.port.dmaHalfComplete s.mem (!ht)).1 ys ∧
      ys = xs ++ (s.moved (!ht)).getD [] := by
    unfold dmaHalfComplete System.moved
    rw [if_pos hrx, if_pos hrx]
    split_ifs with hroom
    · refine ⟨_, hring.ringPush ?_, rfl⟩
      rw [hring.ringFree] at hroom
      rw [load_length]
      have := half_pos
      omega
    · exact ⟨xs, ring_underflow hring, (List.append_nil xs).symm⟩
  obtain ⟨ys, hring', rfl⟩ := hdone
  refine ⟨fun j hge hjlt => ?_, ?_, fun j bs hlog => ?_, _, hring', ?_⟩
  · show s.completed[j]? =
      some (load (s.port.dmaHalfComplete s.mem (!ht)).2 (offset j) dmaHalfBytes)
    rw [hmem]
    exact h.halves j (Nat.le_of_succ_le (hcount.symm.trans_le hge)) hjlt
  · show load (s.port.dmaHalfComplete s.mem (!ht)).2 _ _ = _
    rw [hmem]
    exact h.current
  · by_cases hlast : j = s.log.length
    · have hmoved : s.moved (!ht) = some bs := by
        rw [hlast] at hlog
        exact Option.some.inj (List.getElem?_concat_length.symm.trans hlog)
      have hhalf : bs = load s.mem (offset s.log.length) dmaHalfBytes := by
        unfold System.moved at hmoved
        rw [if_pos hrx, hoffset] at hmoved
        split_ifs at hmoved
        exact (Option.some.inj hmoved).symm
      rw [hlast, hhalf]
      exact h.halves _ le_rfl hlt
    · have hjlt : j < s.log.length := by
        have hjlt := (List.getElem?_eq_some_iff.mp hlog).1
        have := hjlt.trans_eq hcount
        omega
      exact h.inOrder j bs ((List.getElem?_append_left hjlt).symm.trans hlog)
  · show s.sketch ++ (xs ++ _) = ((s.log ++ [s.moved (!ht)]).filterMap id).flatten
    rw [filterMap_concat, ← hreader, List.append_assoc]

theorem silence_length : silence.length = dmaHalfBytes :=
  List.length_replicate

/-- What an interrupt puts into a half to be sent. -/
theorem sending_spec (second : Bool) {xs : List UInt8} (hring : Ring s.port xs)
    (hrx : s.port.rx = false) :
    ((s.moved second).getD silence).length = dmaHalfBytes ∧
      (∀ bs, s.moved second = some bs → bs.length = dmaHalfBytes) ∧
      (s.port.dmaHalfComplete s.mem second).2 =
        store s.mem (halfOffset second) ((s.moved second).getD silence) ∧
      ∃ ys, Ring (s.port.dmaHalfComplete s.mem second).1 ys ∧
        (s.moved second).getD [] ++ ys = xs := by
  have hnot : ¬s.port.rx = true := Bool.eq_false_iff.mp hrx
  unfold System.moved dmaHalfComplete
  rw [if_neg hnot, if_neg hnot]
  split_ifs with hused
  · rw [hring.ringUsed] at hused
    obtain ⟨hpop, hrest⟩ := hring.ringPop hused
    have hlength : (s.port.ringPop dmaHalfBytes).1.length = dmaHalfBytes := by
      rw [hpop, List.length_take, Nat.min_eq_left hused]
    refine ⟨hlength, fun bs hbs => ?_, rfl, _, hrest, ?_⟩
    · rw [← Option.some.inj hbs]
      exact hlength
    · show (s.port.ringPop dmaHalfBytes).1 ++ _ = xs
      rw [hpop]
      exact List.take_append_drop ..
  · exact ⟨silence_length, nofun, rfl, xs, ring_underflow hring, rfl⟩

/-- **A half to be sent** is refilled from the ring whole, or with silence and counted. -/
theorem Sending.handle (h : Sending s) (htimed : Timed s) {ht : Bool}
    (hcleared : s.handler = .cleared ht) (hrx : s.port.rx = false) : Sending (s.handle ht) := by
  obtain ⟨hht, hahead⟩ := htimed.cleared hcleared
  have hcount : (s.log ++ [s.moved (!ht)]).length = s.log.length + 1 := List.length_append
  have hoffset : halfOffset (!ht) = offset s.log.length := by rw [hht, halfOffset_eq]
  obtain ⟨xs, hring, hwriter⟩ := h.ring
  obtain ⟨hlength, hwhole, hmem, ys, hring', hys⟩ := sending_spec (!ht) hring hrx
  rw [hoffset] at hmem
  generalize hfill : (s.moved (!ht)).getD silence = fill at hlength hmem
  have hplan : (s.handle ht).plan = s.plan ++ [fill] := by
    show silence :: silence :: (s.log ++ [s.moved (!ht)]).map (·.getD silence) = _
    rw [List.map_append, ← hfill]
    rfl
  have hplanned : s.plan.length = s.log.length + 2 := by
    show (s.log.map _).length + 2 = _
    rw [List.length_map]
  -- The half next to it stays as it is.
  have hother (n : ℕ) (hn : n ≤ dmaHalfBytes) :
      load (store s.mem (offset s.log.length) fill) (offset (s.log.length + 1)) n =
        load s.mem (offset (s.log.length + 1)) n := by
    refine load_store_of_disjoint ?_
    rw [hlength]
    rw [half_eq] at *
    rcases offset_cases s.log.length with ⟨hj, hpar⟩ | ⟨hj, hpar⟩ <;>
      rcases offset_cases (s.log.length + 1) with ⟨hj', hpar'⟩ | ⟨hj', hpar'⟩ <;> omega
  refine ⟨fun j hge hjlt => ?_, ?_, ?_, fun bs hbs => ?_, ys, hring', ?_⟩
  · show (s.handle ht).plan[j]? =
      some (load (s.port.dmaHalfComplete s.mem (!ht)).2 (offset j) dmaHalfBytes)
    have hjle : j < s.log.length + 1 + 2 := hjlt.trans_eq (congrArg (· + 2) hcount)
    have hge' : s.completed.length ≤ j := hge
    rw [hmem, hplan]
    by_cases hlast : j = s.log.length + 2
    · rw [hlast, offset_add_two, ← hplanned, List.getElem?_concat_length, ← hlength, load_store]
    · have hnext : j = s.log.length + 1 := by omega
      rw [List.getElem?_append_left (by omega), hnext, hother _ le_rfl, ← hnext]
      exact h.halves j hge' (by omega)
  · show load (s.port.dmaHalfComplete s.mem (!ht)).2 (offset s.completed.length) s.current.length =
      s.current
    rw [hmem]
    rcases hahead with ⟨-, heq⟩ | ⟨-, -, hnil⟩
    · rw [heq, hother _ htimed.lt.le, ← heq]
      exact h.current
    · rw [hnil]
      rfl
  · show s.completed = (s.handle ht).plan.take s.completed.length
    rw [hplan, List.take_append_of_le_length (by omega)]
    exact h.inOrder
  · rcases List.mem_append.mp hbs with hold | hnew
    · exact h.whole bs hold
    · exact hwhole bs (List.mem_singleton.mp hnew).symm
  · show s.sketch = ((s.log ++ [s.moved (!ht)]).filterMap id).flatten ++ ys
    rw [filterMap_concat, List.append_assoc, hys]
    exact hwriter

theorem dmaHalfComplete_port (second : Bool) :
    (s.port.dmaHalfComplete s.mem second).1.rx = s.port.rx ∧
      (s.port.dmaHalfComplete s.mem second).1.running = s.port.running ∧
      (s.port.dmaHalfComplete s.mem second).1.underflows =
        if s.moved second = none then (s.port.underflows + 1) % 4294967296
        else s.port.underflows := by
  unfold dmaHalfComplete System.moved
  by_cases hrx : s.port.rx = true
  · rw [if_pos hrx, if_pos hrx]
    by_cases hroom : s.port.ringFree ≥ dmaHalfBytes
    · rw [if_pos hroom, if_pos hroom, if_neg (Option.some_ne_none _)]
      exact ⟨rfl, rfl, rfl⟩
    · rw [if_neg hroom, if_neg hroom, if_pos rfl]
      exact ⟨rfl, rfl, rfl⟩
  · rw [if_neg hrx, if_neg hrx]
    by_cases hused : s.port.ringUsed ≥ dmaHalfBytes
    · rw [if_pos hused, if_pos hused, if_neg (Option.some_ne_none _)]
      exact ringPop_port dmaHalfBytes
    · rw [if_neg hused, if_neg hused, if_pos rfl]
      exact ⟨rfl, rfl, rfl⟩

/-- **What is not moved is counted.** -/
theorem Counting.handle (h : Counting s) {ht : Bool} (hcleared : s.handler = .cleared ht)
    (hprompt : Prompt s .handle) : Counting (s.handle ht) := by
  obtain ⟨-, -, hunderflows⟩ := dmaHalfComplete_port (s := s) (!ht)
  have hhalf : (!ht) ∈ s.handler.half := by
    rw [hcleared]
    rfl
  have htotal := h.total
  cases hmoved : s.moved (!ht) with
  | none =>
    rw [if_pos hmoved] at hunderflows
    refine ⟨fun n hn => ?_, ?_⟩
    · have hnone : s.loaded = none := hprompt (!ht) hhalf hmoved
      cases hnone.symm.trans hn
    · show (s.reported + (s.port.dmaHalfComplete s.mem (!ht)).1.underflows) % 4294967296 =
        (s.log ++ [s.moved (!ht)]).countP Option.isNone % 4294967296
      rw [hunderflows, hmoved, List.countP_append]
      show _ = (s.log.countP Option.isNone + 1) % 4294967296
      omega
  | some bs =>
    rw [if_neg (by rw [hmoved]; nofun)] at hunderflows
    refine ⟨fun n hn => (h.loaded n hn).trans hunderflows.symm, ?_⟩
    show (s.reported + (s.port.dmaHalfComplete s.mem (!ht)).1.underflows) % 4294967296 =
      (s.log ++ [s.moved (!ht)]).countP Option.isNone % 4294967296
    rw [hunderflows, hmoved, List.countP_append]
    exact htotal

theorem Sound.handle (h : Sound s) {ht : Bool} (hcleared : s.handler = .cleared ht)
    (hprompt : Prompt s .handle) : Sound (s.handle ht) := by
  obtain ⟨hrx, hrunning, -⟩ := dmaHalfComplete_port (s := s) (!ht)
  refine ⟨h.timed.handle hcleared, fun hreceiver => ?_, fun hsender => ?_,
    hrunning.trans h.running, h.counting.handle hcleared hprompt⟩
  · have hrx' := hrx.symm.trans hreceiver
    exact (h.receiving hrx').handle h.timed hcleared hrx'
  · have hrx' := hrx.symm.trans hsender
    exact (h.sending hrx').handle h.timed hcleared hrx'

/-! ### The sketch -/

/-- The engine and the interrupt do not see the sketch. -/
theorem Timed.of_sketch (h : Timed s) (port : I2S) (loaded : Option ℕ) (sketch : List UInt8)
    (reported : ℕ) : Timed { s with port, loaded, sketch, reported } := by
  refine ⟨h.pos, h.lt, h.even, ?_⟩
  rcases h.phase with ⟨hidle, hflags, heq⟩ | ⟨hidle, hflags, heq⟩ | ⟨hreading, hflags, heq⟩ |
    ⟨hcleared, hflags, heq⟩ | ⟨hcleared, hflags, heq, hnil⟩
  · exact .served hidle hflags heq
  · exact .pending hidle hflags heq
  · exact .reading hreading hflags heq
  · exact .cleared hcleared hflags heq
  · exact .late hcleared hflags heq hnil

/-- What the sketch does is seen in the ring only. -/
theorem Sound.of_sketch (h : Sound s) {p : I2S} {bs : List UInt8}
    (hport : p.rx = s.port.rx ∧ p.running = s.port.running ∧ p.underflows = s.port.underflows)
    (hreceiver : s.port.rx = true → ∀ xs, Ring s.port xs →
      ∃ ys, Ring p ys ∧ bs ++ ys = xs)
    (hsender : s.port.rx = false → ∀ xs, Ring s.port xs → Ring p (xs ++ bs)) :
    Sound { s with port := p, sketch := s.sketch ++ bs } := by
  obtain ⟨hrx, hrunning, hunderflows⟩ := hport
  refine ⟨h.timed.of_sketch p s.loaded _ s.reported, fun hr => ?_, fun hr => ?_,
    hrunning.trans h.running, ?_⟩
  · have hold := h.receiving (hrx.symm.trans hr)
    obtain ⟨xs, hring, hreader⟩ := hold.ring
    obtain ⟨ys, hring', rfl⟩ := hreceiver (hrx.symm.trans hr) xs hring
    exact ⟨hold.halves, hold.current, hold.inOrder, ys, hring',
      (List.append_assoc ..).trans hreader⟩
  · have hold := h.sending (hrx.symm.trans hr)
    obtain ⟨xs, hring, hwriter⟩ := hold.ring
    refine ⟨hold.halves, hold.current, hold.inOrder, hold.whole, _,
      hsender (hrx.symm.trans hr) xs hring, ?_⟩
    show s.sketch ++ bs = _ ++ (xs ++ bs)
    rw [hwriter, List.append_assoc]
  · refine ⟨fun n hn => (h.counting.loaded n hn).trans hunderflows.symm, ?_⟩
    show (s.reported + p.underflows) % 4294967296 = _
    rw [hunderflows]
    exact h.counting.total

theorem Sound.write (h : Sound s) (buf : List UInt8) : Sound (s.write buf) := by
  unfold System.write writePass
  cases hrx : s.port.rx with
  | true =>
    rw [Bool.or_true, if_pos rfl]
    exact h.of_sketch ⟨rfl, rfl, rfl⟩ (fun _ xs hring => ⟨xs, hring, rfl⟩)
      fun hr => nomatch hrx.symm.trans hr
  | false =>
    rw [h.running]
    dsimp only
    refine h.of_sketch ⟨rfl, rfl, rfl⟩ (fun hr => nomatch hrx.symm.trans hr)
      fun _ xs hring => hring.ringPush ?_
    rw [hring.ringFree, List.length_take]
    have := hring.length_lt
    omega

theorem Sound.read (h : Sound s) (n : ℕ) : Sound (s.read n) := by
  have hnothing : Sound { s with port := s.port, sketch := s.sketch ++ [] } :=
    h.of_sketch ⟨rfl, rfl, rfl⟩ (fun _ xs hring => ⟨xs, hring, rfl⟩)
      fun _ xs hring => (List.append_nil xs).symm ▸ hring
  unfold System.read I2S.take
  cases hrx : s.port.rx with
  | true =>
    rw [h.running]
    by_cases hused : s.port.ringUsed < n
    · rw [if_pos (by simpa using hused)]
      exact hnothing
    · rw [if_neg (by simpa using hused)]
      refine h.of_sketch ⟨rfl, rfl, rfl⟩ (fun _ xs hring => ?_)
        fun hr => nomatch hrx.symm.trans hr
      rw [hring.ringUsed] at hused
      obtain ⟨hpop, hrest⟩ := hring.ringPop (not_lt.mp hused)
      refine ⟨_, hrest, ?_⟩
      show (s.port.ringPop n).1 ++ _ = xs
      rw [hpop]
      exact List.take_append_drop ..
  | false =>
    rw [if_pos (by simp)]
    exact hnothing

theorem Sound.loadUnderflows (h : Sound s) :
    Sound { s with loaded := some s.port.underflows } := by
  refine ⟨h.timed.of_sketch s.port _ s.sketch s.reported, fun hr => ?_, fun hr => ?_, h.running,
    ⟨fun n hn => (Option.some.inj hn).symm, h.counting.total⟩⟩
  · have hold := h.receiving hr
    exact ⟨hold.halves, hold.current, hold.inOrder, hold.ring⟩
  · have hold := h.sending hr
    exact ⟨hold.halves, hold.current, hold.inOrder, hold.whole, hold.ring⟩

/-- **`getUnderflows`** returns what it clears. -/
theorem Sound.clearUnderflows (h : Sound s) {n : ℕ} (hloaded : s.loaded = some n) :
    Sound { s with
      port := { s.port with underflows := 0 }, loaded := none, reported := s.reported + n } := by
  refine ⟨h.timed.of_sketch _ none s.sketch _, fun hr => ?_, fun hr => ?_, h.running,
    ⟨nofun, ?_⟩⟩
  · have hold := h.receiving hr
    obtain ⟨xs, hring, hreader⟩ := hold.ring
    exact ⟨hold.halves, hold.current, hold.inOrder, xs,
      ⟨hring.tail_lt, hring.head_eq, hring.length_lt, hring.holds⟩, hreader⟩
  · have hold := h.sending hr
    obtain ⟨xs, hring, hwriter⟩ := hold.ring
    exact ⟨hold.halves, hold.current, hold.inOrder, hold.whole, xs,
      ⟨hring.tail_lt, hring.head_eq, hring.length_lt, hring.holds⟩, hwriter⟩
  · show (s.reported + n + 0) % 4294967296 = _
    rw [h.counting.loaded n hloaded, Nat.add_zero]
    exact h.counting.total

/-! ### Runs -/

theorem Sound.transfer (h : Sound s) {low high : UInt8}
    (hprompt : Prompt s (.transfer low high)) : Sound (s.transfer low high) := by
  have hsame : (s.transfer low high).port = s.port ∧ (s.transfer low high).loaded = s.loaded ∧
      (s.transfer low high).log = s.log ∧ (s.transfer low high).reported = s.reported := by
    unfold System.transfer
    dsimp only
    split_ifs <;> exact ⟨rfl, rfl, rfl, rfl⟩
  obtain ⟨hport, hloaded, hlog, hreported⟩ := hsame
  refine ⟨h.timed.transfer hprompt, fun hr => ?_, fun hr => ?_, hport ▸ h.running, ?_⟩
  · rw [hport] at hr
    exact (h.receiving hr).transfer h.timed hprompt hr
  · rw [hport] at hr
    exact (h.sending hr).transfer h.timed hprompt hr
  · refine ⟨fun n hn => ?_, ?_⟩
    · rw [hport]
      exact h.counting.loaded n (hloaded.symm.trans hn)
    · rw [hport, hreported, hlog]
      exact h.counting.total

/-- The interrupt's own steps change its place and the flags. -/
theorem Sound.of_handler (h : Sound s) {handler : Handler} (ht tc : Bool)
    (hphase : Phase { s with handler, ht, tc }) : Sound { s with handler, ht, tc } := by
  refine ⟨⟨h.timed.pos, h.timed.lt, h.timed.even, hphase⟩, fun hr => ?_, fun hr => ?_, h.running,
    ⟨h.counting.loaded, h.counting.total⟩⟩
  · have hold := h.receiving hr
    exact ⟨hold.halves, hold.current, hold.inOrder, hold.ring⟩
  · have hold := h.sending hr
    exact ⟨hold.halves, hold.current, hold.inOrder, hold.whole, hold.ring⟩

/-- **The interrupt is taken** for the one half that waits. -/
theorem Sound.enter (h : Sound s) (hidle : s.handler = .idle) (hflag : (s.ht || s.tc) = true) :
    Sound { s with handler := .reading s.ht } := by
  refine h.of_handler s.ht s.tc ?_
  rcases h.timed.phase with ⟨-, hflags, -⟩ | ⟨-, hflags, heq⟩ | ⟨hother, -, -⟩ | ⟨hother, -, -⟩ |
    ⟨hother, -, -, -⟩
  · rw [hflags.1, hflags.2] at hflag
    cases hflag
  · exact .reading (congrArg Handler.reading hflags.1) hflags heq
  · cases hidle.symm.trans hother
  · cases hidle.symm.trans hother
  · cases hidle.symm.trans hother

theorem Sound.clear (h : Sound s) {ht : Bool} (hreading : s.handler = .reading ht) :
    Sound { s with ht := false, tc := false, handler := .cleared ht } := by
  refine h.of_handler false false ?_
  rcases h.timed.phase with ⟨hother, -, -⟩ | ⟨hother, -, -⟩ | ⟨hsame, -, heq⟩ | ⟨hother, -, -⟩ |
    ⟨hother, -, -, -⟩
  · cases hreading.symm.trans hother
  · cases hreading.symm.trans hother
  · have hht := Handler.reading.inj (hreading.symm.trans hsame)
    exact .cleared (congrArg Handler.cleared hht) ⟨rfl, rfl⟩ heq
  · cases hreading.symm.trans hother
  · cases hreading.symm.trans hother

/-- **A step** of an interrupt that keeps up loses no half. -/
theorem Sound.step (h : Sound s) {a : Action} (hprompt : Prompt s a)
    (hstep : s.step a = some s') : Sound s' := by
  unfold System.step at hstep
  cases a with
  | transfer low high =>
    rw [← Option.some.inj hstep]
    exact h.transfer hprompt
  | enter =>
    dsimp only at hstep
    split_ifs at hstep with hflag
    rw [← Option.some.inj hstep]
    exact h.enter hflag.1 hflag.2
  | clear =>
    dsimp only at hstep
    cases hhandler : s.handler with
    | reading ht =>
      rw [hhandler] at hstep
      rw [← Option.some.inj hstep]
      exact h.clear hhandler
    | idle =>
      rw [hhandler] at hstep
      cases hstep
    | cleared ht =>
      rw [hhandler] at hstep
      cases hstep
  | handle =>
    dsimp only at hstep
    cases hhandler : s.handler with
    | cleared ht =>
      rw [hhandler] at hstep
      rw [← Option.some.inj hstep]
      exact h.handle hhandler hprompt
    | idle =>
      rw [hhandler] at hstep
      cases hstep
    | reading ht =>
      rw [hhandler] at hstep
      cases hstep
  | write buf =>
    rw [← Option.some.inj hstep]
    exact h.write buf
  | read n =>
    rw [← Option.some.inj hstep]
    exact h.read n
  | loadUnderflows =>
    dsimp only at hstep
    split_ifs at hstep
    rw [← Option.some.inj hstep]
    exact h.loadUnderflows
  | clearUnderflows =>
    obtain ⟨n, hloaded, rfl⟩ := Option.map_eq_some_iff.mp hstep
    exact h.clearUnderflows hloaded

theorem Sound.fresh (h : s.Fresh) : Sound s := by
  obtain ⟨⟨rx, bits, stereo, ring, bytes, hport⟩, hmem, hpos, hht, htc, hhandler, hloaded,
    hcompleted, hcurrent, hlog, hsketch, hreported⟩ := h
  have hring : Ring s.port [] := hport ▸ ring_start
  have hcompleted' : s.completed.length = 0 := congrArg List.length hcompleted
  have hlog' : s.log.length = 0 := congrArg List.length hlog
  have hcurrent' : s.current.length = 0 := congrArg List.length hcurrent
  have hsilent (off : ℕ) : load s.mem off dmaHalfBytes = silence := by
    rw [hmem, load, List.map_const', List.length_range]
    rfl
  refine ⟨⟨?_, ?_, ?_, ?_⟩, fun _ => ⟨fun j hge hlt => ?_, ?_, ?_, [], hring, ?_⟩,
    fun _ => ⟨fun j hge hlt => ?_, ?_, ?_, ?_, [], hring, ?_⟩, ?_, ?_, ?_⟩
  · rw [hpos, hcompleted', hcurrent']
    rfl
  · rw [hcurrent']
    exact half_pos
  · rw [hcurrent']
  · exact .served hhandler ⟨hht, htc⟩ (hcompleted'.trans hlog'.symm)
  · omega
  · rw [hcurrent]
    rfl
  · intro j bs hentry
    rw [hlog] at hentry
    cases hentry
  · rw [hsketch, hlog]
    rfl
  · rw [hsilent, System.plan, hlog]
    obtain rfl | rfl : j = 0 ∨ j = 1 := by omega
    · rfl
    · rfl
  · rw [hcurrent]
    rfl
  · rw [hcompleted]
    rfl
  · intro bs hbs
    rw [hlog] at hbs
    cases hbs
  · rw [hsketch, hlog]
    rfl
  · rw [hport]
    rfl
  · intro n hn
    cases hloaded.symm.trans hn
  · rw [hreported, hport, hlog]
    rfl

theorem Sound.accounted (h : Sound s) : Accounted s := by
  refine ⟨fun hrx => ?_, fun hrx => ?_, h.timed.phase.each, h.counting.total⟩
  · have hreceiving := h.receiving hrx
    obtain ⟨xs, hring, hreader⟩ := hreceiving.ring
    exact ⟨hreceiving.inOrder, by rw [hring.contents, hreader]⟩
  · have hsending := h.sending hrx
    obtain ⟨xs, hring, hwriter⟩ := hsending.ring
    refine ⟨?_, hsending.whole, by rw [hring.contents, hwriter]⟩
    rw [hsending.inOrder]
    exact List.take_prefix ..

/-- **Every half is accounted for** after every run of an interrupt that keeps up. -/
theorem halves_accounted (h : machine.Reachable Prompt s) : Accounted s := by
  have hs : Sound s := by
    refine invariant (fun _ => Sound.fresh) ?_ h
    intro s a s' hs hprompt hstep
    exact hs.step hprompt hstep
  exact hs.accounted

/-! ### Runs on either side -/

/-- A port that has just begun to receive. -/
def listening : System where
  port := start true 16 true (fun _ => 0) 512
  mem := fun _ => 0
  pos := 0
  ht := false
  tc := false
  handler := .idle
  loaded := none
  completed := []
  current := []
  log := []
  sketch := []
  reported := 0

theorem listening_fresh : listening.Fresh :=
  ⟨⟨true, 16, true, _, 512, rfl⟩, rfl, rfl, rfl, rfl, rfl, rfl, rfl, rfl, rfl, rfl, rfl⟩

/-- A half is received, delivered and read from. -/
theorem halves_accounted_one : ∃ s, machine.run Prompt listening
      (List.replicate 128 (.transfer 1 2) ++ [.enter, .clear, .handle, .read 4]) = some s ∧
    s.sketch = [1, 2, 1, 2] ∧ Accounted s := by
  have hrun : (machine.run Prompt listening
      (List.replicate 128 (.transfer 1 2) ++ [.enter, .clear, .handle, .read 4])).map (·.sketch) =
        some [1, 2, 1, 2] := by decide +kernel
  obtain ⟨s, hs, hsketch⟩ := Option.map_eq_some_iff.mp hrun
  exact ⟨s, hs, hsketch, halves_accounted (reachable_of_run (.init listening_fresh) hs)⟩

/-- Both halves are complete when the interrupt is taken, and it takes one. -/
theorem not_halves_accounted :
    ¬ ∀ s, machine.Reachable anyStep s → Accounted s := by
  intro hall
  have hrun : (machine.run anyStep listening
      (List.replicate 256 (.transfer 1 2) ++ [.enter, .clear, .handle])).map
        (fun s => (s.completed.length, s.log.length + s.waiting)) = some (2, 1) := by
    decide +kernel
  obtain ⟨s, hs, hstate⟩ := Option.map_eq_some_iff.mp hrun
  obtain ⟨hcompleted, hrest⟩ := Prod.mk.inj hstate
  have heach := (hall s (reachable_of_run (.init listening_fresh) hs)).each
  rw [hcompleted, hrest] at heach
  cases heach

end Ch32h4.I2s
