import Ch32h4.Sd.Transfer
import Mathlib.Algebra.Ring.Parity
import Mathlib.Data.List.Range
import Mathlib.Tactic.Common

/-!
# Block transfers cover the request

`sd_transfer` refuses a range past the end of the card, if the sum of its check does not wrap
(`refuses_iff`).  Otherwise it goes through the range once and in order (`Progress.transferLoop`).

The data only is where it belongs if the engine loads its address, that is if it is armed with the
half it does not have.  The halves are taken in turn, and a half that is taken and given up spoils
that: what is armed next is then the half of the command before.  `Ready` says that this has
happened an even number of times, and `Alternates` is what follows.
-/

namespace Ch32h4.Sd

variable {s s₀ s' : Driver} {b half write : Bool} {log : List Event} {fate : Fate}
variable {block buf n k done left : ℕ} {fates : List Fate}

/-! ### The halves in turn -/

/-- The half the engine was armed with last. -/
def lastArmed : List Event → Option Bool
  | [] => none
  | .gaveUp :: log => lastArmed log
  | .armed half _ :: _ => some half

/-- The halves given up since then. -/
def givenUp : List Event → ℕ
  | [] => 0
  | .gaveUp :: log => givenUp log + 1
  | .armed _ _ :: _ => 0

/-- Every command that moves data has another half than the one before. -/
def Alternates : List Event → Prop
  | [] => True
  | .gaveUp :: log => Alternates log
  | .armed half _ :: log => lastArmed log ≠ some half ∧ Alternates log

/-- The half that is next is not the one of the command before. -/
def Ready (log : List Event) : Prop :=
  lastArmed log = none ∨ Even (givenUp log)

instance (log : List Event) : Decidable (Ready log) := inferInstanceAs (Decidable (_ ∨ _))

/-- What `sd_dma_half` and `DMA_BEG1` have to do with what has happened. -/
structure InTurn (s : Driver) : Prop where
  half : ∀ b, lastArmed s.log = some b → (s.dmaHalf = !b ↔ Even (givenUp s.log))
  beg1 : ∀ b, s.dmaBeg1 = some b → lastArmed s.log = some b

theorem ready_armed (half : Bool) (blocks : List ℕ) : Ready (.armed half blocks :: log) :=
  Or.inr Even.zero

/-- A half that is ready is not the last one. -/
theorem InTurn.lastArmed_ne (h : InTurn s) (hready : Ready s.log) :
    lastArmed s.log ≠ some s.dmaHalf := by
  intro hlast
  rcases hready with hnone | heven
  · rw [hnone] at hlast
    cases hlast
  · have hnot := (h.half _ hlast).mpr heven
    cases hhalf : s.dmaHalf <;> simp [hhalf] at hnot

/-- And one that is not ready is. -/
theorem InTurn.lastArmed_eq (h : InTurn s) (hready : ¬ Ready s.log) :
    lastArmed s.log = some s.dmaHalf := by
  obtain ⟨hsome, hodd⟩ := not_or.mp hready
  obtain ⟨b, hb⟩ := Option.ne_none_iff_exists'.mp hsome
  have hnot := mt (h.half b hb).mp hodd
  rw [hb, Option.some_inj]
  cases b <;> cases hhalf : s.dmaHalf <;> simp_all

/-- So the engine loads its address. -/
theorem InTurn.fresh (h : InTurn s) (hready : Ready s.log) : s.dmaBeg1 ≠ some s.dmaHalf :=
  fun hbeg => h.lastArmed_ne hready (h.beg1 _ hbeg)

theorem InTurn.gaveUp (h : InTurn s) (hhalf : s'.dmaHalf = !s.dmaHalf)
    (hbeg : s'.dmaBeg1 = s.dmaBeg1) (hlog : s'.log = .gaveUp :: s.log) : InTurn s' where
  half b hb := by
    rw [hlog] at hb ⊢
    rw [hhalf, givenUp, Nat.even_add_one, ← h.half b hb]
    cases b <;> cases s.dmaHalf <;> decide
  beg1 b hb := by
    rw [hlog]
    exact h.beg1 b (hbeg.symm.trans hb)

theorem InTurn.armed {blocks : List ℕ} (hhalf : s'.dmaHalf = !half)
    (hbeg : s'.dmaBeg1 = some half) (hlog : s'.log = .armed half blocks :: log) : InTurn s' where
  half b hb := by
    rw [hlog, lastArmed, Option.some_inj] at hb
    rw [hlog, givenUp, hhalf, hb]
    exact iff_of_true rfl Even.zero
  beg1 b hb := by
    rw [hlog, lastArmed]
    exact hbeg.symm.trans hb

/-! ### One attempt -/

/-- Whether the engine is armed. -/
def Fate.arms (write : Bool) : Fate → Bool
  | .busy => false
  | .refused => !write
  | .broken _ => true
  | .done => true

/-- A half has been taken, and `k` blocks have been moved through it. -/
structure Moved (s : Driver) (first chunk k : ℕ) (write : Bool) (s' : Driver) : Prop where
  dmaHalf : s'.dmaHalf = !s.dmaHalf
  dmaBeg1 : s'.dmaBeg1 = some s.dmaHalf
  log : s'.log = .armed s.dmaHalf (List.range' first k) :: s.log
  sdhc : s'.sdhc = s.sdhc
  mem : s'.mem = s.mem
  card_read : write = false → s'.card = s.card
  card_write : write = true → s.dmaBeg1 ≠ some s.dmaHalf →
    s'.card = overlay (512 * first) (512 * k) (fun i => s.mem (chunk + i)) s.card
  dmaBuf : write = false → s.dmaBeg1 ≠ some s.dmaHalf →
    ∀ i < 512 * k, s'.dmaBuf s.dmaHalf i = s.card (512 * first + i)

theorem dmaBuf_fill (s : Driver) (half : Bool) (f : ℕ → UInt8) {i : ℕ} (h : i < k) :
    (s.fill half k f).dmaBuf half i = f i := by
  have hin := overlay_add (a := 0) (f := f) (g := s.dmaBuf half) h
  rw [Nat.zero_add] at hin
  simpa only [Driver.fill, Function.update_self] using hin

theorem Moved.move (s : Driver) (first chunk : ℕ) (write : Bool) (hk : k ≤ n) :
    Moved s first chunk k write ((s.take chunk n write).move s.dmaHalf first k write) := by
  cases write with
  | false =>
    by_cases hfresh : s.dmaBeg1 = some s.dmaHalf
    · have hmove : (s.take chunk n false).move s.dmaHalf first k false =
          (s.take chunk n false).arm s.dmaHalf (List.range' first k) := by
        simp [Driver.move, Driver.take, hfresh]
      rw [hmove]
      exact ⟨rfl, rfl, rfl, rfl, rfl, fun _ => rfl, fun h => (nomatch h),
        fun _ h => absurd hfresh h⟩
    · have hmove : (s.take chunk n false).move s.dmaHalf first k false =
          ((s.take chunk n false).arm s.dmaHalf (List.range' first k)).fill s.dmaHalf (512 * k)
            (fun i => s.card (512 * first + i)) := by
        simp [Driver.move, Driver.take, hfresh]
      rw [hmove]
      exact ⟨rfl, rfl, rfl, rfl, rfl, fun _ => rfl, fun h => (nomatch h),
        fun _ _ i hi => dmaBuf_fill _ _ _ hi⟩
  | true =>
    have hcard (hfresh : s.dmaBeg1 ≠ some s.dmaHalf) :
        ((s.take chunk n true).move s.dmaHalf first k true).card =
          overlay (512 * first) (512 * k) ((s.take chunk n true).dmaBuf s.dmaHalf) s.card := by
      simp [Driver.move, Driver.take, Driver.fill, hfresh]
    refine ⟨rfl, rfl, rfl, rfl, rfl, fun h => (nomatch h), fun _ hfresh => ?_, fun h => (nomatch h)⟩
    rw [hcard hfresh]
    refine overlay_congr fun i hi => ?_
    exact dmaBuf_fill _ _ _ (by omega)

theorem Moved.arm (s : Driver) (first chunk n : ℕ) :
    Moved s first chunk 0 false ((s.take chunk n false).arm s.dmaHalf []) :=
  ⟨rfl, rfl, rfl, rfl, rfl, fun _ => rfl, fun h => (nomatch h),
    fun _ _ _ hi => absurd hi (Nat.not_lt_zero _)⟩

/-- **What an attempt comes to.**  The half is given up, or some blocks are moved, and all of them
without an error. -/
theorem transferDma_cases {chunk first : ℕ} (s : Driver)
    (hfirst : s.cardBlock (s.address block) = first) (write : Bool) (n : ℕ) (fate : Fate) :
    let out := transferDma (s.take chunk n write) block s.dmaHalf n write fate
    (fate.arms write = false ∧ out = (false, (s.take chunk n write).giveUp)) ∨
      fate.arms write = true ∧ ∃ k ≤ n, Moved s first chunk k write out.2 ∧
        (out.1 = true → k = n) := by
  have htaken :
      (s.take chunk n write).cardBlock ((s.take chunk n write).address block) = first := by
    rw [← hfirst]
    cases write <;> rfl
  intro out
  cases fate with
  | busy => exact Or.inl ⟨rfl, rfl⟩
  | refused =>
    cases write with
    | true => exact Or.inl ⟨rfl, rfl⟩
    | false =>
      exact Or.inr ⟨rfl, 0, Nat.zero_le n, Moved.arm s first chunk n, fun h => (nomatch h)⟩
  | broken k =>
    refine Or.inr ⟨rfl, min k n, Nat.min_le_right k n, ?_, fun h => (nomatch h)⟩
    have hmoved := Moved.move s first chunk write (Nat.min_le_right k n)
    simpa only [out, transferDma, htaken] using hmoved
  | done =>
    refine Or.inr ⟨rfl, n, Nat.le_refl n, ?_, fun _ => rfl⟩
    have hmoved := Moved.move s first chunk write (Nat.le_refl n)
    simpa only [out, transferDma, htaken] using hmoved

/-! ### The loop -/

/-- The first `done` blocks of the request have been moved, once and in order. -/
structure Progress (s₀ : Driver) (block buf : ℕ) (write : Bool) (done : ℕ) (s : Driver) : Prop where
  sdhc : s.sdhc = s₀.sdhc
  turn : InTurn s
  alternates : Alternates s.log
  log : ∃ log, s.log = log ++ s₀.log ∧
    log.reverse.flatMap Event.blocks = List.range' block done
  card : s.card = if write then
      overlay (512 * block) (512 * done) (fun i => s₀.mem (buf + i)) s₀.card
    else s₀.card
  mem : s.mem = if write then s₀.mem
    else overlay buf (512 * done) (fun i => s₀.card (512 * block + i)) s₀.mem

/-- Where the loop gives up, the rest of the request is as it may be, and all else as it was. -/
structure Kept (s₀ : Driver) (block buf n : ℕ) (write : Bool) (s : Driver) : Prop where
  turn : InTurn s
  alternates : Alternates s.log
  log : ∃ log, s.log = log ++ s₀.log ∧
    log.reverse.flatMap Event.blocks <+: List.range' block n
  card_read : write = false → s.card = s₀.card
  card_write : ∀ x, x < 512 * block ∨ 512 * (block + n) ≤ x → s.card x = s₀.card x
  mem_write : write = true → s.mem = s₀.mem
  mem_read : ∀ x, x < buf ∨ buf + 512 * n ≤ x → s.mem x = s₀.mem x

theorem range'_prefix (block : ℕ) (h : k ≤ n) : List.range' block k <+: List.range' block n := by
  obtain ⟨m, rfl⟩ := Nat.exists_eq_add_of_le h
  exact ⟨List.range' (block + k) m, by rw [← List.range'_append_1]⟩

/-- Some blocks of the card, and of the sketch, from the start of the request on. -/
theorem Kept.of_le (hturn : InTurn s) (halternates : Alternates s.log)
    (hlog : ∃ log, s.log = log ++ s₀.log ∧
      log.reverse.flatMap Event.blocks = List.range' block k)
    (hcard : s.card = if write then
        overlay (512 * block) (512 * k) (fun i => s₀.mem (buf + i)) s₀.card
      else s₀.card)
    (hmem : s.mem = if write then s₀.mem
      else overlay buf (512 * done) (fun i => s₀.card (512 * block + i)) s₀.mem)
    (hk : k ≤ n) (hdone : done ≤ n) : Kept s₀ block buf n write s := by
  obtain ⟨log, hlog, hblocks⟩ := hlog
  refine ⟨hturn, halternates, ⟨log, hlog, hblocks ▸ range'_prefix block hk⟩, fun hread => ?_,
    fun x hx => ?_, fun hwrite => ?_, fun x hx => ?_⟩
  · rw [hcard, hread]
    rfl
  · rw [hcard]
    split_ifs
    · exact overlay_outside (m := 512 * n) (by omega) (by omega)
    · rfl
  · rw [hmem, hwrite]
    rfl
  · rw [hmem]
    split_ifs
    · rfl
    · exact overlay_outside (by omega) hx

/-- Giving up a half moves nothing. -/
theorem Progress.gaveUp (h : Progress s₀ block buf write done s) (chunk : ℕ) (hdone : done ≤ n) :
    Kept s₀ block buf n write (s.take chunk k write).giveUp := by
  obtain ⟨log, hlog, hblocks⟩ := h.log
  have hevents : (s.take chunk k write).giveUp.log = .gaveUp :: s.log := by cases write <;> rfl
  refine Kept.of_le ?_ ?_ ⟨.gaveUp :: log, ?_, ?_⟩ (Eq.trans ?_ h.card) (Eq.trans ?_ h.mem) hdone
    hdone
  · exact h.turn.gaveUp (by cases write <;> rfl) (by cases write <;> rfl) hevents
  · rw [hevents]
    exact h.alternates
  · rw [hevents, hlog, List.cons_append]
  · simpa [Event.blocks] using hblocks
  · cases write <;> rfl
  · cases write <;> rfl

/-- What is moved goes behind what has been moved. -/
theorem Progress.moved (h : Progress s₀ block buf write done s) (hready : Ready s.log)
    (hmoved : Moved s (block + done) (buf + done * 512) k write s') :
    s'.sdhc = s₀.sdhc ∧ InTurn s' ∧ Alternates s'.log ∧ Ready s'.log ∧
      (∃ log, s'.log = log ++ s₀.log ∧
        log.reverse.flatMap Event.blocks = List.range' block (done + k)) ∧
      s'.card = (if write then
          overlay (512 * block) (512 * (done + k)) (fun i => s₀.mem (buf + i)) s₀.card
        else s₀.card) := by
  obtain ⟨log, hlog, hblocks⟩ := h.log
  refine ⟨hmoved.sdhc.trans h.sdhc, InTurn.armed hmoved.dmaHalf hmoved.dmaBeg1 hmoved.log, ?_, ?_,
    ⟨_ :: log, by rw [hmoved.log, hlog, List.cons_append], ?_⟩, ?_⟩
  · rw [hmoved.log]
    exact ⟨h.turn.lastArmed_ne hready, h.alternates⟩
  · rw [hmoved.log]
    exact ready_armed _ _
  · rw [List.reverse_cons, List.flatMap_append, hblocks, ← List.range'_append_1]
    simp [Event.blocks]
  · cases write with
    | false => simpa using (hmoved.card_read rfl).trans h.card
    | true =>
      have hmem : s.mem = s₀.mem := by simpa using h.mem
      have hcard := hmoved.card_write rfl (h.turn.fresh hready)
      have hsplit : 512 * (block + done) = 512 * block + 512 * done := Nat.mul_add 512 block done
      have hbehind : (fun i => s₀.mem (buf + done * 512 + i)) =
          fun i => s₀.mem (buf + (512 * done + i)) := by
        funext i
        congr 1
        omega
      rw [hcard, h.card, hmem, hsplit, hbehind, if_pos rfl, if_pos rfl, Nat.mul_add]
      exact overlay_append

/-- **One round of the loop.** -/
theorem Progress.attempt (h : Progress s₀ block buf write done s)
    (haddress : s.cardBlock (s.address (block + done)) = block + done) (fate : Fate)
    (hready : fate.arms write = true → Ready s.log) (hle : done + k ≤ n) :
    let chunk := buf + done * 512
    let out := transferDma (s.take chunk k write) (block + done) s.dmaHalf k write fate
    (out.1 = false → Kept s₀ block buf n write out.2) ∧
      (out.1 = true → Ready out.2.log ∧ Progress s₀ block buf write (done + k)
        (if write then out.2 else
          { out.2 with mem := overlay chunk (512 * k) (out.2.dmaBuf s.dmaHalf) out.2.mem })) := by
  intro chunk out
  rcases transferDma_cases s haddress write k fate with ⟨-, hout⟩ | ⟨harms, k', hk', hmoved, hall⟩
  · rw [show out = _ from hout]
    exact ⟨fun _ => h.gaveUp chunk (by omega), fun hok => (nomatch hok)⟩
  · obtain ⟨hsdhc, hturn, halternates, hnext, hlog, hcard⟩ := h.moved (hready harms) hmoved
    refine ⟨fun _ => ?_, fun hok => ?_⟩
    · exact Kept.of_le hturn halternates hlog hcard (hmoved.mem.trans h.mem) (by omega) (by omega)
    · have hk : k' = k := hall hok
      subst hk
      cases write with
      | true => exact ⟨hnext, hsdhc, hturn, halternates, hlog, hcard, hmoved.mem.trans h.mem⟩
      | false =>
        refine ⟨hnext, hsdhc, ⟨hturn.half, hturn.beg1⟩, halternates, hlog, hcard, ?_⟩
        have hread := hmoved.dmaBuf rfl (h.turn.fresh (hready harms))
        have hmem : out.2.mem =
            overlay buf (512 * done) (fun i => s₀.card (512 * block + i)) s₀.mem := by
          simpa using hmoved.mem.trans h.mem
        have hbehind (i : ℕ) (hi : i < 512 * k') : out.2.dmaBuf s.dmaHalf i =
            s₀.card (512 * block + (512 * done + i)) := by
          have hsame : s.card = s₀.card := by simpa using h.card
          rw [hread i hi, hsame]
          congr 1
          omega
        have hchunk : chunk = buf + 512 * done := by omega
        simp only [Bool.false_eq_true, if_false, hmem, hchunk, Nat.mul_add, overlay_congr hbehind]
        exact overlay_append

/-- Every block of the request has an address. -/
def Addressable (s : Driver) (block n : ℕ) : Prop := s.sdhc = true ∨ block + n ≤ 2 ^ 23

/-- A card that is addressed by bytes takes the block back out of the address. -/
theorem cardBlock_address (h : s.sdhc = true ∨ block < 2 ^ 23) :
    s.cardBlock (s.address block) = block := by
  rw [Driver.cardBlock, Driver.address]
  split_ifs with hsdhc
  · rfl
  · have hlt := h.resolve_left hsdhc
    rw [Nat.mod_eq_of_lt (by omega), Nat.mul_div_cancel _ (by decide)]

/-- **The loop goes through the request.** -/
theorem Progress.transferLoop (h : Progress s₀ block buf write done s)
    (hleft : done + left = n) (hsum : block + n < 2 ^ 32)
    (haddressable : Addressable s₀ block n)
    (hready : 0 < left → (fates.headD .done).arms write = true → Ready s.log) :
    let out := Sd.transferLoop s block buf write done left fates
    (out.1 = .ok → Progress s₀ block buf write n out.2) ∧
      (out.1 ≠ .ok → Kept s₀ block buf n write out.2) := by
  induction left using Nat.strong_induction_on generalizing done s fates with
  | _ left ih =>
    rw [Sd.transferLoop]
    by_cases hend : left = 0
    · rw [if_pos hend]
      have hdone : done = n := by omega
      exact ⟨fun _ => hdone ▸ h, fun hno => absurd rfl hno⟩
    rw [if_neg hend]
    have hchunk := chunkBlocks_eq left
    have hblock : (block + done) % 2 ^ 32 = block + done := Nat.mod_eq_of_lt (by omega)
    have haddress : s.cardBlock (s.address (block + done)) = block + done := by
      refine cardBlock_address (haddressable.imp (fun hsdhc => h.sdhc.trans hsdhc) ?_)
      omega
    obtain ⟨hfail, hok⟩ := h.attempt (k := chunkBlocks left) (n := n) haddress (fates.headD .done)
      (hready (by omega)) (by omega)
    rcases hout : transferDma (s.take (buf + done * 512) (chunkBlocks left) write) (block + done)
      s.dmaHalf (chunkBlocks left) write (fates.headD .done) with ⟨ok, s'⟩
    simp only [hblock, hout] at hfail hok ⊢
    cases ok with
    | false => exact ⟨fun hok => Ret.noConfusion hok, fun _ => hfail rfl⟩
    | true =>
      obtain ⟨hnext, hprogress⟩ := hok rfl
      refine ih _ (by omega) hprogress (by omega) fun _ _ => ?_
      cases write <;> exact hnext

/-- Without faults it ends well. -/
theorem transferLoop_works (s : Driver) (block buf : ℕ) (write : Bool) (done left : ℕ) :
    (Sd.transferLoop s block buf write done left []).1 = .ok := by
  induction left using Nat.strong_induction_on generalizing done s with
  | _ left ih =>
    rw [Sd.transferLoop]
    by_cases hend : left = 0
    · rw [if_pos hend]
    · have hchunk := chunkBlocks_eq left
      rw [if_neg hend]
      exact ih _ (by omega) _ _

theorem transferLoop_ne_erange (s : Driver) (block buf : ℕ) (write : Bool) (done left : ℕ)
    (fates : List Fate) : (Sd.transferLoop s block buf write done left fates).1 ≠ .erange := by
  induction left using Nat.strong_induction_on generalizing done s fates with
  | _ left ih =>
    rw [Sd.transferLoop]
    by_cases hend : left = 0
    · rw [if_pos hend]
      exact fun h => Ret.noConfusion h
    · have hchunk := chunkBlocks_eq left
      rw [if_neg hend]
      rcases hout : transferDma (s.take (buf + done * 512) (chunkBlocks left) write)
        ((block + done) % 2 ^ 32) s.dmaHalf (chunkBlocks left) write (fates.headD .done)
        with ⟨ok, s'⟩
      simp only [hout]
      cases ok with
      | false => exact fun h => Ret.noConfusion h
      | true => exact ih _ (by omega) _ _ _

/-! ### `sd_transfer` -/

/-- **The check is one of a sum with 32 bits.** -/
theorem refuses_iff (h : s.initialised = true) :
    (transfer s block buf n write fates).1 = .erange ↔
      s.blockCount.toNat < (block + n) % 2 ^ 32 := by
  rw [transfer, if_neg (by simpa using h)]
  by_cases hrange : (block + n) % 2 ^ 32 > s.blockCount.toNat
  · rw [if_pos hrange]
    exact iff_of_true rfl hrange
  · rw [if_neg hrange]
    refine iff_of_false ?_ hrange
    by_cases hnone : n = 0
    · rw [if_pos hnone]
      exact fun h => Ret.noConfusion h
    · rw [if_neg hnone]
      exact transferLoop_ne_erange _ _ _ _ _ _ _

/-- What `sd_transfer` promises. -/
structure Covers (s : Driver) (block buf n : ℕ) (write : Bool) (fates : List Fate)
    (out : Ret × Driver) : Prop where
  refused : s.initialised = true → s.blockCount.toNat < block + n → out = (.erange, s)
  accepted : s.initialised = true → block + n ≤ s.blockCount.toNat → fates = [] → out.1 = .ok
  order : out.1 = .ok → ∃ log, out.2.log = log ++ s.log ∧
    log.reverse.flatMap Event.blocks = List.range' block n
  card : out.1 = .ok → out.2.card = if write then
      overlay (512 * block) (512 * n) (fun i => s.mem (buf + i)) s.card
    else s.card
  mem : out.1 = .ok → out.2.mem = if write then s.mem
    else overlay buf (512 * n) (fun i => s.card (512 * block + i)) s.mem
  prefix_order : out.1 ≠ .ok → ∃ log, out.2.log = log ++ s.log ∧
    log.reverse.flatMap Event.blocks <+: List.range' block n
  card_frame : out.1 ≠ .ok → ∀ x, write = false ∨ x < 512 * block ∨ 512 * (block + n) ≤ x →
    out.2.card x = s.card x
  mem_frame : out.1 ≠ .ok → ∀ x, write = true ∨ x < buf ∨ buf + 512 * n ≤ x →
    out.2.mem x = s.mem x

/-- Where nothing is moved. -/
theorem Covers.of_not_ok {ret : Ret} (hret : ret ≠ .ok)
    (hrange : s.initialised = true → ret = .erange ∧ s.blockCount.toNat < block + n) :
    Covers s block buf n write fates (ret, s) where
  refused hinit _ := by rw [(hrange hinit).1]
  accepted hinit hle _ := absurd hle (not_le.mpr (hrange hinit).2)
  order h := absurd h hret
  card h := absurd h hret
  mem h := absurd h hret
  prefix_order _ := ⟨[], rfl, List.nil_prefix⟩
  card_frame _ _ _ := rfl
  mem_frame _ _ _ := rfl

theorem Progress.zero (hturn : InTurn s) (halternates : Alternates s.log) :
    Progress s block buf write 0 s where
  sdhc := rfl
  turn := hturn
  alternates := halternates
  log := ⟨[], rfl, rfl⟩
  card := by simp
  mem := by simp

theorem Progress.covers (h : Progress s block buf write n s')
    (hle : block + n ≤ s.blockCount.toNat) : Covers s block buf n write fates (.ok, s') where
  refused _ hlt := absurd hle (not_le.mpr hlt)
  accepted _ _ _ := rfl
  order _ := h.log
  card _ := h.card
  mem _ := h.mem
  prefix_order hno := absurd rfl hno
  card_frame hno := absurd rfl hno
  mem_frame hno := absurd rfl hno

theorem Kept.covers {ret : Ret} (h : Kept s block buf n write s') (hret : ret ≠ .ok)
    (hfates : fates ≠ []) (hle : block + n ≤ s.blockCount.toNat) :
    Covers s block buf n write fates (ret, s') where
  refused _ hlt := absurd hle (not_le.mpr hlt)
  accepted _ _ hnone := absurd hnone hfates
  order hok := absurd hok hret
  card hok := absurd hok hret
  mem hok := absurd hok hret
  prefix_order _ := h.log
  card_frame _ x hx := by
    rcases hx with hread | hx
    · rw [show s'.card = s.card from h.card_read hread]
    · exact h.card_write x hx
  mem_frame _ x hx := by
    rcases hx with hwrite | hx
    · rw [show s'.mem = s.mem from h.mem_write hwrite]
    · exact h.mem_read x hx

/-- **The condition**: the sum of the check does not wrap into the card, the blocks have an address,
and no half is armed that the command before had. -/
def Careful (s : Driver) : Action → Prop
  | .reset _ _ _ _ => True
  | .poke _ => True
  | .switchFunc _ fate => fate ≠ .busy → Ready s.log
  | .transfer block nblocks _ write fates =>
    let block := block.toNat
    let n := nblocks.toNat
    s.initialised = true →
      (block + n < 2 ^ 32 ∨ s.blockCount.toNat < (block + n) % 2 ^ 32) ∧
        (block + n ≤ s.blockCount.toNat → 0 < n → Addressable s block n ∧
          ((fates.headD .done).arms write = true → Ready s.log))

/-- **One transfer.** -/
theorem transfer_covers {a n : UInt32} (hturn : InTurn s) (halternates : Alternates s.log)
    (hcareful : Careful s (.transfer a n buf write fates)) :
    let out := transfer s a.toNat buf n.toNat write fates
    Covers s a.toNat buf n.toNat write fates out ∧ InTurn out.2 ∧ Alternates out.2.log := by
  have hcount := s.blockCount.toNat_lt
  rw [transfer]
  by_cases hinit : s.initialised = true
  swap
  · rw [if_pos (by simpa using hinit)]
    exact ⟨Covers.of_not_ok (fun h => nomatch h) fun h => absurd h hinit, hturn, halternates⟩
  obtain ⟨hwrap, hready⟩ := hcareful hinit
  rw [if_neg (by simpa using hinit)]
  by_cases hrange : (a.toNat + n.toNat) % 2 ^ 32 > s.blockCount.toNat
  · rw [if_pos hrange]
    have hlt : s.blockCount.toNat < a.toNat + n.toNat := hrange.trans_le (Nat.mod_le _ _)
    exact ⟨Covers.of_not_ok (fun h => nomatch h) fun _ => ⟨rfl, hlt⟩, hturn, halternates⟩
  rw [if_neg hrange]
  have hsum : a.toNat + n.toNat < 2 ^ 32 := hwrap.resolve_right hrange
  rw [Nat.mod_eq_of_lt hsum] at hrange
  have hle : a.toNat + n.toNat ≤ s.blockCount.toNat := not_lt.mp hrange
  have hzero : Progress s a.toNat buf write 0 s := Progress.zero hturn halternates
  by_cases hnone : n.toNat = 0
  · rw [if_pos hnone]
    rw [← hnone] at hzero
    exact ⟨hzero.covers hle, hturn, halternates⟩
  rw [if_neg hnone]
  obtain ⟨haddressable, harms⟩ := hready hle (Nat.pos_of_ne_zero hnone)
  obtain ⟨hok, hfail⟩ :=
    hzero.transferLoop (Nat.zero_add _) hsum haddressable fun _ => harms
  have hworks := transferLoop_works s a.toNat buf write 0 n.toNat
  rcases hout : Sd.transferLoop s a.toNat buf write 0 n.toNat fates with ⟨ret, s'⟩
  rw [hout] at hok hfail
  by_cases hret : ret = .ok
  · subst hret
    exact ⟨(hok rfl).covers hle, (hok rfl).turn, (hok rfl).alternates⟩
  · have hfates : fates ≠ [] := by
      rintro rfl
      rw [hout] at hworks
      exact hret hworks
    exact ⟨(hfail hret).covers hret hfates hle, (hfail hret).turn, (hfail hret).alternates⟩

/-! ### Runs -/

theorem switchFunc_armed (s : Driver) (status : ℕ → UInt8) (h : fate ≠ .busy) :
    (switchFunc s status fate).dmaHalf = (!s.dmaHalf) ∧
      (switchFunc s status fate).dmaBeg1 = some s.dmaHalf ∧
      (switchFunc s status fate).log = .armed s.dmaHalf [] :: s.log := by
  cases fate with
  | busy => exact absurd rfl h
  | refused => exact ⟨rfl, rfl, rfl⟩
  | broken k => exact ⟨rfl, rfl, rfl⟩
  | done =>
    simp only [switchFunc]
    split_ifs <;> exact ⟨rfl, rfl, rfl⟩

theorem InTurn.switchFunc (hturn : InTurn s) (halternates : Alternates s.log)
    (status : ℕ → UInt8) (hready : fate ≠ .busy → Ready s.log) :
    InTurn (switchFunc s status fate) ∧ Alternates (switchFunc s status fate).log := by
  by_cases hbusy : fate = .busy
  · subst hbusy
    exact ⟨hturn, halternates⟩
  · obtain ⟨hhalf, hbeg, hlog⟩ := switchFunc_armed s status hbusy
    refine ⟨InTurn.armed hhalf hbeg hlog, ?_⟩
    rw [hlog]
    exact ⟨hturn.lastArmed_ne (hready hbusy), halternates⟩

/-- What every careful step keeps. -/
theorem InTurn.step {a : Action} (hturn : InTurn s) (halternates : Alternates s.log)
    (hcareful : Careful s a) : InTurn (step s a) ∧ Alternates (step s a).log := by
  cases a with
  | reset initialised sdhc blockCount card =>
    exact ⟨⟨hturn.half, fun b hb => nomatch hb⟩, halternates⟩
  | poke mem => exact ⟨⟨hturn.half, hturn.beg1⟩, halternates⟩
  | switchFunc status fate => exact hturn.switchFunc halternates status hcareful
  | transfer block nblocks buf write fates =>
    exact (transfer_covers hturn halternates hcareful).2

theorem inTurn_of_reachable (h : machine.Reachable Careful s) : InTurn s ∧ Alternates s.log := by
  refine machine.invariant (I := fun s => InTurn s ∧ Alternates s.log) ?_ ?_ h
  · rintro s ⟨-, -, hbeg, hlog⟩
    refine ⟨⟨fun b hb => ?_, fun b hb => ?_⟩, ?_⟩
    · rw [hlog] at hb
      exact nomatch hb
    · rw [hbeg] at hb
      exact nomatch hb
    · rw [hlog]
      trivial
  · rintro s a s' ⟨hturn, halternates⟩ hcareful hstep
    obtain rfl := Option.some.inj hstep
    exact hturn.step halternates hcareful

/-- **In every run of careful calls, whatever fails, each transfer covers its request, and no
command has the half of the one before.** -/
theorem covers_of_reachable (h : machine.Reachable Careful s) :
    Alternates s.log ∧ ∀ (block n : UInt32) (buf : ℕ) (write : Bool) (fates : List Fate),
      Careful s (.transfer block n buf write fates) →
        Covers s block.toNat buf n.toNat write fates
          (transfer s block.toNat buf n.toNat write fates) := by
  obtain ⟨hturn, halternates⟩ := inTurn_of_reachable h
  exact ⟨halternates, fun _ _ _ _ _ hcareful => (transfer_covers hturn halternates hcareful).1⟩

/-- Past the end of the numbers the check fails. -/
theorem not_covers_of_wrap (hinit : s.initialised = true) (hsum : 2 ^ 32 ≤ block + n)
    (hwrap : (block + n) % 2 ^ 32 ≤ s.blockCount.toNat) :
    ¬ Covers s block buf n write fates (transfer s block buf n write fates) := by
  intro h
  have hcount := s.blockCount.toNat_lt
  have hrefused := h.refused hinit (by omega)
  exact hwrap.not_gt ((refuses_iff hinit).mp (Prod.ext_iff.mp hrefused).1)

/-- A half that is moved through when it is not ready is the one of the command before. -/
theorem Moved.not_alternates {first chunk : ℕ} (h : InTurn s) (hready : ¬ Ready s.log)
    (hmoved : Moved s first chunk k write s') : ¬ Alternates s'.log := by
  rw [hmoved.log]
  exact fun halternates => halternates.1 (h.lastArmed_eq hready)

/-- From power on, with nothing in any memory. -/
def powerOn : Driver :=
  { initialised := false
    sdhc := false
    blockCount := 0
    dmaHalf := false
    dmaBuf := fun _ _ => 0
    dmaBeg1 := none
    stale := fun _ => 0
    card := fun _ => 0
    mem := fun _ => 0
    log := [] }

theorem reachable_powerOn {G : Driver → Action → Prop} : machine.Reachable G powerOn :=
  .init ⟨rfl, rfl, rfl, rfl⟩

/-- A card of 100 blocks, and 20 blocks of it read. -/
theorem covers_card :
    ∃ s, s.blockCount = 100 ∧ Careful s (.transfer 0 20 0 false []) ∧
      Covers s 0 0 20 false [] (transfer s 0 0 20 false []) := by
  have hcard : machine.Reachable Careful (step powerOn (.reset true true 100 fun _ => 7)) :=
    .step (a := .reset true true 100 fun _ => 7) reachable_powerOn trivial rfl
  have hcareful : Careful (step powerOn (.reset true true 100 fun _ => 7))
      (.transfer 0 20 0 false []) :=
    fun _ => ⟨Or.inl (by decide), fun _ _ => ⟨Or.inl rfl, fun _ => Or.inl rfl⟩⟩
  exact ⟨_, rfl, hcareful, (covers_of_reachable hcard).2 0 20 0 false [] hcareful⟩

/-- A range that starts with the last number there is is not refused. -/
theorem not_covers_of_reachable :
    ¬ ∀ s, machine.Reachable Machine.anyStep s → Alternates s.log ∧
      ∀ (block n : UInt32) (buf : ℕ) (write : Bool) (fates : List Fate),
        Covers s block.toNat buf n.toNat write fates
          (transfer s block.toNat buf n.toNat write fates) := by
  intro h
  have hcard : machine.Reachable Machine.anyStep (step powerOn (.reset true true 100 fun _ => 7)) :=
    .step reachable_powerOn trivial rfl
  have hrefused := ((h _ hcard).2 0xFFFFFFFF 1 0 false []).refused rfl (by decide)
  exact absurd ((refuses_iff rfl).mp (Prod.ext_iff.mp hrefused).1) (by decide)

end Ch32h4.Sd
