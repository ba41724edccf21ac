import Ch32h4.Psram.Transfer
import Mathlib.Tactic.Common

/-!
# What is written to the PSRAM is read back

Head, middle and tail of a transfer are DMA transfers of their own.  A transfer of the DMA that
reports success has moved all its bytes (`moved_of_ok`), and every one stays in its range, so
whatever the hardware does, no byte is counted that was not moved and none outside moves
(`carried_write`, `fetched_read`).

Where the hardware works, the number of words of the middle must fit into `CNTR`.  It is not split
if it does not, and then neither `write` nor `read` gets past the head (`write_fst`, `read_fst`).
-/

namespace Ch32h4.Psram

variable {s s₀ : State} {addr src dst len n r m : ℕ} {fate : Option ℕ} {b : Buffer}

/-! ### One transfer -/

theorem moved_le (len : ℕ) (fate : Option ℕ) : (moved len fate).1 ≤ len := by
  cases fate <;> simp only [moved] <;> omega

/-- `TC` comes after the last byte. -/
theorem moved_of_ok (h : (moved len fate).2 = true) : (moved len fate).1 = len := by
  cases fate with
  | none =>
    simp only [moved, decide_eq_true_iff] at h ⊢
    omega
  | some k => cases h

/-- The words of a transfer that `CNTR` can hold. -/
theorem moved_of_le (h : len ≤ 4 * 65535) : moved len none = (len, true) := by
  have hcntr : (len + 3) / 4 % 2 ^ 16 = (len + 3) / 4 := Nat.mod_eq_of_lt (by omega)
  have hwords : len ≤ 4 * ((len + 3) / 4) := by omega
  simp only [moved, hcntr, Nat.min_eq_left hwords, decide_eq_true hwords]

/-- A longer one stops short of its end. -/
theorem moved_of_gt (h : 4 * 65535 < len) : (moved len none).2 = false := by
  have hcntr : (len + 3) / 4 % 2 ^ 16 < 2 ^ 16 := Nat.mod_lt _ (by decide)
  simp only [moved, decide_eq_false_iff_not]
  omega

/-! ### The parts of a transfer -/

theorem headSize_le (p len : ℕ) : headSize p len ≤ len := by
  simp only [headSize]
  split_ifs <;> omega

theorem headSize_lt (p len : ℕ) : headSize p len < 4 := by
  simp only [headSize]
  split_ifs <;> omega

theorem head_add_mid_le (p len : ℕ) : headSize p len + midSize p len ≤ len := by
  have := headSize_le p len
  rw [midSize]
  omega

/-- The tail. -/
theorem sub_head_add_mid_lt (p len : ℕ) : len - (headSize p len + midSize p len) < 4 := by
  rw [midSize]
  omega

/-! ### Writing -/

/-- `r` bytes have been written, and of the others at most those up to `n` have been touched. -/
structure Carried (s₀ : State) (addr src n r : ℕ) (s : State) : Prop where
  le : r ≤ n
  cells : ∀ i < r, s.cells (addr + i) = s₀.mem (src + i)
  frame : ∀ x, x < addr ∨ addr + n ≤ x → s.cells x = s₀.cells x
  mem : s.mem = s₀.mem
  begun : s.begun = s₀.begun

theorem Carried.refl (s : State) : Carried s addr src n 0 s :=
  ⟨Nat.zero_le n, fun _ hi => absurd hi (Nat.not_lt_zero _), fun _ _ => rfl, rfl, rfl⟩

/-- The bounce buffer is not the sketch's. -/
theorem Carried.fill_bounce (h : Carried s₀ addr src n r s) (k : ℕ) (f : ℕ → UInt8) :
    Carried s₀ addr src n r (s.fill k f .bounce) :=
  ⟨h.le, h.cells, h.frame, h.mem, h.begun⟩

/-- **The next part is written, or what is counted stays.** -/
theorem Carried.writeDMA (h : Carried s₀ addr src n r s) (hroom : r + m ≤ n)
    (hload : ∀ i < m, s.load b i = s₀.mem (src + r + i)) :
    Carried s₀ addr src n r (s.writeDMA (addr + r) b m).2 ∧
      ((s.writeDMA (addr + r) b m).1 = true →
        Carried s₀ addr src n (r + m) (s.writeDMA (addr + r) b m).2) := by
  have hle := moved_le m (s.qspi.headD none)
  have hframe (x : ℕ) (hx : x < addr + r ∨ addr + r + m ≤ x) :
      (s.writeDMA (addr + r) b m).2.cells x = s.cells x := overlay_outside hle hx
  have hbefore (i : ℕ) (hi : i < r) :
      (s.writeDMA (addr + r) b m).2.cells (addr + i) = s₀.mem (src + i) := by
    rw [hframe _ (Or.inl (by omega)), h.cells i hi]
  have houtside (x : ℕ) (hx : x < addr ∨ addr + n ≤ x) :
      (s.writeDMA (addr + r) b m).2.cells x = s₀.cells x := by
    rw [hframe x (by omega), h.frame x hx]
  refine ⟨⟨h.le, hbefore, houtside, h.mem, h.begun⟩, fun hok => ?_⟩
  refine ⟨hroom, fun i hi => ?_, houtside, h.mem, h.begun⟩
  by_cases hold : i < r
  · exact hbefore i hold
  · have hall : (moved m (s.qspi.headD none)).1 = m := moved_of_ok hok
    obtain ⟨j, rfl⟩ : ∃ j, i = r + j := ⟨i - r, by omega⟩
    have hj : j < m := by omega
    have hnew : (s.writeDMA (addr + r) b m).2.cells (addr + r + j) = s.load b j :=
      overlay_add (hall.symm ▸ hj)
    rw [← Nat.add_assoc, hnew, hload j hj, Nat.add_assoc]

theorem load_fill_bounce {k i : ℕ} {f : ℕ → UInt8} (h : i < k) :
    (s.fill k f .bounce).load .bounce i = f i := by
  have hin := overlay_add (a := 0) (f := f) (g := s.bounce) h
  rwa [Nat.zero_add] at hin

/-- A part, and what follows if it is written. -/
theorem Carried.part {next : State → ℕ × State} (h : Carried s₀ addr src n r s) (hroom : r + m ≤ n)
    (hload : ∀ i < m, s.load b i = s₀.mem (src + r + i))
    (hnext : ∀ s', Carried s₀ addr src n (r + m) s' →
      Carried s₀ addr src n (next s').1 (next s').2) :
    let out := match s.writeDMA (addr + r) b m with
      | (true, s) => next s
      | (false, s) => (r, s)
    Carried s₀ addr src n out.1 out.2 := by
  obtain ⟨hkept, hmore⟩ := h.writeDMA hroom hload
  rcases hout : s.writeDMA (addr + r) b m with ⟨ok, s'⟩
  rw [hout] at hkept hmore
  cases ok with
  | false => exact hkept
  | true => exact hnext s' (hmore rfl)

theorem Carried.writeTail (h : Carried s₀ addr src n r s) :
    Carried s₀ addr src n (writeTail s addr src n r).1 (writeTail s addr src n r).2 := by
  rw [Psram.writeTail]
  split_ifs with hdone
  · exact h
  · have hend : r + (n - r) = n := Nat.add_sub_cancel' h.le
    refine (h.fill_bounce (n - r) _).part (Nat.le_of_eq hend) (fun i hi => ?_) fun s' hs' => ?_
    · rw [load_fill_bounce hi, h.mem]
    · rw [hend] at hs'
      exact hs'

theorem Carried.writeMid (h : Carried s₀ addr src n (headSize src n) s) :
    Carried s₀ addr src n (writeMid s addr src n).1 (writeMid s addr src n).2 := by
  rw [Psram.writeMid]
  split_ifs with hnone
  · exact h.writeTail
  · exact h.part (head_add_mid_le src n) (fun i _ => congrFun h.mem _) fun s' hs' => hs'.writeTail

/-- **`write` counts no byte it has not written, and touches none outside of the range.** -/
theorem carried_write (s : State) (addr src len : ℕ) :
    Carried s addr src (clampLen addr len) (write s addr src len).1 (write s addr src len).2 := by
  rw [write]
  split_ifs with hnothing
  · exact Carried.refl s
  · set n := clampLen addr len
    by_cases hhead : headSize src n = 0
    · simp only [if_pos hhead]
      exact Carried.writeMid (hhead ▸ Carried.refl s)
    · simp only [if_neg hhead]
      have hroom : 0 + headSize src n ≤ n := by
        rw [Nat.zero_add]
        exact headSize_le src n
      refine ((Carried.refl s).fill_bounce (headSize src n) _).part hroom (fun i hi => ?_)
        fun s' hs' => ?_
      · rw [load_fill_bounce hi, Nat.add_zero]
      · rw [Nat.zero_add] at hs'
        exact hs'.writeMid

/-! ### Reading -/

/-- `r` bytes have been read, and of the others at most those up to `n` have been touched. -/
structure Fetched (s₀ : State) (addr dst n r : ℕ) (s : State) : Prop where
  le : r ≤ n
  mem : ∀ i < r, s.mem (dst + i) = s₀.cells (addr + i)
  frame : ∀ x, x < dst ∨ dst + n ≤ x → s.mem x = s₀.mem x
  cells : s.cells = s₀.cells

theorem Fetched.refl (s : State) : Fetched s addr dst n 0 s :=
  ⟨Nat.zero_le n, fun _ hi => absurd hi (Nat.not_lt_zero _), fun _ _ => rfl, rfl⟩

/-- Bytes put behind those there are. -/
theorem Fetched.fill {k : ℕ} {f : ℕ → UInt8} (h : Fetched s₀ addr dst n r s) (hroom : r + m ≤ n)
    (hk : k ≤ m) :
    Fetched s₀ addr dst n r (s.fill k f (.sketch (dst + r))) ∧
      (k = m → (∀ i < m, f i = s₀.cells (addr + r + i)) →
        Fetched s₀ addr dst n (r + m) (s.fill k f (.sketch (dst + r)))) := by
  have hframe (x : ℕ) (hx : x < dst + r ∨ dst + r + m ≤ x) :
      (s.fill k f (.sketch (dst + r))).mem x = s.mem x := overlay_outside hk hx
  have hbefore (i : ℕ) (hi : i < r) :
      (s.fill k f (.sketch (dst + r))).mem (dst + i) = s₀.cells (addr + i) := by
    rw [hframe _ (Or.inl (by omega)), h.mem i hi]
  have houtside (x : ℕ) (hx : x < dst ∨ dst + n ≤ x) :
      (s.fill k f (.sketch (dst + r))).mem x = s₀.mem x := by
    rw [hframe x (by omega), h.frame x hx]
  refine ⟨⟨h.le, hbefore, houtside, h.cells⟩, fun hall hf => ?_⟩
  refine ⟨hroom, fun i hi => ?_, houtside, h.cells⟩
  by_cases hold : i < r
  · exact hbefore i hold
  · obtain ⟨j, rfl⟩ : ∃ j, i = r + j := ⟨i - r, by omega⟩
    have hj : j < m := by omega
    have hnew : (s.fill k f (.sketch (dst + r))).mem (dst + r + j) = f j :=
      overlay_add (hall.symm ▸ hj)
    rw [← Nat.add_assoc, hnew, hf j hj, Nat.add_assoc]

/-- A part that goes straight to the sketch, and what follows if it comes. -/
theorem Fetched.part {next : State → ℕ × State} (h : Fetched s₀ addr dst n r s)
    (hroom : r + m ≤ n) (hcap : addr + n ≤ capacity)
    (hnext : ∀ s', Fetched s₀ addr dst n (r + m) s' →
      Fetched s₀ addr dst n (next s').1 (next s').2) :
    let out := match s.readDMA (addr + r) (.sketch (dst + r)) m with
      | (true, s) => next s
      | (false, s) => (r, s)
    Fetched s₀ addr dst n out.1 out.2 := by
  obtain ⟨hkept, hmore⟩ := h.fill (f := fun i => s.cells ((addr + r + i) % capacity)) hroom
    (moved_le m (s.qspi.headD none))
  rcases hout : s.readDMA (addr + r) (.sketch (dst + r)) m with ⟨ok, s'⟩
  obtain ⟨hok, rfl⟩ := Prod.ext_iff.mp hout
  cases ok with
  | false => exact ⟨hkept.le, hkept.mem, hkept.frame, hkept.cells⟩
  | true =>
    obtain ⟨hle, hmem, hframe, hcells⟩ := hmore (moved_of_ok hok) fun i hi => by
      rw [Nat.mod_eq_of_lt (by omega), h.cells]
    exact hnext _ ⟨hle, hmem, hframe, hcells⟩

/-- A part that goes through the bounce buffer. -/
theorem Fetched.bouncedPart (next : State → ℕ × State) (h : Fetched s₀ addr dst n r s)
    (hroom : r + m ≤ n) (hcap : addr + n ≤ capacity) (hm : m < 4)
    (hnext : ∀ s', Fetched s₀ addr dst n (r + m) s' →
      Fetched s₀ addr dst n (next s').1 (next s').2) :
    let out := match s.readDMA (addr + r) .bounce 4 with
      | (true, s) => next (s.fill m s.bounce (.sketch (dst + r)))
      | (false, s) => (r, s)
    Fetched s₀ addr dst n out.1 out.2 := by
  rcases hout : s.readDMA (addr + r) .bounce 4 with ⟨ok, s'⟩
  obtain ⟨hok, rfl⟩ := Prod.ext_iff.mp hout
  have hread : Fetched s₀ addr dst n r (s.readDMA (addr + r) .bounce 4).2 :=
    ⟨h.le, h.mem, h.frame, h.cells⟩
  cases ok with
  | false => exact hread
  | true =>
    refine hnext _ ((hread.fill hroom (Nat.le_refl m)).2 rfl fun i hi => ?_)
    have hall : (moved 4 (s.qspi.headD none)).1 = 4 := moved_of_ok hok
    -- only the bytes that are wanted lie in the range: the read may go past the end
    have hbounce : (s.readDMA (addr + r) .bounce 4).2.bounce i =
        s.cells ((addr + r + i) % capacity) := by
      have hin := overlay_add (a := 0) (i := i) (n := (moved 4 (s.qspi.headD none)).1)
        (f := fun i => s.cells ((addr + r + i) % capacity)) (g := s.bounce) (by omega)
      rwa [Nat.zero_add] at hin
    rw [hbounce, Nat.mod_eq_of_lt (by omega), h.cells]

theorem Fetched.readTail (h : Fetched s₀ addr dst n r s) (hcap : addr + n ≤ capacity)
    (hr : n - r < 4) :
    Fetched s₀ addr dst n (readTail s addr dst n r).1 (readTail s addr dst n r).2 := by
  have hend : r + (n - r) = n := Nat.add_sub_cancel' h.le
  rw [Psram.readTail]
  split_ifs with hdone
  · have hfull : r = n := by omega
    exact hfull ▸ h
  · refine h.bouncedPart (fun s => (n, s)) (Nat.le_of_eq hend) hcap hr fun s' hs' => ?_
    rw [hend] at hs'
    exact hs'

theorem Fetched.readMid (h : Fetched s₀ addr dst n (headSize dst n) s)
    (hcap : addr + n ≤ capacity) :
    Fetched s₀ addr dst n (readMid s addr dst n).1 (readMid s addr dst n).2 := by
  have htail := sub_head_add_mid_lt dst n
  rw [Psram.readMid]
  split_ifs with hnone
  · rw [hnone, Nat.add_zero] at htail
    exact h.readTail hcap htail
  · exact h.part (head_add_mid_le dst n) hcap fun s' hs' => hs'.readTail hcap htail

theorem add_clampLen_le (h : addr < capacity) : addr + clampLen addr len ≤ capacity := by
  rw [clampLen]
  split_ifs <;> omega

/-- **`read` counts no byte it has not read, and touches none outside of the range.** -/
theorem fetched_read (s : State) (addr dst len : ℕ) :
    Fetched s addr dst (clampLen addr len) (read s addr dst len).1 (read s addr dst len).2 := by
  rw [read]
  split_ifs with hnothing
  · exact Fetched.refl s
  · have hcap : addr + clampLen addr len ≤ capacity := add_clampLen_le (by
      simp only [Bool.or_eq_true, decide_eq_true_iff, not_or] at hnothing
      exact Nat.lt_of_not_le hnothing.1.2)
    set n := clampLen addr len
    by_cases hhead : headSize dst n = 0
    · simp only [if_pos hhead]
      exact Fetched.readMid (hhead ▸ Fetched.refl s) hcap
    · simp only [if_neg hhead]
      have hroom : 0 + headSize dst n ≤ n := by
        rw [Nat.zero_add]
        exact headSize_le dst n
      refine (Fetched.refl s).bouncedPart (fun s => readMid s addr dst n) hroom hcap
        (headSize_lt dst n) fun s' hs' => ?_
      rw [Nat.zero_add] at hs'
      exact hs'.readMid hcap

/-! ### Hardware that works -/

/-- The middle of a transfer fits into `CNTR`. -/
def Fits (p n : ℕ) : Prop := midSize p n ≤ 4 * 65535

instance (p n : ℕ) : Decidable (Fits p n) := inferInstanceAs (Decidable (_ ≤ _))

theorem qspi_fill {k : ℕ} {f : ℕ → UInt8} : (s.fill k f b).qspi = s.qspi := by
  cases b <;> rfl

theorem writeDMA_works (addr : ℕ) (b : Buffer) (hworks : s.qspi = []) (h : m ≤ 4 * 65535) :
    ∃ s', s.writeDMA addr b m = (true, s') ∧ s'.qspi = [] := by
  refine ⟨_, Prod.ext ?_ rfl, ?_⟩
  · simp [State.writeDMA, hworks, moved_of_le h]
  · simp [State.writeDMA, hworks]

theorem writeDMA_stops (addr : ℕ) (b : Buffer) (hworks : s.qspi = []) (h : 4 * 65535 < m) :
    ∃ s', s.writeDMA addr b m = (false, s') :=
  ⟨_, Prod.ext (by simp [State.writeDMA, hworks, moved_of_gt h]) rfl⟩

theorem readDMA_works (addr : ℕ) (b : Buffer) (hworks : s.qspi = []) (h : m ≤ 4 * 65535) :
    ∃ s', s.readDMA addr b m = (true, s') ∧ s'.qspi = [] := by
  refine ⟨_, Prod.ext ?_ rfl, ?_⟩
  · simp [State.readDMA, hworks, moved_of_le h]
  · simp [State.readDMA, hworks, qspi_fill]

theorem readDMA_stops (addr : ℕ) (b : Buffer) (hworks : s.qspi = []) (h : 4 * 65535 < m) :
    ∃ s', s.readDMA addr b m = (false, s') :=
  ⟨_, Prod.ext (by simp [State.readDMA, hworks, moved_of_gt h]) rfl⟩

/-- The head and the tail have less than a word, and get through. -/
theorem writeTail_works (addr src : ℕ) (hworks : s.qspi = []) (hr : r ≤ n) (htail : n - r < 4) :
    (writeTail s addr src n r).1 = n ∧ (writeTail s addr src n r).2.qspi = [] := by
  rw [writeTail]
  split_ifs with hdone
  · exact ⟨by omega, hworks⟩
  · obtain ⟨s', hs', hworks'⟩ := writeDMA_works (m := n - r) (addr + r) .bounce
      (s := s.fill (n - r) (fun i => s.mem (src + r + i)) .bounce) hworks (by omega)
    simp only [hs', true_and]
    exact hworks'

theorem readTail_works (addr dst : ℕ) (hworks : s.qspi = []) :
    (readTail s addr dst n r).1 = n := by
  rw [readTail]
  split_ifs with hdone
  · rfl
  · obtain ⟨s', hs', -⟩ := readDMA_works (m := 4) (addr + r) .bounce hworks (by decide)
    simp only [hs']

/-- A middle that fits gets through, and one that does not leaves the transfer at its head. -/
theorem writeMid_works (addr src : ℕ) (hworks : s.qspi = []) :
    (writeMid s addr src n).1 = (if Fits src n then n else headSize src n) ∧
      (Fits src n → (writeMid s addr src n).2.qspi = []) := by
  have htail := sub_head_add_mid_lt src n
  have hle := head_add_mid_le src n
  rw [writeMid]
  by_cases hnone : midSize src n = 0
  · have hfits : Fits src n := by rw [Fits, hnone]; exact Nat.zero_le _
    rw [hnone, Nat.add_zero] at htail hle
    simp only [if_pos hnone, if_pos hfits]
    exact ⟨(writeTail_works addr src hworks hle htail).1,
      fun _ => (writeTail_works addr src hworks hle htail).2⟩
  simp only [if_neg hnone]
  by_cases hfits : Fits src n
  · obtain ⟨s', hs', hworks'⟩ := writeDMA_works (addr + headSize src n)
      (.sketch (src + headSize src n)) hworks hfits
    simp only [hs', if_pos hfits]
    exact ⟨(writeTail_works addr src hworks' hle htail).1,
      fun _ => (writeTail_works addr src hworks' hle htail).2⟩
  · obtain ⟨s', hs'⟩ := writeDMA_stops (addr + headSize src n)
      (.sketch (src + headSize src n)) hworks (Nat.lt_of_not_le hfits)
    simp only [hs', if_neg hfits, true_and]
    exact fun h => absurd h hfits

theorem readMid_works (addr dst : ℕ) (hworks : s.qspi = []) :
    (readMid s addr dst n).1 = if Fits dst n then n else headSize dst n := by
  rw [readMid]
  by_cases hnone : midSize dst n = 0
  · have hfits : Fits dst n := by rw [Fits, hnone]; exact Nat.zero_le _
    simp only [if_pos hnone, if_pos hfits]
    exact readTail_works addr dst hworks
  simp only [if_neg hnone]
  by_cases hfits : Fits dst n
  · obtain ⟨s', hs', hworks'⟩ := readDMA_works (addr + headSize dst n)
      (.sketch (dst + headSize dst n)) hworks hfits
    simp only [hs', if_pos hfits]
    exact readTail_works addr dst hworks'
  · obtain ⟨s', hs'⟩ := readDMA_stops (addr + headSize dst n)
      (.sketch (dst + headSize dst n)) hworks (Nat.lt_of_not_le hfits)
    simp only [hs', if_neg hfits]

theorem head_fits (p n : ℕ) : headSize p n ≤ 4 * 65535 := by
  have := headSize_lt p n
  omega

/-- **`write` gets through if the middle fits, and not past the head otherwise.** -/
theorem write_works (addr src len : ℕ) (hbegun : s.begun = true) (hworks : s.qspi = [])
    (haddr : addr < capacity) (hlen : 0 < len) (hn : clampLen addr len = n) :
    (write s addr src len).1 = (if Fits src n then n else headSize src n) ∧
      (Fits src n → (write s addr src len).2.qspi = []) := by
  have hsome : ¬ ((!s.begun || decide (addr ≥ capacity) || decide (len = 0)) = true) := by
    simp [hbegun, Nat.ne_of_gt hlen, haddr]
  rw [write, if_neg hsome, hn]
  by_cases hhead : headSize src n = 0
  · simp only [if_pos hhead]
    exact writeMid_works addr src hworks
  · obtain ⟨s', hs', hworks'⟩ := writeDMA_works addr .bounce
      (s := s.fill (headSize src n) (fun i => s.mem (src + i)) .bounce) hworks (head_fits src n)
    simp only [if_neg hhead, hs']
    exact writeMid_works addr src hworks'

/-- **And so does `read`.** -/
theorem read_works (addr dst len : ℕ) (hbegun : s.begun = true) (hworks : s.qspi = [])
    (haddr : addr < capacity) (hlen : 0 < len) (hn : clampLen addr len = n) :
    (read s addr dst len).1 = if Fits dst n then n else headSize dst n := by
  have hsome : ¬ ((!s.begun || decide (addr ≥ capacity) || decide (len = 0)) = true) := by
    simp [hbegun, Nat.ne_of_gt hlen, haddr]
  rw [read, if_neg hsome, hn]
  by_cases hhead : headSize dst n = 0
  · simp only [if_pos hhead]
    exact readMid_works addr dst hworks
  · obtain ⟨s', hs', hworks'⟩ := readDMA_works (m := 4) addr .bounce hworks (by decide)
    simp only [if_neg hhead, hs']
    exact readMid_works addr dst hworks'

/-! ### The round trip -/

/-- What `write` and `read` promise.  Without faults of the hardware they come back with all the
bytes there are, and with the same ones. -/
structure Exact (s : State) (addr src dst len : ℕ) : Prop where
  write : Carried s addr src (clampLen addr len) (write s addr src len).1 (write s addr src len).2
  read : Fetched s addr dst (clampLen addr len) (read s addr dst len).1 (read s addr dst len).2
  roundTrip : s.qspi = [] →
    let back := Psram.read (Psram.write s addr src len).2 addr dst len
    (Psram.write s addr src len).1 = clampLen addr len ∧ back.1 = clampLen addr len ∧
      ∀ i < clampLen addr len, back.2.mem (dst + i) = s.mem (src + i)

theorem fits_zero (p : ℕ) : Fits p 0 := by
  have hle := head_add_mid_le p 0
  rw [Fits]
  omega

/-- A transfer that does not fit ends at its head. -/
theorem fits_of_eq {p k : ℕ} (hk : k = if Fits p n then n else headSize p n) (h : k = n) :
    Fits p n := by
  by_contra hfits
  rw [if_neg hfits] at hk
  have hlong : 4 * 65535 < midSize p n := Nat.lt_of_not_le hfits
  have hle := head_add_mid_le p n
  omega

theorem lt_capacity_of_clampLen_pos (h : 0 < clampLen addr len) : addr < capacity ∧ 0 < len := by
  rw [clampLen] at h
  split_ifs at h <;> omega

/-- **Whatever the hardware does, transfers are exact exactly when the middle of each fits into
`CNTR`.** -/
theorem exact_iff_fits (hbegun : s.begun = true) :
    (∀ qspi, Exact { s with qspi } addr src dst len) ↔
      Fits src (clampLen addr len) ∧ Fits dst (clampLen addr len) := by
  rcases Nat.eq_zero_or_pos (clampLen addr len) with hzero | hpos
  · refine iff_of_true (fun qspi => ⟨carried_write _ _ _ _, fetched_read _ _ _ _, fun _ => ?_⟩)
      (hzero ▸ ⟨fits_zero src, fits_zero dst⟩)
    have hwrite := (carried_write { s with qspi } addr src len).le
    have hread := (fetched_read (write { s with qspi } addr src len).2 addr dst len).le
    rw [hzero] at hwrite hread ⊢
    exact ⟨Nat.le_zero.mp hwrite, Nat.le_zero.mp hread, fun _ hi => absurd hi (Nat.not_lt_zero _)⟩
  obtain ⟨haddr, hlen⟩ := lt_capacity_of_clampLen_pos hpos
  constructor
  · intro h
    obtain ⟨hwrite, hread, -⟩ := (h []).roundTrip rfl
    obtain ⟨hcount, hworks⟩ :=
      write_works (s := { s with qspi := [] }) addr src len hbegun rfl haddr hlen rfl
    have hsrc : Fits src (clampLen addr len) := fits_of_eq hcount hwrite
    have hstill := (carried_write { s with qspi := [] } addr src len).begun.trans hbegun
    exact ⟨hsrc, fits_of_eq (read_works addr dst len hstill (hworks hsrc) haddr hlen rfl) hread⟩
  · rintro ⟨hsrc, hdst⟩ qspi
    refine ⟨carried_write _ _ _ _, fetched_read _ _ _ _, fun hworking => ?_⟩
    have hcarried := carried_write { s with qspi } addr src len
    obtain ⟨hcount, hworks⟩ :=
      write_works (s := { s with qspi }) addr src len hbegun hworking haddr hlen rfl
    have hfetched := fetched_read (write { s with qspi } addr src len).2 addr dst len
    have hback := read_works addr dst len (hcarried.begun.trans hbegun) (hworks hsrc) haddr hlen rfl
    rw [if_pos hsrc] at hcount
    rw [if_pos hdst] at hback
    refine ⟨hcount, hback, fun i hi => ?_⟩
    rw [hfetched.mem i (hback.symm ▸ hi), hcarried.cells i (hcount.symm ▸ hi)]

/-- Ten bytes between unaligned buffers. -/
theorem exact_ten :
    (Fits 1 10 ∧ Fits 102 10) ∧ ∀ qspi, Exact ⟨true, fun _ => 0, fun _ => 1, fun _ => 0, qspi⟩
      0 1 102 10 :=
  ⟨by decide,
    (exact_iff_fits (s := ⟨true, fun _ => 0, fun _ => 1, fun _ => 0, []⟩) rfl).mpr (by decide)⟩

/-- A block of 256 KB, aligned and on hardware that works, does not arrive. -/
theorem not_exact :
    ¬ ∀ (s : State) (addr src dst len : ℕ), s.begun = true → Exact s addr src dst len := by
  intro h
  have hround := (h ⟨true, fun _ => 0, fun _ => 1, fun _ => 0, []⟩ 0 0 0 262144 rfl).roundTrip rfl
  have hcount := (write_works (s := ⟨true, fun _ => 0, fun _ => 1, fun _ => 0, []⟩) 0 0 262144
    rfl rfl (by decide) (by decide) rfl).1
  exact absurd (fits_of_eq hcount hround.1) (by decide)

end Ch32h4.Psram
