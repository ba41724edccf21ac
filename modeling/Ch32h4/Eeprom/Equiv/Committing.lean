import Ch32h4.Eeprom.Store

/-!
# What a commit leaves on the flash

A commit erases the page that is not live and programs it from its last program to its first.  At
whatever operation it stops, the page is as it was (`Spoiled`, nothing was done), or its magic
never arrived (`Spoiled`), or it holds the whole copy (`Holds`); the other page is never touched.

`carryOut_rule` is the rule for a list of operations that stops anywhere: what holds of the
remaining operations and the flash at the start, and is passed on by each operation, holds where
the list stopped.  `carryOut_commit` applies it to `Erasing` and `Programming`, what is known of
the page in the two halves of a commit.
-/

namespace Ch32h4.Eeprom

open Flash

/-! ### Reading a page -/

/-- Page `p` has the same cells in both. -/
def SamePage (f f' : Cells) (p : ℕ) : Prop := ∀ o < pageSize, f' p o = f p o

section

variable {f f' : Cells} {p : ℕ}

theorem SamePage.readWord (h : SamePage f f' p) {off : ℕ} (hoff : off + 3 < pageSize) :
    readWord f' p off = readWord f p off := by
  unfold Flash.readWord readByte
  rw [h off (by omega), h (off + 1) (by omega), h (off + 2) (by omega), h (off + 3) (by omega)]

theorem SamePage.serial (h : SamePage f f' p) : pageSerial f' p = pageSerial f p :=
  h.readWord (by decide)

theorem SamePage.payload (h : SamePage f f' p) (hsize : payloadSize f p ≤ maxSize) :
    payload f' p = payload f p := by
  have hsize' : payloadSize f' p = payloadSize f p := h.readWord (by decide)
  unfold Eeprom.payload
  rw [hsize']
  have hmax : maxSize = pageSize - headerSize := rfl
  exact readBytes_congr fun o _ ho => h o (by
    have : headerSize ≤ pageSize := by decide
    omega)

theorem PageValid.size_le (h : PageValid f p) : payloadSize f p ≤ maxSize :=
  Nat.le_of_not_gt fun hgt => h.2.1 (.inr hgt)

/-- Whether a page is valid is up to its own cells. -/
theorem SamePage.valid_iff (h : SamePage f f' p) : PageValid f' p ↔ PageValid f p := by
  have hmagic : pageMagic f' p = pageMagic f p := h.readWord (by decide)
  have hsize : payloadSize f' p = payloadSize f p := h.readWord (by decide)
  have hcheck : pageCheck f' p = pageCheck f p := h.readWord (by decide)
  unfold PageValid
  rw [hmagic, hsize, hcheck, h.serial]
  refine and_congr_right fun _ => and_congr_right fun hsz => ?_
  rw [h.payload (Nat.le_of_not_gt fun hgt => hsz (.inr hgt))]

end

/-! ### The live page -/

/-- The loop of `findActivePage`, unrolled. -/
theorem findActivePage_eq (f : Cells) :
    findActivePage f =
      if PageValid f 0 then
        if PageValid f 1 ∧ pageSerial f 1 > pageSerial f 0 then some 1 else some 0
      else if PageValid f 1 then some 1 else none := by
  have hrange : List.range numPages = [0, 1] := rfl
  unfold findActivePage
  rw [hrange]
  by_cases h₀ : PageValid f 0 <;> by_cases h₁ : PageValid f 1 <;>
    simp [betterPage, h₀, h₁, apply_ite]

/-- With no live page, neither page is valid. -/
theorem not_pageValid_of_none {f : Cells} (h : findActivePage f = none) {p : ℕ}
    (hp : p < numPages) : ¬ PageValid f p := by
  have hp' : p = 0 ∨ p = 1 := by
    have : numPages = 2 := rfl
    omega
  rw [findActivePage_eq] at h
  rcases hp' with rfl | rfl <;> split_ifs at h <;> assumption

/-- The live page is valid, and no valid page has a higher serial. -/
theorem pageValid_of_some {f : Cells} {p : ℕ} (h : findActivePage f = some p) :
    p < numPages ∧ PageValid f p ∧
      ∀ q < numPages, PageValid f q → pageSerial f q ≤ pageSerial f p := by
  have hq' : ∀ q < numPages, q = 0 ∨ q = 1 := by decide
  rw [findActivePage_eq] at h
  split_ifs at h with h₀ h₁ h₁ <;> obtain rfl : _ = p := Option.some.inj h
  · refine ⟨by decide, h₁.1, fun q hq _ => ?_⟩
    rcases hq' q hq with rfl | rfl <;> omega
  · refine ⟨by decide, h₀, fun q hq hv => ?_⟩
    rcases hq' q hq with rfl | rfl
    · exact Nat.le_refl _
    · exact Nat.le_of_not_gt fun hgt => h₁ ⟨hv, hgt⟩
  · refine ⟨by decide, h₁, fun q hq hv => ?_⟩
    rcases hq' q hq with rfl | rfl
    · exact absurd hv h₀
    · exact Nat.le_refl _

/-- A valid page whose serial is above that of the other is the live one. -/
theorem findActivePage_eq_some {f : Cells} {p : ℕ} (hp : p < numPages) (hv : PageValid f p)
    (hmax : ∀ q < numPages, q ≠ p → PageValid f q → pageSerial f q < pageSerial f p) :
    findActivePage f = some p := by
  have hp' : p = 0 ∨ p = 1 := by
    have : numPages = 2 := rfl
    omega
  rw [findActivePage_eq]
  rcases hp' with rfl | rfl
  · rw [if_pos hv, if_neg]
    exact fun ⟨hv₁, hgt⟩ => absurd (hmax 1 (by decide) (by decide) hv₁) (by omega)
  · by_cases h₀ : PageValid f 0
    · rw [if_pos h₀, if_pos ⟨hv, hmax 0 (by decide) (by decide) h₀⟩]
    · rw [if_neg h₀, if_pos hv]

/-- Page `p` is as it was, or is not valid. -/
def Spoiled (f f' : Cells) (p : ℕ) : Prop := SamePage f f' p ∨ ¬ PageValid f' p

/-- **Spoiling a page that is not live changes nothing**: the same page is live, with the same
contents. -/
theorem Spoiled.findActivePage {f f' : Cells} {t : ℕ} (h : Spoiled f f' t) (htn : t < numPages)
    (ht : Eeprom.findActivePage f ≠ some t) (hother : ∀ q < numPages, q ≠ t → SamePage f f' q) :
    Eeprom.findActivePage f' = Eeprom.findActivePage f := by
  cases hlive : Eeprom.findActivePage f with
  | none =>
    -- neither page was valid, and neither has become so
    have hnone : ∀ q < numPages, ¬ PageValid f' q := by
      intro q hq hv
      by_cases hqt : q = t
      · subst hqt
        rcases h with h | h
        · exact not_pageValid_of_none hlive hq (h.valid_iff.mp hv)
        · exact h hv
      · exact not_pageValid_of_none hlive hq ((hother q hq hqt).valid_iff.mp hv)
    rw [findActivePage_eq, if_neg (hnone 0 (by decide)), if_neg (hnone 1 (by decide))]
  | some p =>
    obtain ⟨hp, hv, hmax⟩ := pageValid_of_some hlive
    have hpt : p ≠ t := fun hpt => ht (hpt ▸ hlive)
    have hsame := hother p hp hpt
    rcases h with h | h
    · -- all the pages the loop looks at are the same
      have hall : ∀ q < numPages, SamePage f f' q := fun q hq => by
        by_cases hqt : q = t
        · exact hqt ▸ h
        · exact hother q hq hqt
      rw [← hlive, findActivePage_eq, findActivePage_eq]
      simp only [(hall 0 (by decide)).valid_iff, (hall 1 (by decide)).valid_iff,
        (hall 0 (by decide)).serial, (hall 1 (by decide)).serial]
    · refine findActivePage_eq_some hp (hsame.valid_iff.mpr hv) fun q hq hqp hvq => ?_
      -- the only other page is the spoiled one
      have hqt : q = t := by
        have : numPages = 2 := rfl
        omega
      exact absurd (hqt ▸ hvq) h

/-- Likewise the contents of the flash. -/
theorem Spoiled.stored {f f' : Cells} {t : ℕ} (h : Spoiled f f' t) (htn : t < numPages)
    (ht : Eeprom.findActivePage f ≠ some t) (hother : ∀ q < numPages, q ≠ t → SamePage f f' q) :
    Eeprom.stored f' = Eeprom.stored f := by
  unfold Eeprom.stored
  rw [h.findActivePage htn ht hother]
  cases hlive : Eeprom.findActivePage f with
  | none => rfl
  | some p =>
    obtain ⟨hp, hv, -⟩ := pageValid_of_some hlive
    have hsame := hother p hp fun hpt => ht (hpt ▸ hlive)
    simp only [hsame.payload hv.size_le, hsame.serial]

/-! ### A complete copy -/

/-- The byte of a copy at `pos` of its page, for the header `h` and the contents `m`. -/
def imageByte (h m : List UInt8) (size pos : ℕ) : UInt8 :=
  if pos < headerSize then h.getD pos 0
  else if pos - headerSize < size then m.getD (pos - headerSize) 0
  else 0xFF

/-- Page `p` holds a copy of `m` with the given serial. -/
def Holds (f : Cells) (p : ℕ) (m : List UInt8) (serial : ℕ) : Prop :=
  ∀ pos < headerSize + m.length,
    f p pos = some (imageByte (header m m.length serial) m m.length pos)

theorem header_length (m : List UInt8) (size serial : ℕ) :
    (header m size serial).length = headerSize := rfl

/-- Header and payload, as they read back. -/
theorem Holds.read {f : Cells} {p : ℕ} {m : List UInt8} {serial : ℕ} (h : Holds f p m serial) :
    readBytes f p 0 (headerSize + m.length) = header m m.length serial ++ m := by
  have hlen := header_length m m.length serial
  refine List.ext_getElem (by simp [hlen]) fun i h₁ h₂ => ?_
  rw [readBytes_length] at h₁
  simp only [readBytes, List.getElem_map, List.getElem_range, readByte, Nat.zero_add, h i h₁,
    Option.getD_some, imageByte]
  by_cases hi : i < headerSize
  · rw [if_pos hi, List.getElem_append_left (hlen ▸ hi), List.getD_eq_getElem _ _ (hlen ▸ hi)]
  · have hi' : i - headerSize < m.length := by omega
    rw [if_neg hi, if_pos hi', List.getElem_append_right (by omega), List.getD_eq_getElem _ _ hi']
    simp only [hlen]

/-- **A complete copy is valid, and reads as what was stored.** -/
theorem Holds.valid {f : Cells} {p : ℕ} {m : List UInt8} {serial : ℕ} (h : Holds f p m serial)
    (hpos : 0 < m.length) (hsize : m.length ≤ maxSize) (hserial : serial < 2 ^ 32) :
    PageValid f p ∧ pageSerial f p = serial ∧ payload f p = m := by
  have hread := h.read
  rw [← header_length m m.length serial, readBytes_eq_append, header_length, Nat.zero_add] at hread
  obtain ⟨hhead, hpay⟩ := hread
  have hmax : maxSize < 2 ^ 32 := by decide
  have h₁ : readBytes f p 0 12 = bytesLE eepromMagic ++ bytesLE serial ++ bytesLE m.length ∧
      readBytes f p 12 4 = bytesLE (checksum m serial).toNat := readBytes_split rfl rfl hhead
  have h₂ : readBytes f p 0 8 = bytesLE eepromMagic ++ bytesLE serial ∧
      readBytes f p 8 4 = bytesLE m.length := readBytes_split rfl rfl h₁.1
  have h₃ : readBytes f p 0 4 = bytesLE eepromMagic ∧ readBytes f p 4 4 = bytesLE serial :=
    readBytes_split rfl rfl h₂.1
  have hmagic' : pageMagic f p = eepromMagic := readWord_of_bytes h₃.1
  have hser' : pageSerial f p = serial := by
    rw [pageSerial, readWord_of_bytes h₃.2, Nat.mod_eq_of_lt hserial]
  have hsz' : payloadSize f p = m.length := by
    rw [payloadSize, readWord_of_bytes h₂.2, Nat.mod_eq_of_lt (by omega)]
  have hcheck' : pageCheck f p = (checksum m serial).toNat := by
    rw [pageCheck, readWord_of_bytes h₁.2, Nat.mod_eq_of_lt (checksum m serial).toNat_lt]
  have hpay' : payload f p = m := by
    rw [payload, hsz', hpay]
  refine ⟨⟨?_, ?_, ?_⟩, hser', hpay'⟩
  · rw [hmagic']
    decide
  · rw [hsz']
    omega
  · rw [hpay', hser', hcheck']

/-! ### Stopping anywhere -/

/-- No operation on a page touches another. -/
theorem PageOp.run_frame {p q : ℕ} (hq : q ≠ p) (f : Cells) (op : PageOp) (o : ℕ) :
    op.run p f q o = f q o := by
  cases op with
  | erase off len => exact if_neg fun h => hq h.1
  | program off data => exact program_frame f p off data .done fun h => hq h.1

/-- What a list of operations comes to: `J` holds of what was left to do, and of the flash. -/
structure Stopped (J : List PageOp → Cells → Prop) (r : Cells × Progress) : Prop where
  finished : r.2 = .finished → J [] r.1
  refused : r.2 = .refused → ∃ op ops, J (op :: ops) r.1
  lost : r.2 = .lost → ∃ ops, J ops r.1

/-- **The rule for stopping anywhere**: what holds of the operations to be done, and is passed on
by each of them, holds wherever the list stops. -/
theorem carryOut_rule {p : ℕ} {J : List PageOp → Cells → Prop}
    (hJ : ∀ op ops f, J (op :: ops) f → op.ok p f = true ∧ J ops (op.run p f)) :
    ∀ (ops : List PageOp) (fault : Fault) (f : Cells),
      J ops f → Stopped J (carryOut p fault f ops) := by
  intro ops
  induction ops with
  | nil =>
    intro fault f h
    refine ⟨fun _ => h, fun hr => ?_, fun _ => ⟨[], h⟩⟩
    cases fault <;> exact nomatch hr
  | cons op ops ih =>
    intro fault f h
    unfold carryOut
    obtain ⟨hok, hrun⟩ := hJ op ops f h
    split_ifs
    · exact ⟨nofun, fun _ => ⟨op, ops, h⟩, nofun⟩
    · exact ⟨nofun, nofun, fun _ => ⟨op :: ops, h⟩⟩
    · exact ih fault.later _ hrun

/-- Without a fault, a list whose operations succeed is carried out. -/
theorem carryOut_nothing {p : ℕ} {J : List PageOp → Cells → Prop}
    (hJ : ∀ op ops f, J (op :: ops) f → op.ok p f = true ∧ J ops (op.run p f)) :
    ∀ (ops : List PageOp) (f : Cells), J ops f → (carryOut p .nothing f ops).2 = .finished := by
  intro ops
  induction ops with
  | nil => exact fun _ _ => rfl
  | cons op ops ih =>
    intro f h
    obtain ⟨hok, hrun⟩ := hJ op ops f h
    unfold carryOut
    rw [if_neg (by decide), if_neg (by decide), if_pos hok]
    exact ih _ hrun

/-! ### The two halves of a commit -/

/-- The first `i` erases of page `p` are done. -/
structure Erasing (cap : Capacity) (p : ℕ) (f₀ : Cells) (i : ℕ) (f : Cells) : Prop where
  frame : ∀ q ≠ p, ∀ o, f q o = f₀ q o
  erased : ∀ o < i * cap.flashPageSize, f p o = none
  start : i = 0 → f = f₀

/-- The programs of page `p` from number `n` on are done. -/
structure Programming (p : ℕ) (f₀ : Cells) (h m : List UInt8) (size n : ℕ) (f : Cells) : Prop where
  frame : ∀ q ≠ p, ∀ o, f q o = f₀ q o
  erased : ∀ o < n * progSize, f p o = none
  image : ∀ o, n * progSize ≤ o → o < progPages size * progSize →
    f p o = some (imageByte h m size o)

theorem progBuffer_length (h m : List UInt8) (size page : ℕ) :
    (progBuffer h m size page).length = progSize := by
  simp [progBuffer]

theorem progBuffer_getD (h m : List UInt8) (size page : ℕ) {i : ℕ} (hi : i < progSize) :
    (progBuffer h m size page).getD i 0 = imageByte h m size (page * progSize + i) := by
  rw [List.getD_eq_getElem _ _ (by rwa [progBuffer_length])]
  simp [progBuffer, imageByte]

/-- The programs still to be done when `n` are left. -/
def programsLeft (h m : List UInt8) (size n : ℕ) : List PageOp :=
  (List.range n).reverse.map fun page =>
    .program (page * progSize) (progBuffer h m size page)

theorem programsLeft_succ (h m : List UInt8) (size n : ℕ) :
    programsLeft h m size (n + 1) =
      .program (n * progSize) (progBuffer h m size n) :: programsLeft h m size n := by
  simp [programsLeft, List.range_succ]

theorem programOps_eq (h m : List UInt8) (size : ℕ) :
    programOps h m size = programsLeft h m size (progPages size) := rfl

/-- The erases still to be done after the first `i`. -/
def erasesLeft (cap : Capacity) (i : ℕ) : List PageOp :=
  (List.range' i (pageSize / cap.flashPageSize - i)).map fun i =>
    .erase (i * cap.flashPageSize) cap.flashPageSize

theorem erasesLeft_cons {cap : Capacity} {i : ℕ} (hi : i < pageSize / cap.flashPageSize) :
    erasesLeft cap i =
      .erase (i * cap.flashPageSize) cap.flashPageSize :: erasesLeft cap (i + 1) := by
  have hn : pageSize / cap.flashPageSize - i = pageSize / cap.flashPageSize - (i + 1) + 1 := by
    omega
  unfold erasesLeft
  rw [hn, List.range'_succ, List.map_cons]

theorem erasesLeft_end (cap : Capacity) :
    erasesLeft cap (pageSize / cap.flashPageSize) = [] := by
  simp [erasesLeft]

theorem eraseOps_eq (cap : Capacity) : eraseOps cap = erasesLeft cap 0 := by
  unfold eraseOps erasesLeft
  rw [List.range_eq_range', Nat.sub_zero]

section

variable {cap : Capacity} {p : ℕ} {f₀ f : Cells} {h m : List UInt8} {size i n : ℕ}

/-- One erase. -/
theorem Erasing.run (hf : Erasing cap p f₀ i f) :
    Erasing cap p f₀ (i + 1)
      (PageOp.run p f (.erase (i * cap.flashPageSize) cap.flashPageSize)) where
  frame q hq o := by rw [PageOp.run_frame hq, hf.frame q hq o]
  erased o ho := by
    rw [Nat.add_mul, Nat.one_mul] at ho
    unfold PageOp.run
    by_cases hlt : o < i * cap.flashPageSize
    · simp only [hf.erased o hlt, ite_self]
    · exact if_pos ⟨rfl, by omega, by omega⟩
  start := nofun

/-- When all of the page is erased, the programs begin. -/
theorem Erasing.programming (hf : Erasing cap p f₀ (pageSize / cap.flashPageSize) f)
    (hsize : size ≤ maxSize) : Programming p f₀ h m size (progPages size) f where
  frame := hf.frame
  erased o ho := by
    have hfit : progPages size * progSize ≤ pageSize := by
      have hmax : maxSize = 8176 := rfl
      simp only [progPages, progSize, headerSize, pageSize]
      omega
    have hunits : pageSize / cap.flashPageSize * cap.flashPageSize = pageSize := by
      cases cap <;> rfl
    exact hf.erased o (by omega)
  image o ho ho' := absurd ho' (by omega)

/-- One program. -/
theorem Programming.run (hf : Programming p f₀ h m size (n + 1) f) :
    PageOp.ok p f (.program (n * progSize) (progBuffer h m size n)) = true ∧
      Programming p f₀ h m size n
        (PageOp.run p f (.program (n * progSize) (progBuffer h m size n))) := by
  have hlen := progBuffer_length h m size n
  have herased : ∀ o, n * progSize ≤ o → o < n * progSize + (progBuffer h m size n).length →
      f p o = none := fun o _ ho => hf.erased o (by rw [Nat.add_mul]; omega)
  refine ⟨programOk_done_erased herased, fun q hq o => ?_, fun o ho => ?_, fun o ho ho' => ?_⟩
  · rw [PageOp.run_frame hq, hf.frame q hq o]
  · have hout : ¬ InRange p (n * progSize) (progBuffer h m size n).length p o :=
      fun hin => absurd hin.2.1 (by omega)
    rw [PageOp.run, program_frame f p _ _ _ hout]
    exact hf.erased o (by rw [Nat.add_mul]; omega)
  · rw [PageOp.run]
    by_cases hin : o < n * progSize + progSize
    · rw [program_done_erased herased ho (by omega), progBuffer_getD _ _ _ _ (by omega),
        Nat.add_sub_cancel' ho]
    · rw [program_frame f p _ _ _ fun hr => absurd hr.2.2 (by omega)]
      exact hf.image o (by rw [Nat.add_mul]; omega) ho'

/-- What is known in the middle of a commit, with the operations `rest` still to be done. -/
def Midway (cap : Capacity) (p : ℕ) (f₀ : Cells) (h m : List UInt8) (size : ℕ)
    (rest : List PageOp) (f : Cells) : Prop :=
  (∃ i < pageSize / cap.flashPageSize,
    rest = erasesLeft cap i ++ programOps h m size ∧ Erasing cap p f₀ i f) ∨
  ∃ n ≤ progPages size, rest = programsLeft h m size n ∧ Programming p f₀ h m size n f

theorem Midway.begin (cap : Capacity) (p : ℕ) (f₀ : Cells) (h m : List UInt8) (size : ℕ) :
    Midway cap p f₀ h m size (eraseOps cap ++ programOps h m size) f₀ := by
  refine .inl ⟨0, by cases cap <;> decide, by rw [eraseOps_eq], fun _ _ _ => rfl, ?_, fun _ => rfl⟩
  exact fun o ho => absurd ho (by omega)

/-- Every operation of a commit succeeds, and leads on in the middle of it. -/
theorem Midway.step (hsize : size ≤ maxSize) (op : PageOp) (ops : List PageOp) (f : Cells)
    (hf : Midway cap p f₀ h m size (op :: ops) f) :
    op.ok p f = true ∧ Midway cap p f₀ h m size ops (op.run p f) := by
  rcases hf with ⟨i, hi, hrest, herase⟩ | ⟨n, hn, hrest, hprog⟩
  · rw [erasesLeft_cons hi, List.cons_append, List.cons.injEq] at hrest
    obtain ⟨rfl, rfl⟩ := hrest
    refine ⟨rfl, ?_⟩
    rcases Nat.lt_or_eq_of_le hi with hlt | heq
    · exact .inl ⟨i + 1, hlt, rfl, herase.run⟩
    · -- the last erase: what is left are the programs
      have hrun := herase.run
      rw [Nat.succ_eq_add_one] at heq
      rw [heq] at hrun
      refine .inr ⟨progPages size, Nat.le_refl _, ?_, hrun.programming hsize⟩
      rw [heq, erasesLeft_end, List.nil_append, programOps_eq]
  · cases n with
    | zero => simp [programsLeft] at hrest
    | succ n =>
      rw [programsLeft_succ, List.cons.injEq] at hrest
      obtain ⟨rfl, rfl⟩ := hrest
      exact ⟨hprog.run.1, .inr ⟨n, by omega, rfl, hprog.run.2⟩⟩

theorem Midway.frame {rest : List PageOp} (hf : Midway cap p f₀ h m size rest f) {q : ℕ}
    (hq : q ≠ p) (o : ℕ) : f q o = f₀ q o := by
  rcases hf with ⟨i, -, -, herase⟩ | ⟨n, -, -, hprog⟩
  · exact herase.frame q hq o
  · exact hprog.frame q hq o

/-- A page whose first word is erased is not valid. -/
theorem not_pageValid_of_erased (hf : ∀ o < 4, f p o = none) : ¬ PageValid f p := by
  intro hv
  apply hv.1
  left
  unfold pageMagic readWord readByte
  rw [hf 0 (by decide), hf (0 + 1) (by decide), hf (0 + 2) (by decide), hf (0 + 3) (by decide)]
  rfl

/-- Before its last operation, a commit has spoiled the page at most. -/
theorem Midway.spoiled {op : PageOp} {ops : List PageOp}
    (hf : Midway cap p f₀ h m size (op :: ops) f) : Spoiled f₀ f p := by
  rcases hf with ⟨i, -, -, herase⟩ | ⟨n, -, hrest, hprog⟩
  · by_cases hi : i = 0
    · exact .inl fun o _ => by rw [herase.start hi]
    · refine .inr (not_pageValid_of_erased fun o ho => herase.erased o ?_)
      have hunit : 4 ≤ cap.flashPageSize := by cases cap <;> decide
      have : cap.flashPageSize ≤ i * cap.flashPageSize :=
        Nat.le_mul_of_pos_left _ (Nat.pos_of_ne_zero hi)
      omega
  · refine .inr (not_pageValid_of_erased fun o ho => hprog.erased o ?_)
    -- the program of the header is the last one
    have hn : n ≠ 0 := by
      rintro rfl
      simp [programsLeft] at hrest
    have : progSize ≤ n * progSize := Nat.le_mul_of_pos_left _ (Nat.pos_of_ne_zero hn)
    have : progSize = 256 := rfl
    omega

/-- After its last operation, the page holds the copy. -/
theorem Midway.holds {serial : ℕ}
    (hf : Midway cap p f₀ (header m m.length serial) m m.length [] f) :
    Holds f p m serial := by
  have hpages : headerSize + m.length ≤ progPages m.length * progSize := by
    simp only [progPages, progSize, headerSize]
    omega
  rcases hf with ⟨i, hi, hrest, -⟩ | ⟨n, -, hrest, hprog⟩
  · rw [erasesLeft_cons hi] at hrest
    cases hrest
  · cases n with
    | zero => exact fun o ho => hprog.image o (by omega) (by omega)
    | succ n =>
      rw [programsLeft_succ] at hrest
      cases hrest

end

/-- **A commit, stopped anywhere**: the other page is untouched; a commit that finishes has left
the copy, one that is refused has spoiled the page at most, and one that the power ends has done
the one or the other. -/
theorem carryOut_commit (cap : Capacity) (p : ℕ) (f₀ : Cells) (m : List UInt8) (serial : ℕ)
    (hsize : m.length ≤ maxSize) (fault : Fault) :
    let r := carryOut p fault f₀
      (eraseOps cap ++ programOps (header m m.length serial) m m.length)
    (∀ q ≠ p, ∀ o, r.1 q o = f₀ q o) ∧ (r.2 = .finished → Holds r.1 p m serial) ∧
      (r.2 = .refused → Spoiled f₀ r.1 p) ∧
      (r.2 = .lost → Holds r.1 p m serial ∨ Spoiled f₀ r.1 p) := by
  intro r
  have hstop : Stopped (Midway cap p f₀ (header m m.length serial) m m.length) r :=
    carryOut_rule (Midway.step hsize) _ fault f₀ (Midway.begin ..)
  refine ⟨fun q hq o => ?_, fun hr => (hstop.finished hr).holds, fun hr => ?_, fun hr => ?_⟩
  · cases hr : r.2 with
    | finished => exact (hstop.finished hr).frame hq o
    | refused =>
      obtain ⟨op, ops, hmid⟩ := hstop.refused hr
      exact hmid.frame hq o
    | lost =>
      obtain ⟨ops, hmid⟩ := hstop.lost hr
      exact hmid.frame hq o
  · obtain ⟨op, ops, hmid⟩ := hstop.refused hr
    exact hmid.spoiled
  · obtain ⟨ops, hmid⟩ := hstop.lost hr
    cases ops with
    | nil => exact .inl hmid.holds
    | cons op ops => exact .inr hmid.spoiled

/-- Without a fault, a commit finishes. -/
theorem carryOut_commit_nothing (cap : Capacity) (p : ℕ) (f₀ : Cells) (h m : List UInt8) {size : ℕ}
    (hsize : size ≤ maxSize) :
    (carryOut p .nothing f₀ (eraseOps cap ++ programOps h m size)).2 = .finished :=
  carryOut_nothing (Midway.step hsize) _ f₀ (Midway.begin cap p f₀ h m size)

end Ch32h4.Eeprom
