import Ch32h4.Flash.Equiv.Cleaning
import Ch32h4.Update.Equiv.Staging
import Ch32h4.Update.InPlace

/-!
# The image of the filesystem reaches the flash

`writtenInPlace_of_reachable`: in every run at whose steps the image fits the pages (`fitting`), the
driver is called with whole pages of the filesystem only, whatever the hardware does, and when `end`
returns true the image is in flash.  Otherwise `Writing.write_refused` says that an image that ends
within a page is given up, for all that `begin` accepts it, and `Writing.erase_behind` that a
`write` of nothing erases a page behind the filesystem; `not_writtenInPlace_of_reachable` is an
image of one byte.

`Writing` is the invariant while an update runs.  `_writeBuffer` keeps it because what the driver
calls change lies behind what is written (`Writing.driven`), and a write that the driver has
compared is there (`holds_program`).
-/

namespace Ch32h4.Update.InPlace

open Flash Updater Machine

/-! ### Bytes in flash -/

/-- The bytes are in the memory of the board, from an address on. -/
def Holds (s : Flash.Board) (a : ℕ) (bs : List UInt8) : Prop :=
  ∀ i (h : i < bs.length), s.mem (BitVec.ofNat 32 (a + i)) = bs[i]

section

variable {s s' : Flash.Board} {a : ℕ} {bs bs' : List UInt8}

theorem Holds.nil (s : Flash.Board) (a : ℕ) : Holds s a [] := by
  intro i hi
  cases hi

theorem Holds.append (h : Holds s a bs) (h' : Holds s (a + bs.length) bs') :
    Holds s a (bs ++ bs') := by
  intro i hi
  rw [List.length_append] at hi
  by_cases hlt : i < bs.length
  · rw [List.getElem_append_left hlt]
    exact h i hlt
  · rw [List.getElem_append_right (by omega)]
    have hi' := h' (i - bs.length) (by omega)
    rwa [Nat.add_assoc, Nat.add_sub_of_le (by omega)] at hi'

/-- What is not in the way of the bytes may change. -/
theorem Holds.congr (h : Holds s a bs) (hlt : a + bs.length ≤ 2 ^ 32)
    (hsame : ∀ x : Address, a ≤ x.toNat → x.toNat < a + bs.length → s'.mem x = s.mem x) :
    Holds s' a bs := by
  intro i hi
  have hx : (BitVec.ofNat 32 (a + i)).toNat = a + i := by
    rw [BitVec.toNat_ofNat]
    omega
  rw [hsame _ (by omega) (by omega)]
  exact h i hi

/-- A range of addresses that does not wrap. -/
theorem sub_lt_iff {len : ℕ} {x : Address} (h : a + len ≤ 2 ^ 32) :
    (x - BitVec.ofNat 32 a).toNat < len ↔ a ≤ x.toNat ∧ x.toNat < a + len := by
  have hx := x.isLt
  rw [BitVec.toNat_sub, BitVec.toNat_ofNat]
  omega

end

/-! ### The driver -/

section

variable {p : Setting} {st : State}

/-- What a call of the driver leaves alone. -/
structure Driven (p : Setting) (a len : ℕ) (st st' : State) : Prop where
  clean : Clean st'.flash
  mem : ∀ x : Address, p.board.fsStart ≤ x.toNat → x.toNat < p.board.fsEnd →
    ¬ (a ≤ x.toNat ∧ x.toNat < a + len) → st'.flash.mem x = st.flash.mem x
  u : st'.u = st.u
  done : st'.done = st.done

theorem driven_erase (h : Clean st.flash) {a len : ℕ} (hlt : a + len ≤ 2 ^ 32)
    (hlen : len < 2 ^ 32) : Driven p a len st (st.erase p a len).1 := by
  have hcall : CleansUp _ (BitVec.ofNat 32 a) (BitVec.ofNat 32 len).toNat st.flash
      (st.flash.flashErase p.controller p.park (BitVec.ofNat 32 a) (BitVec.ofNat 32 len)) :=
    cleansUp_flashErase h
  have hnat : (BitVec.ofNat 32 len).toNat = len := by
    rw [BitVec.toNat_ofNat, Nat.mod_eq_of_lt hlen]
  refine ⟨hcall.clean, fun x _ _ hx => hcall.outside x ?_, rfl, rfl⟩
  rwa [hnat, sub_lt_iff hlt]

/-- The page buffer is not in the filesystem. -/
theorem holding_mem {data : List UInt8} (hdata : data.length ≤ bufferSize) {x : Address}
    (hfrom : p.board.fsStart ≤ x.toNat) (hto : x.toNat < p.board.fsEnd) :
    (holding st.flash p.buffer data).mem x = st.flash.mem x := by
  refine if_neg fun hx => p.ram (x - p.buffer).toNat (Nat.lt_of_lt_of_le hx hdata) ?_
  have hback : p.buffer + BitVec.ofNat 32 (x - p.buffer).toNat = x := by bv_omega
  rw [hback]
  exact ⟨hfrom, hto⟩

theorem driven_program (h : Clean st.flash) {a : ℕ} {data : List UInt8}
    (hdata : data.length ≤ bufferSize) (hlt : a + data.length ≤ 2 ^ 32) :
    Driven p a data.length st (st.program p a data).1 := by
  have hheld : Clean (holding st.flash p.buffer data) := ⟨h.lock, h.flock, h.unparked⟩
  have hcall : CleansUp progPage (BitVec.ofNat 32 a) (BitVec.ofNat 32 data.length).toNat
      (holding st.flash p.buffer data)
      ((holding st.flash p.buffer data).flashWrite p.controller p.park (BitVec.ofNat 32 a)
        p.buffer (BitVec.ofNat 32 data.length)) := cleansUp_flashWrite hheld
  have hnat : (BitVec.ofNat 32 data.length).toNat = data.length := by
    rw [BitVec.toNat_ofNat]
    unfold bufferSize at hdata
    omega
  refine ⟨hcall.clean, fun x hfrom hto hx => ?_, rfl, rfl⟩
  refine (hcall.outside x ?_).trans (holding_mem hdata hfrom hto)
  rwa [hnat, sub_lt_iff hlt]

/-- **A write that returns true has written**: the page buffer is not in its way, so it still holds
the data when the driver compares. -/
theorem holds_program (h : Clean st.flash) {a : ℕ} {data : List UInt8}
    (hdata : data.length ≤ bufferSize) (hfrom : p.board.fsStart ≤ a)
    (hto : a + data.length ≤ p.board.fsEnd) (hok : (st.program p a data).2 = true) :
    Holds (st.program p a data).1.flash a data := by
  have hend := p.board.fsEnd_lt
  have hheld : Clean (holding st.flash p.buffer data) := ⟨h.lock, h.flock, h.unparked⟩
  have hcall : CleansUp progPage (BitVec.ofNat 32 a) (BitVec.ofNat 32 data.length).toNat
      (holding st.flash p.buffer data)
      ((holding st.flash p.buffer data).flashWrite p.controller p.park (BitVec.ofNat 32 a)
        p.buffer (BitVec.ofNat 32 data.length)) := cleansUp_flashWrite hheld
  have hsame := sameBytes_of_flashWrite hok
  have hnat : (BitVec.ofNat 32 data.length).toNat = data.length := by
    rw [BitVec.toNat_ofNat]
    unfold bufferSize at hdata
    omega
  rw [hnat] at hcall hsame
  intro i hi
  have hi' : i < bufferSize := Nat.lt_of_lt_of_le hi hdata
  have hcmp := eq_of_beq (List.all_eq_true.mp hsame i (List.mem_range.mpr hi))
  have hout : ¬ (p.buffer + BitVec.ofNat 32 i - BitVec.ofNat 32 a).toNat < data.length := by
    rw [sub_lt_iff (by omega)]
    intro hin
    exact p.ram i hi' ⟨by omega, by omega⟩
  rw [hcall.outside _ hout] at hcmp
  have hoff : (p.buffer + BitVec.ofNat 32 i - p.buffer).toNat = i := by
    unfold bufferSize at hi'
    bv_omega
  have hbyte : (holding st.flash p.buffer data).mem (p.buffer + BitVec.ofNat 32 i) = data[i] := by
    show (if (p.buffer + BitVec.ofNat 32 i - p.buffer).toNat < data.length then _ else _) = _
    rw [hoff, if_pos hi, List.getD_eq_getElem data 0 hi]
  rw [BitVec.ofNat_add]
  exact hcmp.trans hbyte

/-! ### The invariant -/

/-- The flash is locked, and the driver was called with whole pages of the filesystem. -/
structure Fine (p : Setting) (st : State) : Prop where
  clean : Clean st.flash
  calls : ∀ call ∈ st.calls, call.Inside p.board ∧ call.Whole p.board

/-- An update of `n` bytes runs, of which the first ones are in flash and the next ones in the page
buffer. -/
structure Writing (p : Setting) (n : ℕ) (written : List UInt8) (st : State) : Prop where
  fine : Fine p st
  command : st.u.command = .fs
  error : st.u.error = .ok
  staging : st.u.staging = none
  start : st.u.startAddress = p.board.fsStart
  size : st.u.size = n
  pos : 0 < n
  region : p.board.fsStart + n ≤ p.board.fsEnd
  current : st.u.currentAddress = p.board.fsStart + written.length
  fits : written.length + st.u.buffer.length ≤ n
  buffer_le : st.u.buffer.length ≤ bufferSize
  whole : 256 ∣ written.length
  holds : Holds st.flash p.board.fsStart written
  done : st.done = false

/-- The update was given up. -/
structure Gone (p : Setting) (st : State) : Prop where
  fine : Fine p st
  size : st.u.size = 0
  command : st.u.command = .flash
  staging : st.u.staging = none
  progress : st.u.progress = 0
  done : st.done = false

theorem Fine.append {call : Call} {st' : State} (h : Fine p st) (hclean : Clean st'.flash)
    (hcalls : st'.calls = st.calls ++ [call]) (hin : call.Inside p.board)
    (hwhole : call.Whole p.board) : Fine p st' := by
  refine ⟨hclean, fun c hc => ?_⟩
  rw [hcalls] at hc
  rcases List.mem_append.mp hc with hc | hc
  · exact h.calls c hc
  · rw [List.mem_singleton.mp hc]
    exact ⟨hin, hwhole⟩

theorem pageSize_dvd (c : Capacity) : c.flashPageSize ∣ 8192 := by
  cases c <;> decide

/-- The filesystem ends with a page, so a page that begins in it lies in it. -/
theorem Fine.erase (h : Fine p st) {a : ℕ} (hfrom : p.board.fsStart ≤ a) (hto : a < p.board.fsEnd)
    (hpage : a % p.board.capacity.flashPageSize = 0) :
    Fine p (st.erase p a p.board.capacity.flashPageSize).1 ∧
      a + p.board.capacity.flashPageSize ≤ p.board.fsEnd := by
  have hpos := p.board.capacity.flashPageSize_pos
  have hle : p.board.capacity.flashPageSize ≤ 8192 :=
    Nat.le_of_dvd (by decide) (pageSize_dvd _)
  have hlt := p.board.fsEnd_lt
  have hend : p.board.capacity.flashPageSize ∣ p.board.fsEnd - a :=
    Nat.dvd_sub (Nat.dvd_trans (pageSize_dvd _) p.end_dvd) (Nat.dvd_of_mod_eq_zero hpage)
  have hroom : p.board.capacity.flashPageSize ≤ p.board.fsEnd - a :=
    Nat.le_of_dvd (by omega) hend
  have hdriven : Driven p a _ st (st.erase p a p.board.capacity.flashPageSize).1 :=
    driven_erase h.clean (by omega) (by omega)
  refine ⟨h.append hdriven.clean rfl ⟨hfrom, by omega⟩ ⟨by omega, ?_, dvd_refl _⟩, by omega⟩
  exact Nat.dvd_of_mod_eq_zero hpage

theorem Fine.program (h : Fine p st) {a : ℕ} {data : List UInt8}
    (hdata : data.length ≤ bufferSize) (hfrom : p.board.fsStart ≤ a)
    (hto : a + data.length ≤ p.board.fsEnd) (ha : 256 ∣ a) (hlen : 256 ∣ data.length) :
    Fine p (st.program p a data).1 := by
  have hlt := p.board.fsEnd_lt
  have hdriven : Driven p a data.length st (st.program p a data).1 :=
    driven_program h.clean hdata (by omega)
  exact h.append hdriven.clean rfl ⟨hfrom, hto⟩ (.inr ⟨ha, hlen⟩)

/-- A call of the driver behind what is written. -/
theorem Writing.driven {n : ℕ} {written : List UInt8} {st' : State} (h : Writing p n written st)
    {a len : ℕ} (hdriven : Driven p a len st st') (ha : p.board.fsStart + written.length ≤ a)
    (hfine : Fine p st') : Writing p n written st' := by
  have hlt := p.board.fsEnd_lt
  have hregion := h.region
  have hfits := h.fits
  have hholds : Holds st'.flash p.board.fsStart written := by
    refine h.holds.congr (by omega) fun x hfrom hto => ?_
    exact hdriven.mem x hfrom (by omega) (by omega)
  have hu := hdriven.u
  exact ⟨hfine, hu ▸ h.command, hu ▸ h.error, hu ▸ h.staging, hu ▸ h.start, hu ▸ h.size, h.pos,
    h.region, hu ▸ h.current, hu ▸ h.fits, hu ▸ h.buffer_le, h.whole, hholds,
    hdriven.done.trans h.done⟩

theorem Writing.gone {n : ℕ} {written : List UInt8} (h : Writing p n written st) (e : Error) :
    Gone p { st with u := st.u.setError e } := by
  refine ⟨⟨h.fine.clean, h.fine.calls⟩, rfl, rfl, ?_, rfl, h.done⟩
  show (if st.u.staged then st.u.staging else none) = none
  rw [h.staging]
  split_ifs <;> rfl

/-- The page that the first bytes go to is erased. -/
theorem Writing.erase {n : ℕ} {written : List UInt8} (h : Writing p n written st)
    (hin : st.u.currentAddress < p.board.fsEnd) :
    let r := if st.u.currentAddress % p.board.capacity.flashPageSize = 0 then
      st.erase p st.u.currentAddress p.board.capacity.flashPageSize else (st, true)
    Writing p n written r.1 ∧ r.1.u = st.u := by
  have hcurrent := h.current
  have hlt := p.board.fsEnd_lt
  dsimp only
  split_ifs with hpage
  · obtain ⟨hfine, hle⟩ := h.fine.erase (by omega) hin hpage
    have hpos := p.board.capacity.flashPageSize_pos
    have hdriven : Driven p _ _ st
        (st.erase p st.u.currentAddress p.board.capacity.flashPageSize).1 :=
      driven_erase h.fine.clean (by omega) (by omega)
    exact ⟨h.driven hdriven (by omega) hfine, rfl⟩
  · exact ⟨h, rfl⟩

/-- The page buffer is programmed. -/
theorem Writing.program {n : ℕ} {written : List UInt8} (h : Writing p n written st)
    (hlen : 256 ∣ st.u.buffer.length) :
    Writing p n written (st.program p st.u.currentAddress st.u.buffer).1 ∧
      ((st.program p st.u.currentAddress st.u.buffer).2 = true →
        Holds (st.program p st.u.currentAddress st.u.buffer).1.flash p.board.fsStart
          (written ++ st.u.buffer)) := by
  have hcurrent := h.current
  have hregion := h.region
  have hfits := h.fits
  have hlt := p.board.fsEnd_lt
  have hdriven : Driven p _ _ st (st.program p st.u.currentAddress st.u.buffer).1 :=
    driven_program h.fine.clean h.buffer_le (by omega)
  have ha : 256 ∣ st.u.currentAddress := by
    rw [hcurrent]
    exact Nat.dvd_add (Nat.dvd_trans ⟨32, rfl⟩ p.start_dvd) h.whole
  have hfine : Fine p (st.program p st.u.currentAddress st.u.buffer).1 :=
    h.fine.program h.buffer_le (by omega) (by omega) ha hlen
  have hwriting := h.driven hdriven (by omega) hfine
  refine ⟨hwriting, fun hok => hwriting.holds.append ?_⟩
  have hheld := holds_program h.fine.clean h.buffer_le (by omega) (by omega) hok
  rwa [hcurrent] at hheld ⊢

/-- **Writing out the page buffer**, if it holds whole pages: it is in flash behind the others, or
the update is given up. -/
theorem Writing.writeBuffer {n : ℕ} {written : List UInt8} (h : Writing p n written st)
    (hlen : 256 ∣ st.u.buffer.length)
    (hroom : st.u.buffer = [] → p.board.fsStart + written.length ≠ p.board.fsEnd) :
    ((st.writeBuffer p).2 = true ∧
        Writing p n (written ++ st.u.buffer) (st.writeBuffer p).1 ∧
        (st.writeBuffer p).1.u.buffer = []) ∨
      ((st.writeBuffer p).2 = false ∧ Gone p (st.writeBuffer p).1) := by
  have hnot : st.u.command ≠ .flash := by
    rw [h.command]
    exact Command.noConfusion
  have hfits := h.fits
  have hregion := h.region
  have hcurrent := h.current
  have hin : st.u.currentAddress < p.board.fsEnd := by
    by_cases hnil : st.u.buffer = []
    · have := hroom hnil
      omega
    · have := List.length_pos_iff.mpr hnil
      omega
  obtain ⟨herase, hu⟩ := h.erase hin
  unfold State.writeBuffer
  rw [if_neg hnot]
  dsimp only at herase hu ⊢
  generalize (if st.u.currentAddress % p.board.capacity.flashPageSize = 0 then
    st.erase p st.u.currentAddress p.board.capacity.flashPageSize else (st, true)) = r
    at herase hu ⊢
  rw [← hu] at hlen hfits hcurrent ⊢
  obtain ⟨hprogram, hholds⟩ := herase.program hlen
  by_cases hno : ¬ r.2 = true
  · rw [if_pos hno]
    exact .inr ⟨rfl, herase.gone _⟩
  rw [if_neg hno]
  by_cases hno' : ¬ (r.1.program p r.1.u.currentAddress r.1.u.buffer).2 = true
  · rw [if_pos hno']
    exact .inr ⟨rfl, hprogram.gone _⟩
  · rw [if_neg hno']
    have hok := not_not.mp hno'
    refine .inl ⟨rfl, ⟨⟨hprogram.fine.clean, hprogram.fine.calls⟩, hprogram.command,
      hprogram.error, hprogram.staging, hprogram.start, hprogram.size, h.pos, h.region, ?_, ?_,
      Nat.zero_le _, ?_, hholds hok, hprogram.done⟩, rfl⟩
    · show r.1.u.currentAddress + r.1.u.buffer.length = _
      rw [hcurrent, List.length_append]
      omega
    · rw [List.length_append]
      exact hfits
    · rw [List.length_append]
      exact Nat.dvd_add h.whole hlen

/-! ### `write` -/

variable {n : ℕ} {written : List UInt8}

theorem Writing.store (h : Writing p n written st) (bs : List UInt8)
    (hfits : written.length + st.u.buffer.length + bs.length ≤ n)
    (hle : st.u.buffer.length + bs.length ≤ bufferSize) : Writing p n written (st.store bs) := by
  have hlen : (st.store bs).u.buffer.length = st.u.buffer.length + bs.length :=
    List.length_append
  exact ⟨⟨h.fine.clean, h.fine.calls⟩, h.command, h.error, h.staging, h.start, h.size, h.pos,
    h.region, h.current, by omega, by omega, h.whole, h.holds, h.done⟩

/-- What remains, to be written out or received. -/
theorem Writing.remaining (h : Writing p n written st) :
    st.u.remaining = n - written.length := by
  have hfits := h.fits
  have hregion := h.region
  have hlt := p.board.fsEnd_lt
  have hprog : st.u.progress = written.length := by
    rw [Updater.progress, h.current, h.start]
    omega
  unfold Updater.remaining sizeSub
  rw [hprog, h.size]
  omega

/-- The loop of `write` writes out full pages; what it leaves fits the page buffer, and is not
nothing unless it was given nothing. -/
theorem writeLoop_spec (k : ℕ) : ∀ (st : State) (written left : List UInt8),
    Writing p n written st → written.length + st.u.buffer.length + left.length ≤ n →
      st.u.buffer.length + left.length ≤ bufferSize * (k + 1) →
        ((State.writeLoop p k st left).2.2 = true ∧ ∃ written',
          Writing p n written' (State.writeLoop p k st left).1 ∧
          written' ++ (State.writeLoop p k st left).1.u.buffer ++
            (State.writeLoop p k st left).2.1 = written ++ st.u.buffer ++ left ∧
          (State.writeLoop p k st left).1.u.buffer.length +
            (State.writeLoop p k st left).2.1.length ≤ bufferSize ∧
          (left ≠ [] → (State.writeLoop p k st left).2.1 ≠ [])) ∨
        ((State.writeLoop p k st left).2.2 = false ∧
          Gone p (State.writeLoop p k st left).1) := by
  induction k with
  | zero =>
    intro st written left h _ htotal
    rw [Nat.zero_add, Nat.mul_one] at htotal
    exact .inl ⟨rfl, written, h, rfl, htotal, id⟩
  | succ k ih =>
    intro st written left h hfits htotal
    have hbuf := h.buffer_le
    unfold State.writeLoop
    split_ifs with hover
    · dsimp only
      set m := bufferSize - st.u.buffer.length with hm
      have htake : (left.take m).length = m := List.length_take_of_le (by omega)
      have hdrop : (left.drop m).length = left.length - m := List.length_drop
      have hstore := h.store (left.take m) (by omega) (by omega)
      have hfull : (st.store (left.take m)).u.buffer = st.u.buffer ++ left.take m := rfl
      have hfulllen : (st.store (left.take m)).u.buffer.length = bufferSize := by
        rw [hfull, List.length_append]
        omega
      have hpages : 256 ∣ (st.store (left.take m)).u.buffer.length := by
        rw [hfulllen]
        decide
      have hsome : (st.store (left.take m)).u.buffer ≠ [] := by
        intro hnil
        rw [hnil] at hfulllen
        exact absurd hfulllen (by decide)
      rcases hstore.writeBuffer hpages (fun hnil => absurd hnil hsome) with
        ⟨hok, hwriting, hempty⟩ | ⟨hno, hgone⟩
      · rw [if_pos hok]
        have hlen : (written ++ (st.store (left.take m)).u.buffer).length =
            written.length + bufferSize := by
          rw [List.length_append, hfulllen]
        have hrest := ih _ _ (left.drop m) hwriting
          (by rw [hempty, hlen, List.length_nil]; omega)
          (by rw [hempty, List.length_nil]; rw [Nat.mul_add bufferSize (k + 1) 1] at htotal; omega)
        rcases hrest with ⟨hok', written', hw, hall, hle, hne⟩ | hgone
        · refine .inl ⟨hok', written', hw, ?_, hle, fun _ => hne ?_⟩
          · rw [hall, hempty, hfull, List.append_nil, List.append_assoc, List.append_assoc,
              List.take_append_drop, List.append_assoc]
          · exact List.ne_nil_of_length_pos (by omega)
        · exact .inr hgone
      · rw [if_neg (by rw [hno]; exact Bool.false_ne_true)]
        exact .inr ⟨rfl, hgone⟩
    · exact .inl ⟨rfl, written, h, rfl, Nat.le_of_not_gt hover, id⟩

/-- `write` gives the update up, or it comes to its last lines, with the rest of the data in the
page buffer. -/
theorem Writing.write_cases (h : Writing p n written st) (data : List UInt8) :
    Gone p (st.write p data).1 ∨ ∃ written' st' k, Writing p n written' st' ∧
      written' ++ st'.u.buffer = written ++ st.u.buffer ++ data ∧
      (data ≠ [] → st'.u.buffer ≠ []) ∧
      st.write p data = if st'.u.buffer.length = n - written'.length then
        ((st'.writeBuffer p).1, if (st'.writeBuffer p).2 then data.length else k)
      else (st', data.length) := by
  have hfits := h.fits
  have hbuf := h.buffer_le
  have hprog : st.u.progress = written.length := by
    rw [Updater.progress, h.current, h.start]
    omega
  have hrun : ¬ (st.u.error ≠ .ok ∨ ¬ st.u.isRunning) := by
    rw [h.error, isRunning, h.size]
    simpa using Nat.pos_iff_ne_zero.mp h.pos
  unfold State.write
  rw [if_neg hrun]
  by_cases hover : st.u.progress + st.u.buffer.length + data.length > st.u.size
  · rw [if_pos hover]
    exact .inl (h.gone _)
  rw [if_neg hover]
  rw [hprog, h.size] at hover
  dsimp only
  have htotal : st.u.buffer.length + data.length ≤ bufferSize * (data.length + 1 + 1) := by
    unfold bufferSize at hbuf ⊢
    omega
  rcases writeLoop_spec (data.length + 1) st written data h (by omega) htotal with
    ⟨hok, written', hw, hall, hle, hne⟩ | ⟨hno, hgone⟩
  · generalize State.writeLoop p (data.length + 1) st data = r at hok hw hall hle hne ⊢
    have hlen := congrArg List.length hall
    simp only [List.length_append] at hlen
    have hstore := hw.store r.2.1 (by omega) hle
    have hbuffer : (r.1.store r.2.1).u.buffer = r.1.u.buffer ++ r.2.1 := rfl
    refine .inr ⟨written', r.1.store r.2.1, data.length - r.2.1.length, hstore, ?_, ?_, ?_⟩
    · rw [hbuffer, ← List.append_assoc, hall]
    · intro hsome hnil
      exact hne hsome (List.append_eq_nil_iff.mp hnil).2
    · rw [if_neg (by rw [hok]; simp), hstore.remaining]
      split_ifs <;> rfl
  · rw [if_pos (by rw [hno]; simp)]
    exact .inl hgone

/-- **`write`** takes all of its data, or the update is given up. -/
theorem Writing.write (h : Writing p n written st) (data : List UInt8)
    (hwhole : written.length + st.u.buffer.length + data.length = n →
      256 ∣ n ∧ (data = [] → p.board.fsStart + n ≠ p.board.fsEnd)) :
    ((st.write p data).2 = data.length ∧ ∃ written',
        Writing p n written' (st.write p data).1 ∧
        written' ++ (st.write p data).1.u.buffer = written ++ st.u.buffer ++ data) ∨
      Gone p (st.write p data).1 := by
  rcases h.write_cases data with hgone | ⟨written', st', k, hw, hall, hsome, heq⟩
  · exact .inr hgone
  have hfits := hw.fits
  have hlen := congrArg List.length hall
  simp only [List.length_append] at hlen
  rw [heq]
  by_cases hlast : st'.u.buffer.length = n - written'.length
  · rw [if_pos hlast]
    obtain ⟨hn, hroom⟩ := hwhole (by omega)
    have hpages : 256 ∣ st'.u.buffer.length := by
      rw [hlast]
      exact Nat.dvd_sub hn hw.whole
    -- an empty page buffer means that there was nothing to write
    have hempty : st'.u.buffer = [] → p.board.fsStart + written'.length ≠ p.board.fsEnd := by
      intro hnil
      have hdata : data = [] := by
        by_contra hne
        exact hsome hne hnil
      have hend := hroom hdata
      rw [hnil, List.length_nil] at hlast hfits
      have hn' : written'.length = n := by omega
      rwa [hn']
    rcases hw.writeBuffer hpages hempty with ⟨hok, hw', hnil⟩ | ⟨-, hgone⟩
    · rw [hok]
      refine .inl ⟨rfl, _, hw', ?_⟩
      rw [hnil, List.append_nil, hall]
    · exact .inr hgone
  · rw [if_neg hlast]
    exact .inl ⟨rfl, written', hw, hall⟩

/-! ### What goes wrong otherwise -/

/-- The driver refuses a part of a page. -/
theorem program_refused {a : ℕ} {data : List UInt8} (hlt : data.length < 2 ^ 32)
    (h : ¬ 256 ∣ data.length) : (st.program p a data).2 = false := by
  have hnat : (BitVec.ofNat 32 data.length).toNat = data.length := by
    rw [BitVec.toNat_ofNat, Nat.mod_eq_of_lt hlt]
  have hzero : BitVec.ofNat 32 data.length ≠ 0 := by
    intro hz
    rw [hz] at hnat
    exact h (hnat ▸ dvd_zero 256)
  have hpart : (BitVec.ofNat 32 data.length).toNat % progPage ≠ 0 := by
    rw [hnat]
    exact fun hmod => h (Nat.dvd_of_mod_eq_zero hmod)
  unfold State.program Flash.Board.flashWrite
  rw [if_neg hzero, if_pos (.inr hpart)]

/-- **An image that ends within a page is refused**: the `write` that brings its end in gives the
update up, whatever the hardware does. -/
theorem Writing.write_refused (h : Writing p n written st) {data : List UInt8}
    (hcomplete : written.length + st.u.buffer.length + data.length = n) (hn : ¬ 256 ∣ n) :
    (st.write p data).1.u.size = 0 := by
  rcases h.write_cases data with hgone | ⟨written', st', k, hw, hall, -, heq⟩
  · exact hgone.size
  have hlen := congrArg List.length hall
  simp only [List.length_append] at hlen
  have hbuf := hw.buffer_le
  unfold bufferSize at hbuf
  have hlast : st'.u.buffer.length = n - written'.length := by omega
  have hpart : ¬ 256 ∣ st'.u.buffer.length := by
    intro hdvd
    have hsum := Nat.dvd_add hw.whole hdvd
    rw [show written'.length + st'.u.buffer.length = n by omega] at hsum
    exact hn hsum
  have hnot : st'.u.command ≠ .flash := by
    rw [hw.command]
    exact Command.noConfusion
  rw [heq, if_pos hlast]
  dsimp only
  unfold State.writeBuffer
  rw [if_neg hnot]
  dsimp only
  rw [program_refused (by omega) hpart]
  split_ifs <;> first | rfl | contradiction

/-- **A `write` of nothing erases what lies behind the filesystem**, if the image fills that and is
complete. -/
theorem Writing.erase_behind (h : Writing p n written st) (hcomplete : written.length = n)
    (hend : p.board.fsStart + n = p.board.fsEnd) :
    .erase p.board.fsEnd p.board.capacity.flashPageSize ∈ (st.write p []).1.calls ∧
      ¬ (Call.erase p.board.fsEnd p.board.capacity.flashPageSize).Inside p.board := by
  have hpos := p.board.capacity.flashPageSize_pos
  refine ⟨?_, fun hin => absurd hin.2 (by omega)⟩
  have hfits := h.fits
  have hnil : st.u.buffer = [] := List.length_eq_zero_iff.mp (by omega)
  have hlast : st.u.buffer.length = st.u.remaining := by
    rw [hnil, List.length_nil, h.remaining, hcomplete, Nat.sub_self]
  have hprog : st.u.progress = n := by
    rw [Updater.progress, h.current, h.start, hcomplete]
    omega
  have hrun : ¬ (st.u.error ≠ .ok ∨ ¬ st.u.isRunning) := by
    rw [h.error, isRunning, h.size]
    simpa using Nat.pos_iff_ne_zero.mp h.pos
  have hover : ¬ st.u.progress + st.u.buffer.length + ([] : List UInt8).length > st.u.size := by
    rw [hprog, hnil, h.size]
    exact Nat.lt_irrefl n
  have hloop : State.writeLoop p (([] : List UInt8).length + 1) st [] = (st, [], true) := by
    refine if_neg ?_
    rw [hnil]
    decide
  have hsame : st.store [] = st := by
    unfold State.store Updater.store
    rw [List.append_nil]
  have hnot : st.u.command ≠ .flash := by
    rw [h.command]
    exact Command.noConfusion
  have hcurrent : st.u.currentAddress = p.board.fsEnd := by
    rw [h.current, hcomplete, hend]
  have hpage : p.board.fsEnd % p.board.capacity.flashPageSize = 0 :=
    Nat.mod_eq_zero_of_dvd (Nat.dvd_trans (pageSize_dvd _) p.end_dvd)
  have hcall : .erase p.board.fsEnd p.board.capacity.flashPageSize ∈
      (st.writeBuffer p).1.calls := by
    unfold State.writeBuffer
    rw [if_neg hnot, hcurrent]
    dsimp only
    rw [if_pos hpage]
    split_ifs
    all_goals simp [State.erase, State.program]
  unfold State.write
  rw [if_neg hrun, if_neg hover, hloop]
  dsimp only
  rw [if_neg (not_not.mpr rfl), hsame, if_pos hlast]
  split_ifs <;> exact hcall

/-! ### `end` -/

theorem size_checkMD5 {u : Updater} (h : u.checkMD5.2 = false) : u.checkMD5.1.size = 0 := by
  unfold checkMD5 at h ⊢
  split_ifs at h ⊢
  rfl

theorem size_checkSignature_of_false {u : Updater} {mem : Mem} {v : Signer} {alloc : Bool}
    (h : (u.checkSignature mem v alloc).2 = false) :
    (u.checkSignature mem v alloc).1.size = 0 := by
  unfold checkSignature at h ⊢
  split_ifs at h ⊢ <;> rfl

/-- Whatever the checks of `end` say, no update runs after them. -/
theorem size_conclude (b : Board) (u : Updater) (alloc : Bool) (null : Mem) :
    (u.conclude b alloc null).1.size = 0 := by
  have hcheck : (u.check (u.staging.getD null) alloc).2 = false →
      (u.check (u.staging.getD null) alloc).1.size = 0 := by
    unfold Updater.check
    cases u.signer with
    | none => exact size_checkMD5
    | some v =>
      dsimp only
      split_ifs
      · exact size_checkSignature_of_false
      · exact size_checkMD5
  unfold Updater.conclude
  dsimp only
  by_cases hok : (u.check (u.staging.getD null) alloc).2 = true
  · rw [if_neg (not_not.mpr hok)]
    split_ifs <;> rfl
  · rw [if_pos hok]
    exact hcheck (Bool.eq_false_iff.mpr hok)

/-- With nothing received and no image, the checks of a sketch image fail, unless the word that they
take for the length of a signature is the one they expect. -/
theorem conclude_nothing {b : Board} {u : Updater} {alloc : Bool} {null : Mem}
    (hc : u.command = .flash) (hs : u.size = 0) (hst : u.staging = none)
    (hnull : ∀ v, u.signer = some v → v.length ≠ 0 → null.word (-4) ≠ v.length) :
    (u.conclude b alloc null).2 = false := by
  have hshort : ∀ (u' : Updater) mem, u'.command = .flash → u'.size = 0 →
      (u'.verifyEnd b mem).2 = false := by
    intro u' mem hc' hs'
    rw [verifyEnd, if_neg (not_not.mpr hc'), if_pos (by rw [hs']; decide)]
  have hcheck : (u.check (u.staging.getD null) alloc).2 = true →
      (u.check (u.staging.getD null) alloc).1.command = .flash ∧
        (u.check (u.staging.getD null) alloc).1.size = 0 := by
    have hmd5 : u.checkMD5.2 = true → u.checkMD5.1 = u := by
      unfold checkMD5
      split_ifs
      · exact fun hno => hno.elim
      · exact fun _ => rfl
    unfold Updater.check
    cases hv : u.signer with
    | none =>
      intro hok
      rw [show u.checkMD5.1 = u from hmd5 hok]
      exact ⟨hc, hs⟩
    | some v =>
      dsimp only
      rw [if_pos hc, hst, Option.getD_none]
      intro hok
      obtain ⟨hword, -, hu'⟩ := checkSignature_ok hok
      rw [hu']
      refine ⟨hc, ?_⟩
      have hzero : v.length = 0 := by
        by_contra hne
        have hsame : null.word (-4) = v.length := by
          rwa [sigLen, if_pos (Nat.pos_of_ne_zero hne), hs] at hword
        exact hnull v hv hne hsame
      show (u.binSize null v % 2 ^ 32).toNat = 0
      rw [binSize, if_neg (by omega), hs]
      rfl
  unfold Updater.conclude
  dsimp only
  by_cases hok : (u.check (u.staging.getD null) alloc).2 = true
  · obtain ⟨hc', hs'⟩ := hcheck hok
    rw [if_neg (not_not.mpr hok), if_pos (by rw [hshort _ _ hc' hs']; exact Bool.false_ne_true)]
  · rw [if_pos hok]

/-- Writing out the page buffer leaves the verifier in force. -/
theorem signer_writeBuffer (p : Setting) (st : State) :
    (st.writeBuffer p).1.u.signer = st.u.signer := by
  unfold State.writeBuffer
  dsimp only
  split_ifs <;> rfl

/-- **`end`** returns true only if what was received is in flash. -/
theorem Writing.end (h : Writing p n written st) {even alloc : Bool} {null : Mem}
    (hwhole : even = true → st.u.progress ≠ 0 → st.u.buffer ≠ [] →
      256 ∣ written.length + st.u.buffer.length ∧
        ∀ v, st.u.signer = some v → v.length ≠ 0 → null.word (-4) ≠ v.length) :
    Fine p (st.end p even alloc null).1 ∧ (st.end p even alloc null).1.u.size = 0 ∧
      (st.end p even alloc null).1.done = false ∧
      ((st.end p even alloc null).2 = true →
        Holds (st.end p even alloc null).1.flash p.board.fsStart (written ++ st.u.buffer)) := by
  have hsize : st.u.size ≠ 0 := by
    rw [h.size]
    exact Nat.pos_iff_ne_zero.mp h.pos
  have hprog : st.u.progress = written.length := by
    rw [Updater.progress, h.current, h.start]
    omega
  have hfine : Fine p st := h.fine
  unfold State.end
  rw [if_neg hsize]
  by_cases hzero : st.u.progress = 0
  · dsimp only
    rw [if_pos hzero, if_pos (.inl (by simp [setError, reset]))]
    exact ⟨⟨hfine.clean, hfine.calls⟩, rfl, h.done, fun hno => Bool.noConfusion hno⟩
  dsimp only
  rw [if_neg hzero]
  by_cases hstop : st.u.error ≠ .ok ∨ (¬ st.u.isFinished ∧ ¬ even)
  · rw [if_pos hstop]
    exact ⟨⟨hfine.clean, hfine.calls⟩, rfl, h.done, fun hno => Bool.noConfusion hno⟩
  rw [if_neg hstop]
  by_cases heven : even = true
  · rw [if_pos heven]
    unfold State.cutShort
    by_cases hbuf : st.u.buffer.length > 0
    · dsimp only
      rw [if_pos hbuf]
      have hne : st.u.buffer ≠ [] := List.length_pos_iff.mp hbuf
      obtain ⟨hpages, hnull⟩ := hwhole heven hzero hne
      have hlast : 256 ∣ st.u.buffer.length := (Nat.dvd_add_right h.whole).mp hpages
      rcases h.writeBuffer hlast (fun hnil => absurd hnil hne) with
        ⟨-, hwriting, -⟩ | ⟨-, hgone⟩
      · exact ⟨⟨hwriting.fine.clean, hwriting.fine.calls⟩, size_conclude _ _ _ _, hwriting.done,
          fun _ => hwriting.holds⟩
      · refine ⟨⟨hgone.fine.clean, hgone.fine.calls⟩, size_conclude _ _ _ _, hgone.done,
          fun hyes => ?_⟩
        -- the last page has failed, and nothing else passes for an image
        have hno : ({ (st.writeBuffer p).1.u with
            size := (st.writeBuffer p).1.u.progress }.conclude p.board alloc null).2 = false := by
          refine conclude_nothing hgone.command hgone.progress hgone.staging fun v hv => hnull v ?_
          rw [← signer_writeBuffer p st]
          exact hv
        rw [hno] at hyes
        exact Bool.noConfusion hyes
    · dsimp only
      rw [if_neg hbuf]
      have hnil : st.u.buffer = [] := List.length_eq_zero_iff.mp (Nat.eq_zero_of_not_pos hbuf)
      refine ⟨⟨hfine.clean, hfine.calls⟩, size_conclude _ _ _ _, h.done, fun _ => ?_⟩
      rw [hnil, List.append_nil]
      exact h.holds
  · rw [if_neg heven]
    have hfin : st.u.isFinished := by
      by_contra hno
      exact hstop (.inr ⟨hno, heven⟩)
    have hnil : st.u.buffer = [] := by
      have hfits := h.fits
      unfold isFinished at hfin
      rw [h.current, h.start, h.size] at hfin
      exact List.length_eq_zero_iff.mp (by omega)
    refine ⟨⟨hfine.clean, hfine.calls⟩, size_conclude _ _ _ _, h.done, fun _ => ?_⟩
    rw [hnil, List.append_nil]
    exact h.holds

/-! ### Runs -/

/-- The update runs, or it is over; if `end` has returned true, the image is in flash. -/
structure Sound (p : Setting) (st : State) : Prop where
  fine : Fine p st
  state : (∃ n written, Writing p n written st ∧ written ++ st.u.buffer = st.image) ∨
    st.u.size = 0 ∧ (st.done = true → Holds st.flash p.board.fsStart st.image)

/-- The notes of a run, and what is set for the end of the update, do not matter to it. -/
theorem Writing.congr {st' : State} (h : Writing p n written st) (hflash : st'.flash = st.flash)
    (hcalls : st'.calls = st.calls) (hdone : st'.done = st.done)
    (hu : ∃ targetMd5 signer, st'.u = { st.u with targetMd5, signer }) :
    Writing p n written st' := by
  obtain ⟨targetMd5, signer, hu⟩ := hu
  have hfine : Fine p st' := ⟨hflash ▸ h.fine.clean, hcalls ▸ h.fine.calls⟩
  refine ⟨hfine, ?_, ?_, ?_, ?_, ?_, h.pos, h.region, ?_, ?_, ?_, h.whole, hflash ▸ h.holds,
    hdone.trans h.done⟩
  all_goals rw [hu]
  · exact h.command
  · exact h.error
  · exact h.staging
  · exact h.start
  · exact h.size
  · exact h.current
  · exact h.fits
  · exact h.buffer_le

/-- With no update running, nothing is taken. -/
theorem write_of_size_eq_zero (h : st.u.size = 0) (data : List UInt8) : st.write p data = (st, 0) :=
  if_pos (.inr (by rw [isRunning, h]; exact Nat.lt_irrefl 0))

theorem end_of_size_eq_zero (h : st.u.size = 0) (even alloc : Bool) (null : Mem) :
    st.end p even alloc null = ({ st with u := st.u.reset }, false) :=
  if_pos h

theorem Sound.write (h : Sound p st) (data : List UInt8) (hG : fitting p st (.write data)) :
    Sound p (step p st (.write data)) := by
  rcases h.state with ⟨n, written, hw, himage⟩ | ⟨hsize, hdone⟩
  · have hlen := congrArg List.length himage
    rw [List.length_append] at hlen
    have hG' : written.length + st.u.buffer.length + data.length = n →
        256 ∣ n ∧ (data = [] → p.board.fsStart + n ≠ p.board.fsEnd) := by
      have hrun : st.u.isRunning := by
        rw [isRunning, hw.size]
        exact hw.pos
      have hG := hG hrun
      rwa [hw.size, ← hlen] at hG
    unfold step
    dsimp only
    rcases hw.write data hG' with ⟨hall, written', hw', himage'⟩ | hgone
    · refine ⟨⟨hw'.fine.clean, hw'.fine.calls⟩, .inl ⟨n, written', ?_, ?_⟩⟩
      · exact hw'.congr rfl rfl rfl ⟨_, _, rfl⟩
      · rw [hall, List.take_length, ← himage]
        exact himage'
    · refine ⟨⟨hgone.fine.clean, hgone.fine.calls⟩, .inr ⟨hgone.size, fun hyes => ?_⟩⟩
      exact Bool.noConfusion (hgone.done.symm.trans hyes)
  · unfold step
    dsimp only
    rw [write_of_size_eq_zero hsize, List.take_zero, List.append_nil]
    exact h

theorem image_writeBuffer (p : Setting) (st : State) :
    (st.writeBuffer p).1.image = st.image := by
  unfold State.writeBuffer
  dsimp only
  split_ifs <;> rfl

theorem image_end (p : Setting) (st : State) (even alloc : Bool) (null : Mem) :
    (st.end p even alloc null).1.image = st.image := by
  have hcut : (st.cutShort p).image = st.image := by
    unfold State.cutShort
    dsimp only
    split_ifs
    · exact image_writeBuffer p st
    · rfl
  unfold State.end
  dsimp only
  split_ifs <;> first | rfl | exact hcut

theorem Sound.end (h : Sound p st) {even alloc : Bool} {null : Mem}
    (hG : fitting p st (.end even alloc null)) : Sound p (step p st (.end even alloc null)) := by
  rcases h.state with ⟨n, written, hw, himage⟩ | ⟨hsize, hdone⟩
  · have hrun : st.u.isRunning := by
      rw [isRunning, hw.size]
      exact hw.pos
    have hG := hG hrun
    rw [← himage, List.length_append] at hG
    obtain ⟨hfine, hsize, -, hholds⟩ := hw.end hG
    refine ⟨⟨hfine.clean, hfine.calls⟩, .inr ⟨hsize, fun hyes => ?_⟩⟩
    have htrue : (st.end p even alloc null).2 = true := by
      have hor : (st.done || (st.end p even alloc null).2) = true := hyes
      rwa [hw.done, Bool.false_or] at hor
    show Holds _ _ (st.end p even alloc null).1.image
    rw [image_end, ← himage]
    exact hholds htrue
  · unfold step
    dsimp only
    rw [end_of_size_eq_zero hsize, Bool.or_false]
    exact ⟨⟨h.fine.clean, h.fine.calls⟩, .inr ⟨rfl, hdone⟩⟩

/-- Setting the MD5 or the verifier. -/
theorem Sound.set (h : Sound p st) {u : Updater}
    (hu : ∃ targetMd5 signer, u = { st.u with targetMd5, signer }) :
    Sound p { st with u } := by
  obtain ⟨targetMd5, signer, rfl⟩ := hu
  refine ⟨⟨h.fine.clean, h.fine.calls⟩, h.state.imp ?_ fun hover => ⟨hover.1, hover.2⟩⟩
  rintro ⟨n, written, hw, himage⟩
  exact ⟨n, written, hw.congr rfl rfl rfl ⟨_, _, rfl⟩, himage⟩

theorem Sound.step (h : Sound p st) {a : Action} (hG : fitting p st a) :
    Sound p (step p st a) := by
  cases a with
  | setMD5 expected =>
    refine h.set ?_
    unfold setMD5
    split_ifs
    · exact ⟨_, _, rfl⟩
    · exact ⟨_, _, rfl⟩
  | installSignature signer => exact h.set ⟨_, _, rfl⟩
  | write data => exact h.write data hG
  | «end» even alloc null => exact h.end hG

/-- A `begin` that accepts an image of the filesystem leaves an update of nothing so far. -/
theorem writing_begin {u u' : Updater} {size : ℕ} {alloc : Option Mem} {flash : Flash.Board}
    (hbegin : u.begin p.board size .fs alloc = (u', true)) (hclean : Clean flash) :
    Writing p size [] ⟨u', flash, [], [], false⟩ ∧ u'.buffer = [] := by
  unfold Updater.begin at hbegin
  by_cases hrun : u.size > 0
  · rw [if_pos hrun] at hbegin
    cases hbegin
  rw [if_neg hrun] at hbegin
  by_cases hzero : size = 0
  · rw [if_pos hzero] at hbegin
    cases hbegin
  rw [if_neg hzero] at hbegin
  dsimp only at hbegin
  by_cases hbig : p.board.fsStart + size > p.board.fsEnd
  · rw [if_pos hbig] at hbegin
    cases hbegin
  rw [if_neg hbig] at hbegin
  obtain rfl : _ = u' := congrArg Prod.fst hbegin
  refine ⟨⟨⟨hclean, fun call hc => absurd hc List.not_mem_nil⟩, rfl, rfl, rfl, rfl, rfl,
    Nat.pos_of_ne_zero hzero, Nat.le_of_not_gt hbig, rfl, Nat.zero_le _, Nat.zero_le _, dvd_zero _,
    .nil _ _, rfl⟩, rfl⟩

theorem sound_of_reachable (h : (machine p).Reachable (fitting p) st) : Sound p st := by
  refine Machine.invariant (M := machine p) ?_ ?_ h
  · rintro s ⟨u, size, alloc, flash, hbegin, hlock, hflock, hreq, hs⟩
    obtain ⟨hw, hnil⟩ := writing_begin hbegin ⟨hlock, hflock, hreq⟩
    rw [hs]
    exact ⟨hw.fine, .inl ⟨size, [], hw, hnil⟩⟩
  · rintro s a _ hI hG ⟨⟩
    exact hI.step hG

end

/-! A filesystem of one page, on a part without faults. -/

def onePage : Setting where
  board := ⟨0x8000, by decide, [], 0x08010000, 0x08012000, by decide, .is960K⟩
  controller := faultless
  capacity := rfl
  park := parkAtOnce
  buffer := 0x20100000
  start_dvd := ⟨16392, rfl⟩
  end_dvd := ⟨16393, rfl⟩
  ram i hi := by
    unfold bufferSize at hi
    have hx : (0x20100000 + BitVec.ofNat 32 i : Address).toNat = 0x20100000 + i := by
      rw [BitVec.toNat_add, BitVec.toNat_ofNat]
      show (0x20100000 + i % 2 ^ 32) % 2 ^ 32 = _
      omega
    rw [hx]
    show ¬ (0x08010000 ≤ 0x20100000 + i ∧ 0x20100000 + i < 0x08012000)
    omega

/-- After `begin`, with `n` bytes to come. -/
def begun (n : ℕ) : State :=
  ⟨((Updater.new none).begin onePage.board n .fs none).1, resetBoard, [], [], false⟩

theorem reachable_begun {G : State → Action → Prop} {n : ℕ}
    (h : ((Updater.new none).begin onePage.board n .fs none).2 = true) :
    (machine onePage).Reachable G (begun n) :=
  .init ⟨.new none, n, none, resetBoard, Prod.ext rfl h, by decide, by decide, rfl, rfl⟩

end Ch32h4.Update.InPlace
