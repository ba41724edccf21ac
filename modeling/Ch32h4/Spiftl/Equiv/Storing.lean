import Ch32h4.Spiftl.Equiv.Copies
import Ch32h4.Spiftl.Equiv.Ending
import Ch32h4.Spiftl.Equiv.Loading

/-!
# What a persist stores

On a flash that works the blocks that a stream has filled are images of metadata blocks, of the
epoch it was opened for and in order, and hold the bytes that were written (`Stored.writes`).

The bytes of a block are in three places while it is being written: full pages are on flash, what
follows is in the write buffer, and the checksum is of all of them (`Page`).
-/

namespace Ch32h4.Spiftl

open Flash

namespace Ftl

variable {g : Geometry} {K : Set ℕ} {s s' : Ftl} {st st' : Stream} {body : List UInt8} {b : UInt8}
variable {front : ℕ}

/-! ### The block that is being written -/

/-- How many of so many bytes are in full pages. -/
def inPages (n : ℕ) : ℕ := n / flashWriteBufferSize * flashWriteBufferSize

theorem inPages_add_mod (n : ℕ) : inPages n + n % flashWriteBufferSize = n := by
  rw [inPages, Nat.mul_comm]
  exact Nat.div_add_mod n _

/-- The bytes of a block so far. -/
structure Page (body : List UInt8) (st : Stream) (s : Ftl) : Prop where
  offset : st.offset = body.length
  crc : st.crc = crcAdd crcReset body
  /-- Those of a page that is not full are in the buffer, -/
  buffer : ∀ i < body.length % flashWriteBufferSize,
    st.wb i = body.getD (inPages body.length + i) 0
  /-- and the others on flash. -/
  flash : ∀ eb, st.ebList.head? = some eb →
    readBytes s.flash eb 0 (inPages body.length) = body.take (inPages body.length)

theorem crcAdd_append (crc : UInt32) (bs bs' : List UInt8) :
    crcAdd crc (bs ++ bs') = crcAdd (crcAdd crc bs) bs' := List.foldl_append

theorem crcAdd_concat (crc : UInt32) (bs : List UInt8) (b : UInt8) :
    crcAdd crc (bs ++ [b]) = crcByte (crcAdd crc bs) b := crcAdd_append crc bs [b]

theorem putBytes_of_lt {wb : ℕ → UInt8} {off i : ℕ} {data : List UInt8} (h : i < off) :
    putBytes wb off data i = wb i := if_neg fun hin => absurd hin.1 (Nat.not_le.mpr h)

theorem putBytes_of_mem {wb : ℕ → UInt8} {off i : ℕ} {data : List UInt8} (h : i < data.length) :
    putBytes wb off data (off + i) = data.getD i 0 := by
  rw [putBytes, if_pos ⟨Nat.le_add_right _ _, Nat.add_lt_add_left h off⟩, Nat.add_sub_cancel_left]

/-- The buffer once the next byte is in it. -/
theorem Page.buffer_concat (h : Page body st s) (b : UInt8) {i : ℕ}
    (hi : i ≤ body.length % flashWriteBufferSize) :
    putBytes st.wb (st.offset % flashWriteBufferSize) [b] i =
      (body ++ [b]).getD (inPages body.length + i) 0 := by
  have hsum := inPages_add_mod body.length
  rw [h.offset]
  rcases Nat.lt_or_eq_of_le hi with hlt | rfl
  · rw [putBytes_of_lt hlt, h.buffer i hlt, List.getD_append _ _ _ _ (by omega)]
  · have hself : putBytes st.wb (body.length % flashWriteBufferSize) [b]
        (body.length % flashWriteBufferSize + 0) = b := putBytes_of_mem Nat.zero_lt_one
    rw [Nat.add_zero] at hself
    rw [hself, hsum, List.getD_append_right _ _ _ _ le_rfl, Nat.sub_self]
    rfl

/-- A full buffer is a page. -/
theorem Page.bufferBytes_concat (h : Page body st s) (b : UInt8)
    (hfull : (body.length + 1) % flashWriteBufferSize = 0) :
    bufferBytes (putBytes st.wb (st.offset % flashWriteBufferSize) [b]) =
      (body ++ [b]).drop (inPages body.length) := by
  have hsum := inPages_add_mod body.length
  have hlast : body.length % flashWriteBufferSize + 1 = flashWriteBufferSize := by
    rw [flashWriteBufferSize] at hfull ⊢
    omega
  refine List.ext_getElem ?_ fun i hi hi' => ?_
  · rw [bufferBytes_length, List.length_drop, List.length_append, List.length_singleton]
    omega
  · rw [bufferBytes_length] at hi
    rw [List.length_drop] at hi'
    rw [List.getElem_drop]
    refine Eq.trans ?_ (List.getD_eq_getElem _ 0 (by omega))
    rw [← h.buffer_concat b (by omega)]
    simp only [bufferBytes, List.getElem_map, List.getElem_range]

/-- A page that is programmed over erased cells reads back. -/
theorem readBytes_program_of_blank {off : ℕ} {data : List UInt8} (hs : s.Working)
    (hlt : front < g.eraseBlocks) (hfit : off + data.length ≤ g.ebBytes)
    (hoff : off % flashWriteBufferSize = 0) (hlen : data.length % flashWriteBufferSize = 0)
    (hblank : Blank s.flash front off data.length) :
    readBytes (s.program g.toDims front off data).flash front off data.length = data := by
  have hin : (g.inRange front off data.length && off % flashWriteBufferSize == 0 &&
      data.length % flashWriteBufferSize == 0) = true := by
    simp [inRange_of_le hlt hfit, hoff, hlen]
  have hdone : s.next (g.inRange front off data.length && off % flashWriteBufferSize == 0 &&
      data.length % flashWriteBufferSize == 0) = .done := by
    rw [hin, next, if_pos rfl, hs]
  have hok := programOk_done_erased hblank
  rw [← hdone] at hok
  exact program_ok hok

/-- Programming a page leaves it behind those that are on flash. -/
theorem readBytes_program_append {off : ℕ} {data bs : List UInt8} (hs : s.Working)
    (hlt : front < g.eraseBlocks) (hfit : off + data.length ≤ g.ebBytes)
    (hoff : off % flashWriteBufferSize = 0) (hlen : data.length % flashWriteBufferSize = 0)
    (hblank : Blank s.flash front off data.length) (hbs : readBytes s.flash front 0 off = bs) :
    readBytes (s.program g.toDims front off data).flash front 0 (off + data.length) =
      bs ++ data := by
  rw [readBytes_add, Nat.zero_add, readBytes_program_of_blank hs hlt hfit hoff hlen hblank, ← hbs]
  refine congrArg (· ++ data) (readBytes_congr fun o _ ho => ?_)
  refine program_frame fun hin => ?_
  have := hin.2.1
  omega

/-- What one byte changes on flash is in the front of the list, once its first page is full. -/
theorem putByte_frame (hres : putByte g.toDims b st s = some (st', s')) {e : ℕ}
    (he : st.ebList.head? = some e → st'.offset < flashWriteBufferSize) (o : ℕ) :
    s'.flash e o = s.flash e o := by
  simp only [Ftl.putByte] at hres
  split_ifs at hres with hfull hfirst
  · obtain ⟨front, hfront, hres⟩ := Option.bind_eq_some_iff.mp hres
    cases hres
    have hne : e ≠ front := by
      rintro rfl
      exact absurd (he hfront) (Nat.not_lt.mpr hfirst.ge)
    refine (program_frame fun hin => hne hin.1).trans ?_
    exact eraseBlock_frame hne o
  · obtain ⟨front, hfront, hres⟩ := Option.bind_eq_some_iff.mp hres
    cases hres
    have hne : e ≠ front := by
      rintro rfl
      have hlow := he hfront
      rw [flashWriteBufferSize] at hfull hlow
      simp only at hlow
      omega
    exact program_frame fun hin => hne hin.1
  · cases hres
    rfl

theorem putByte_stream {g : Dims} (hres : putByte g b st s = some (st', s')) :
    st'.ebList = st.ebList ∧ st'.index = st.index ∧ st'.offset = st.offset + 1 ∧
      st'.crc = crcByte st.crc b := by
  simp only [Ftl.putByte] at hres
  split_ifs at hres with hfull hfirst
  · obtain ⟨front, -, hres⟩ := Option.bind_eq_some_iff.mp hres
    cases hres
    exact ⟨rfl, rfl, rfl, rfl⟩
  · obtain ⟨front, -, hres⟩ := Option.bind_eq_some_iff.mp hres
    cases hres
    exact ⟨rfl, rfl, rfl, rfl⟩
  · cases hres
    exact ⟨rfl, rfl, rfl, rfl⟩

/-- The byte that fills a page brings it to flash. -/
theorem Page.program (h : Page body st s) (hs : s'.Working) (hfront : front < g.eraseBlocks)
    (hlt : st.offset < g.ebBytes - 4) (hfull : (st.offset + 1) % flashWriteBufferSize = 0)
    (hblank : Blank s'.flash front (st.offset + 1 - flashWriteBufferSize) flashWriteBufferSize)
    (hkept : readBytes s'.flash front 0 (inPages body.length) = body.take (inPages body.length)) :
    readBytes (s'.program g.toDims front (st.offset + 1 - flashWriteBufferSize)
      (bufferBytes (putBytes st.wb (st.offset % flashWriteBufferSize) [b]))).flash front 0
        (inPages (body.length + 1)) = (body ++ [b]).take (inPages (body.length + 1)) := by
  obtain ⟨hback, hle, hmod, hsucc, hprev, -⟩ := full_page hfull hlt
  have hpages := h.bufferBytes_concat b (by rw [← h.offset]; exact hfull)
  have hpage : st.offset + 1 - flashWriteBufferSize = inPages body.length := by
    rw [inPages, ← h.offset, hprev]
  have hall : inPages (body.length + 1) = body.length + 1 := by
    rw [inPages, ← h.offset, hsucc]
  have hlen := bufferBytes_length (putBytes st.wb (st.offset % flashWriteBufferSize) [b])
  rw [hpage] at hback hmod hblank ⊢
  rw [h.offset] at hback hle
  have happend := readBytes_program_append hs hfront (by rw [hlen, hback]; exact hle) hmod
    (by rw [hlen]; exact Nat.mod_self _) (by rw [hlen]; exact hblank) hkept
  have hin : inPages body.length ≤ body.length := Nat.div_mul_le_self _ _
  rw [hlen, hback] at happend
  have hwhole : (body ++ [b]).take (body.length + 1) = body ++ [b] :=
    List.take_of_length_le List.length_append.le
  have hpart : (body ++ [b]).take (inPages body.length) = body.take (inPages body.length) :=
    List.take_append_of_le_length hin
  rw [hall, happend, hpages, hwhole, ← hpart, List.take_append_drop]

/-- **The next byte** of a block. -/
theorem Page.putByte (h : Page body st s) (hok : StreamOk g K st s) (hs : s.Working)
    (hlt : st.offset < g.ebBytes - 4) (hres : putByte g.toDims b st s = some (st', s')) :
    Page (body ++ [b]) st' s' := by
  obtain ⟨hlist, -, hoff, hcrc⟩ := putByte_stream hres
  have hlen : (body ++ [b]).length = body.length + 1 := List.length_append
  refine ⟨by rw [hoff, h.offset, hlen], by rw [hcrc, h.crc, crcAdd_concat], ?_, ?_⟩
  · intro i hi
    rw [hlen] at hi ⊢
    simp only [Ftl.putByte] at hres
    split_ifs at hres with hfull hfirst
    · rw [h.offset] at hfull
      omega
    · rw [h.offset] at hfull
      omega
    · cases hres
      rw [h.offset] at hfull
      have hsame : inPages (body.length + 1) = inPages body.length := by
        rw [inPages, (same_page hfull).1, inPages]
      rw [hsame]
      refine h.buffer_concat b ?_
      rw [flashWriteBufferSize] at *
      omega
  · intro eb heb
    rw [hlist] at heb
    rw [hlen]
    simp only [Ftl.putByte] at hres
    split_ifs at hres with hfull hfirst
    · -- the first page: the block is erased before it
      obtain ⟨front, hfront, hres⟩ := Option.bind_eq_some_iff.mp hres
      obtain rfl : eb = front := Option.some.inj (heb.symm.trans hfront)
      cases hres
      have hidle := (hok.idle eb (List.mem_of_mem_head? hfront)).1
      have hnone : inPages body.length = 0 := by
        rw [inPages, ← h.offset, Nat.div_eq_of_lt (by omega), Nat.zero_mul]
      refine h.program hs hidle.lt hlt hfull (blank_of_eraseBlock (s := s) hs hidle.lt _ _) ?_
      rw [hnone]
      rfl
    · obtain ⟨front, hfront, hres⟩ := Option.bind_eq_some_iff.mp hres
      obtain rfl : eb = front := Option.some.inj (heb.symm.trans hfront)
      cases hres
      obtain ⟨hback, hle, -, -, hprev, hstart⟩ := full_page hfull hlt
      have hblank := hok.blank (hstart hfirst) hs eb hfront
      rw [hprev] at hblank
      exact h.program hs (hok.idle eb (List.mem_of_mem_head? hfront)).1.lt hlt hfull
        (hblank.mono le_rfl (by omega)) (h.flash eb hfront)
    · cases hres
      have hsame : inPages (body.length + 1) = inPages body.length := by
        rw [h.offset] at hfull
        rw [inPages, (same_page hfull).1, inPages]
      rw [hsame, h.flash eb heb]
      exact (List.take_append_of_le_length (Nat.div_mul_le_self _ _)).symm

/-! ### Where a block begins and ends -/

/-- What stays of a buffer, and what is put into it. -/
theorem putBytes_eq (wb : ℕ → UInt8) (data : List UInt8) {i : ℕ} (h : i < data.length) :
    putBytes wb 0 data i = data.getD i 0 := by
  have hmem : putBytes wb 0 data (0 + i) = data.getD i 0 := putBytes_of_mem h
  rwa [Nat.zero_add] at hmem

/-- A block begins with its header. -/
theorem Page.openBlock (hoff : st.offset = 0) (hcrc : st.crc = crcReset) (s : Ftl) :
    Page (blockBody s.ram.metadataEpoch st.index []) (openBlock st s) s := by
  have hlen : (blockBody s.ram.metadataEpoch st.index []).length = 12 := by
    rw [blockBody_length]
    rfl
  rw [Ftl.openBlock, if_pos hoff]
  refine ⟨hlen.symm, ?_, fun i hi => ?_, fun eb _ => ?_⟩
  · rw [hcrc, blockBody, List.append_nil, crcAdd_append]
  · rw [hlen] at hi ⊢
    have hi : i < 12 := hi
    have hpage : inPages 12 = 0 := rfl
    rw [hpage, Nat.zero_add, blockBody, List.append_nil]
    show putBytes (putBytes (fun _ => 0) 0 metadataSig) 8
      (bytesLE (epochWord s.ram.metadataEpoch st.index)) i = _
    rcases Nat.lt_or_ge i 8 with hlow | hhigh
    · rw [putBytes_of_lt hlow, putBytes_eq _ _ hlow, List.getD_append _ _ _ _ hlow]
    · obtain ⟨j, rfl⟩ := Nat.exists_eq_add_of_le hhigh
      have hj : j < (bytesLE (epochWord s.ram.metadataEpoch st.index)).length := by
        rw [bytesLE_length]
        omega
      have hsig : metadataSig.length = 8 := rfl
      rw [putBytes_of_mem hj, List.getD_append_right _ _ _ _ (hsig ▸ Nat.le_add_right _ _), hsig,
        Nat.add_sub_cancel_left]
  · rw [hlen]
    rfl

/-- A block that is full ends with the checksum. -/
theorem Page.closeBlock {epoch index : ℕ} {data : List UInt8}
    (h : Page (blockBody epoch index data) st s) (hok : StreamOk g K st s) (hs : s.Working)
    (hfull : st.offset = g.ebBytes - 4) (hfront : st.ebList.head? = some front)
    (hres : closeBlock g.toDims st s = some (st', s')) :
    Loader.HasImage g.toDims s'.flash front epoch index data := by
  have hbig := ebBytes_ge g
  rw [lbaBytes] at hbig
  have hlen : (blockBody epoch index data).length = g.ebBytes - 4 := by rw [← h.offset, hfull]
  obtain ⟨hlast, hoff, hmod, hfit⟩ := last_page (pages_dvd_ebBytes g) (ebBytes_ge g) hfull
  rw [Ftl.closeBlock, if_pos hfull, hfront] at hres
  cases hres
  have hbytes := blockBody_length epoch index data
  refine ⟨by omega, ?_⟩
  have hin : inPages (blockBody epoch index data).length = g.ebBytes - flashWriteBufferSize := by
    rw [inPages, hlen, ← hfull, hlast]
  have hblank := hok.blank hoff hs front hfront
  rw [hlast] at hblank
  have hpage : bufferBytes (putBytes st.wb (flashWriteBufferSize - 4) (crcGet st.crc)) =
      (blockBody epoch index data).drop (g.ebBytes - flashWriteBufferSize) ++ crcGet st.crc := by
    refine List.ext_getElem ?_ fun i hi hi' => ?_
    · rw [bufferBytes_length, List.length_append, List.length_drop, hlen, crcGet, bytesLE_length]
      rw [flashWriteBufferSize] at *
      omega
    · rw [bufferBytes_length] at hi
      refine Eq.trans ?_ (List.getD_eq_getElem _ 0 hi')
      simp only [bufferBytes, List.getElem_map, List.getElem_range]
      have hdrop : ((blockBody epoch index data).drop (g.ebBytes - flashWriteBufferSize)).length =
          flashWriteBufferSize - 4 := by
        rw [List.length_drop, hlen]
        rw [flashWriteBufferSize] at *
        omega
      rcases Nat.lt_or_ge i (flashWriteBufferSize - 4) with hlow | hhigh
      · have hi : i < (blockBody epoch index data).length % flashWriteBufferSize := by
          rw [hlen]
          rw [flashWriteBufferSize] at *
          omega
        rw [putBytes_of_lt hlow, h.buffer i hi, hin, List.getD_append _ _ _ _ (by omega)]
        rw [List.getD_eq_getElem?_getD, List.getD_eq_getElem?_getD, List.getElem?_drop]
      · obtain ⟨j, rfl⟩ := Nat.exists_eq_add_of_le hhigh
        have hj : j < (crcGet st.crc).length := by
          rw [crcGet, bytesLE_length]
          rw [flashWriteBufferSize] at *
          omega
        rw [putBytes_of_mem hj, List.getD_append_right _ _ _ _ (by omega), hdrop,
          Nat.add_sub_cancel_left]
  have hplen := bufferBytes_length (putBytes st.wb (flashWriteBufferSize - 4) (crcGet st.crc))
  have hidle := (hok.idle front (List.mem_of_mem_head? hfront)).1
  have hkept := h.flash front hfront
  rw [hin] at hkept
  have happend := readBytes_program_append hs hidle.lt (by rw [hplen]; exact hfit) hmod
    (by rw [hplen]; exact Nat.mod_self _) (by rw [hplen]; exact hblank.mono le_rfl (by omega)) hkept
  have hall : g.ebBytes - flashWriteBufferSize + flashWriteBufferSize = g.ebBytes := by
    rw [flashWriteBufferSize] at *
    omega
  rw [hplen, hall] at happend
  rw [blockImage, ← h.crc]
  refine happend.trans ?_
  rw [hpage, ← List.append_assoc, List.take_append_drop]

/-! ### The stream -/

theorem payload_eq {f : Cells} {eb epoch index : ℕ} {data : List UInt8}
    (h : Loader.HasImage g.toDims f eb epoch index data) :
    Loader.payload g.toDims f eb = data := by
  obtain ⟨-, -, hdata, -⟩ := h.parts
  have hlen := h.length
  rw [Loader.payload, ← hlen, Nat.add_sub_cancel_left]
  exact hdata

theorem streamOf_congr {f f' : Cells} {l : List ℕ} (h : ∀ eb ∈ l, ∀ o, f' eb o = f eb o) :
    Loader.streamOf g.toDims f' l = Loader.streamOf g.toDims f l := by
  refine List.flatMap_congr fun eb heb => ?_
  exact readBytes_congr fun o _ _ => h eb heb o

/-- The bytes that have been written: those of the blocks `done`, and then `cur`. -/
structure Stored (g : Dims) (E : ℕ) (f : Cells) (done : List ℕ) (cur : List UInt8)
    (p : Stream × Ftl) : Prop where
  epoch : p.2.ram.metadataEpoch = E
  index : p.1.index = done.length % 2 ^ 8
  image : ∀ i eb, done[i]? = some eb →
    Loader.HasImage g p.2.flash eb E (i % 2 ^ 8) (Loader.payload g p.2.flash eb)
  cur : (p.1.offset = 0 ∧ p.1.crc = crcReset ∧ cur = []) ∨
    Page (blockBody E p.1.index cur) p.1 p.2
  /-- No other block is changed, until its first page is full. -/
  frame : ∀ e ∉ done, (p.1.ebList.head? = some e → p.1.offset < flashWriteBufferSize) →
    ∀ o, p.2.flash e o = f e o

variable {E : ℕ} {f : Cells} {done : List ℕ} {cur : List UInt8}

/-- A block that is full is done. -/
theorem Stored.closeBlock (h : Stored g.toDims E f done cur (st, s)) (hok : StreamOk g K st s)
    (hs : s.Working) (hnodup : (done ++ st.ebList).Nodup)
    (hres : closeBlock g.toDims st s = some (st', s')) :
    ∃ done' cur', done' ++ st'.ebList = done ++ st.ebList ∧
      Loader.streamOf g.toDims s'.flash done' ++ cur' =
        Loader.streamOf g.toDims s.flash done ++ cur ∧
      Stored g.toDims E f done' cur' (st', s') := by
  by_cases hfull : st.offset = g.ebBytes - 4
  · have hbig := ebBytes_ge g
    rw [lbaBytes] at hbig
    have hres' := hres
    rw [Ftl.closeBlock, if_pos hfull] at hres'
    obtain ⟨front, hfront, hres'⟩ := Option.bind_eq_some_iff.mp hres'
    obtain ⟨l, hlist⟩ : ∃ l, st.ebList = front :: l := ⟨_, (List.cons_head?_tail hfront).symm⟩
    rw [hlist] at hnodup
    have hnew : front ∉ done := fun hin =>
      (List.nodup_append.mp hnodup).2.2 front hin front List.mem_cons_self rfl
    have hpage : Page (blockBody E st.index cur) st s := by
      refine h.cur.resolve_left fun hzero => ?_
      have : st.offset = 0 := hzero.1
      omega
    have himage := hpage.closeBlock hok hs hfull hfront hres
    cases hres'
    have hkeep : ∀ e ≠ front, ∀ o, (s.program g.toDims front (g.ebBytes - flashWriteBufferSize)
        (bufferBytes (putBytes st.wb (flashWriteBufferSize - 4) (crcGet st.crc)))).flash e o =
          s.flash e o := fun e he o => program_frame fun hin => he hin.1
    have hdone : ∀ eb ∈ done, eb ≠ front := fun eb heb heq => hnew (heq ▸ heb)
    refine ⟨done ++ [front], [], ?_, ?_, h.epoch, ?_, fun i eb hi => ?_, .inl ⟨rfl, rfl, rfl⟩,
      fun e he _ o => ?_⟩
    · rw [hlist, List.tail_cons, List.append_assoc]
      rfl
    · rw [List.append_nil, Loader.streamOf, List.flatMap_append, ← Loader.streamOf,
        streamOf_congr fun eb heb => hkeep eb (hdone eb heb)]
      refine congrArg _ ?_
      rw [List.flatMap_singleton]
      exact payload_eq himage
    · have hindex : st.index = done.length % 2 ^ 8 := h.index
      rw [List.length_append, List.length_singleton, hindex]
      show (done.length % 2 ^ 8 + 1) % 256 = _
      omega
    · rw [List.getElem?_append] at hi
      split_ifs at hi with hlow
      · have hsame := hkeep eb (hdone eb (List.mem_of_getElem? hi))
        have hold := (h.image i eb hi).congr fun o _ => hsame o
        rwa [← payload_eq hold] at hold
      · obtain ⟨hzero, heq⟩ := List.getElem?_eq_some_iff.mp hi
        have hlast : i = done.length := by
          rw [List.length_singleton] at hzero
          omega
        have hfr : front = eb := by
          rw [← heq]
          simp only [List.getElem_singleton]
        subst hfr
        have hnew := himage
        rw [show st.index = _ from h.index, ← hlast, ← payload_eq himage] at hnew
        exact hnew
    · have hne : e ≠ front := fun heq => he (heq ▸ List.mem_append_right _ List.mem_cons_self)
      refine (hkeep e hne o).trans (h.frame e (fun hin => he (List.mem_append_left _ hin)) ?_ o)
      intro hhead
      exact absurd (Option.some.inj (hhead.symm.trans hfront)) hne
  · rw [Ftl.closeBlock, if_neg hfull] at hres
    cases hres
    exact ⟨done, cur, rfl, rfl, h⟩

theorem openBlock_stream (st : Stream) (s : Ftl) :
    (openBlock st s).ebList = st.ebList ∧ (openBlock st s).index = st.index ∧
      st.offset ≤ (openBlock st s).offset := by
  rw [Ftl.openBlock]
  split_ifs with hzero
  · exact ⟨rfl, rfl, hzero.le.trans (Nat.zero_le _)⟩
  · exact ⟨rfl, rfl, le_rfl⟩

/-- The block that is being written, once it has a header. -/
theorem Stored.page (h : Stored g.toDims E f done cur (st, s)) :
    Page (blockBody E st.index cur) (openBlock st s) s := by
  rcases h.cur with ⟨hzero, hcrc, rfl⟩ | hpage
  · rw [← show s.ram.metadataEpoch = E from h.epoch]
    exact .openBlock hzero hcrc s
  · have hne : st.offset ≠ 0 := by
      rw [hpage.offset, blockBody_length]
      omega
    rwa [Ftl.openBlock, if_neg hne]

/-- **One byte**. -/
theorem Stored.writeMetadata8b {p p' : Stream × Ftl} {l : List (Option ℕ)} {drift : ℤ}
    (h : Stored g.toDims E f done cur p) (hok : StreamOk g K p.1 p.2) (hs : p.2.Working)
    (hacc : Accounted g.toDims drift l p.2.ram) (hnodup : (done ++ p.1.ebList).Nodup)
    (hres : writeMetadata8b g.toDims b p = some p') :
    ∃ done' cur', done' ++ p'.1.ebList = done ++ p.1.ebList ∧
      Loader.streamOf g.toDims p'.2.flash done' ++ cur' =
        Loader.streamOf g.toDims p.2.flash done ++ cur ++ [b] ∧
      Stored g.toDims E f done' cur' p' ∧ cur' ≠ [] := by
  obtain ⟨⟨st₁, s₁⟩, hclose, hput⟩ := Option.bind_eq_some_iff.mp hres
  obtain ⟨done', cur', hlist, hstream, h₁⟩ := Stored.closeBlock h hok hs hnodup hclose
  obtain ⟨hok₁, hlt, hmoves, hram⟩ := hok.closeBlock hclose
  obtain ⟨hok₂, hlt₂⟩ := hok₁.openBlock hlt
  have hs₁ := hmoves.working hs
  obtain ⟨-, -, -, hworn⟩ := hok₂.putByte hlt₂ (hram ▸ hacc) hput
  obtain ⟨hlist₂, hindex₂, hoff₂⟩ := openBlock_stream st₁ s₁
  obtain ⟨hlist', hindex', hoff', -⟩ := putByte_stream hput
  rw [hlist₂] at hlist'
  rw [hindex₂] at hindex'
  have hpage := h₁.page.putByte hok₂ hs₁ hlt₂ hput
  have hsum : done' ++ p'.1.ebList = done ++ p.1.ebList := by rw [hlist', hlist]
  rw [← hsum] at hnodup
  -- the blocks that are done are not the one that is being written
  have hkeep : ∀ e ∈ done', ∀ o, p'.2.flash e o = s₁.flash e o := fun e he =>
    putByte_frame hput fun hhead => by
      rw [hlist₂, ← hlist'] at hhead
      exact absurd rfl ((List.nodup_append.mp hnodup).2.2 e he e (List.mem_of_mem_head? hhead))
  refine ⟨done', cur' ++ [b], hsum, ?_, ⟨?_, hindex'.trans h₁.index, fun i eb hi => ?_, .inr ?_,
    fun e he hhead o => ?_⟩, List.append_ne_nil_of_right_ne_nil _ (List.cons_ne_nil _ _)⟩
  · rw [streamOf_congr hkeep, ← List.append_assoc, hstream]
  · obtain ⟨_, _, _, heq⟩ := hworn
    rw [heq]
    exact h₁.epoch
  · have hsame := hkeep eb (List.mem_of_getElem? hi)
    have hold := (h₁.image i eb hi).congr fun o _ => hsame o
    rwa [← payload_eq hold] at hold
  · rw [hindex', blockBody, ← List.append_assoc]
    exact hpage
  · rw [hlist'] at hhead
    refine (putByte_frame hput (fun hh => hhead (hlist₂ ▸ hh)) o).trans
      (h₁.frame e he (fun hh => ?_) o)
    have hlow := hhead hh
    show st₁.offset < _
    omega

/-- **Run lemma**: any number of bytes. -/
theorem Stored.writes {p p' : Stream × Ftl} {l : List (Option ℕ)} {drift : ℤ} {bs : List UInt8}
    (h : Stored g.toDims E f done cur p) (hok : StreamOk g K p.1 p.2) (hs : p.2.Working)
    (hacc : Accounted g.toDims drift l p.2.ram) (hnodup : (done ++ p.1.ebList).Nodup)
    (hres : Ftl.writes g.toDims bs p = some p') :
    ∃ done' cur', done' ++ p'.1.ebList = done ++ p.1.ebList ∧
      Loader.streamOf g.toDims p'.2.flash done' ++ cur' =
        Loader.streamOf g.toDims p.2.flash done ++ cur ++ bs ∧
      Stored g.toDims E f done' cur' p' ∧ (cur ≠ [] ∨ bs ≠ [] → cur' ≠ []) := by
  induction bs generalizing p done cur with
  | nil =>
    cases hres
    exact ⟨done, cur, rfl, (List.append_nil _).symm, h, fun hne => hne.resolve_right fun h => h rfl⟩
  | cons b bs ih =>
    rw [Ftl.writes, List.foldlM_cons] at hres
    obtain ⟨p₁, hbyte, hres⟩ := Option.bind_eq_some_iff.mp hres
    obtain ⟨done₁, cur₁, hlist₁, hstream₁, h₁, hne₁⟩ := h.writeMetadata8b hok hs hacc hnodup hbyte
    obtain ⟨hok₁, hacc₁, hmoves₁, -⟩ := hok.writeMetadata8b hacc hbyte
    obtain ⟨done', cur', hlist, hstream, h', hne⟩ := ih h₁ hok₁ (hmoves₁.working hs) hacc₁
      (hlist₁ ▸ hnodup) hres
    refine ⟨done', cur', hlist.trans hlist₁, ?_, h', fun _ => hne (.inl hne₁)⟩
    rw [hstream, hstream₁, List.append_assoc _ [b]]
    rfl

/-! ### Where the stream ends -/

/-- Where a byte goes, given what is in the block. -/
def byteOffset (g : Dims) (off : ℕ) : ℕ := if off = g.ebBytes - 4 ∨ off = 0 then 12 else off

theorem closeBlock_offset {g : Dims} (h : Ftl.closeBlock g st s = some (st', s')) :
    st'.offset = if st.offset = g.ebBytes - 4 then 0 else st.offset := by
  unfold Ftl.closeBlock at h
  split_ifs at h with hfull
  · obtain ⟨front, -, h⟩ := Option.bind_eq_some_iff.mp h
    cases h
    rw [if_pos hfull]
  · cases h
    rw [if_neg hfull]

theorem openBlock_offset (st : Stream) (s : Ftl) :
    (Ftl.openBlock st s).offset = if st.offset = 0 then 12 else st.offset := by
  unfold Ftl.openBlock
  split_ifs
  · rfl
  · rfl

theorem openBlock_closeBlock_offset {g : Dims} (h : Ftl.closeBlock g st s = some (st', s')) :
    (Ftl.openBlock st' s').offset = byteOffset g st.offset := by
  rw [openBlock_offset, closeBlock_offset h, byteOffset]
  by_cases hfull : st.offset = g.ebBytes - 4
  · rw [if_pos hfull, if_pos rfl, if_pos (.inl hfull)]
  · rw [if_neg hfull]
    by_cases hzero : st.offset = 0
    · rw [if_pos hzero, if_pos (.inr hzero)]
    · rw [if_neg hzero, if_neg (not_or.mpr ⟨hfull, hzero⟩)]

theorem writeMetadata8b_offset {g : Dims} {p p' : Stream × Ftl}
    (h : Ftl.writeMetadata8b g b p = some p') :
    p'.1.offset = byteOffset g p.1.offset + 1 := by
  obtain ⟨⟨st₁, s₁⟩, hclose, hput⟩ := Option.bind_eq_some_iff.mp h
  obtain ⟨-, -, hoff, -⟩ := putByte_stream hput
  rw [hoff, openBlock_closeBlock_offset hclose]

/-- Closing fills the block, and begins another. -/
theorem writes_of_closeMetadataStream_of_lt {n : ℕ} {p p' : Stream × Ftl}
    (hlt : 13 < p.1.offset) (hle : p.1.offset ≤ g.ebBytes - 4) (hn : g.ebBytes - 3 - p.1.offset ≤ n)
    (h : Ftl.closeMetadataStream g.toDims n p = some p') :
    Ftl.writes g.toDims (List.replicate (g.ebBytes - 3 - p.1.offset) 0) p = some p' ∧
      p'.1.offset = 13 := by
  induction n generalizing p with
  | zero => omega
  | succ n ih =>
    unfold Ftl.closeMetadataStream at h
    rw [if_pos hlt] at h
    obtain ⟨p₁, hbyte, h⟩ := Option.bind_eq_some_iff.mp h
    have hoff := writeMetadata8b_offset hbyte
    obtain ⟨k, hk⟩ : ∃ k, g.ebBytes - 3 - p.1.offset = k + 1 :=
      ⟨g.ebBytes - 4 - p.1.offset, by omega⟩
    by_cases hfull : p.1.offset = g.ebBytes - 4
    · -- that was the first byte of the next block
      rw [byteOffset, if_pos (.inl hfull)] at hoff
      have hend : p₁ = p' := by
        cases n with
        | zero => exact Option.some.inj h
        | succ n =>
          unfold Ftl.closeMetadataStream at h
          rw [if_neg (by omega)] at h
          exact Option.some.inj h
      have hone : k = 0 := by omega
      subst hend hone
      refine ⟨?_, hoff⟩
      rw [hk, Ftl.writes, List.replicate_one, List.foldlM_cons]
      exact Option.bind_eq_some_iff.mpr ⟨p₁, hbyte, rfl⟩
    · rw [byteOffset, if_neg (by omega)] at hoff
      obtain ⟨hzeros, hend⟩ := ih (by omega) (by omega) (by omega) h
      refine ⟨?_, hend⟩
      have hrest : g.ebBytes - 3 - p₁.1.offset = k := by omega
      rw [hrest] at hzeros
      rw [hk, Ftl.writes, List.replicate_succ, List.foldlM_cons]
      exact Option.bind_eq_some_iff.mpr ⟨p₁, hbyte, hzeros⟩

theorem streamOf_length (f : Cells) (l : List ℕ) :
    (Loader.streamOf g.toDims f l).length = l.length * (g.ebBytes - 16) := by
  induction l with
  | nil => exact (Nat.zero_mul _).symm
  | cons eb l ih =>
    have hpay : (Loader.payload g.toDims f eb).length = g.ebBytes - 16 := readBytes_length _ _ _ _
    rw [Loader.streamOf, List.flatMap_cons, ← Loader.streamOf, List.length_append, ih, hpay,
      List.length_cons, Nat.add_mul, Nat.one_mul, Nat.add_comm]

theorem TableBytes.length {r : Ram} {bs : List UInt8} (h : TableBytes g.toDims r bs) :
    bs.length = Loader.streamLength g.toDims := by
  obtain ⟨pe, hpe, r', -, rfl⟩ := h
  have hentries : ∀ is : List ℕ, (is.flatMap fun i => bytesBE16 (r.l2p i)).length =
      2 * is.length := by
    intro is
    induction is with
    | nil => rfl
    | cons i is ih =>
      rw [List.flatMap_cons, List.length_append, ih, List.length_cons]
      show 2 + 2 * is.length = _
      omega
  simp only [List.length_append, hpe, hentries, List.length_map, List.length_range,
    Loader.ftlInfo_length, Loader.streamLength]
  rfl

/-- Where the stream is in its block. -/
theorem Stored.offset {p : Stream × Ftl} (h : Stored g.toDims E f done cur p) (hcur : cur ≠ []) :
    p.1.offset = 12 + cur.length := by
  have hpage := h.cur.resolve_left fun hzero => hcur hzero.2.2
  rw [hpage.offset, blockBody_length]

/-- A stream that has just been opened. -/
theorem openMetadataStreamForWrite_stored {p : Stream × Ftl} {drift : ℤ}
    (h : Accounted g.toDims drift s.ram.metaEBList s.ram)
    (hres : openMetadataStreamForWrite g.toDims s = some p) :
    Stored g.toDims p.2.ram.metadataEpoch p.2.flash [] [] p ∧ p.1.ebList.Nodup := by
  rcases hfree : freeStale g.toDims s.ram.metaEBList s with ⟨l₁, s₁⟩
  simp only [openMetadataStreamForWrite, hfree] at hres
  obtain ⟨⟨l₂, q, r⟩, halloc, hres⟩ := Option.bind_eq_some_iff.mp hres
  cases hres
  have hacc₁ := (freeStale_spec (K := ∅) [] h (fun b hb => hb.elim) hfree).1
  obtain ⟨-, htaken, -⟩ := allocate_spec [] hacc₁ halloc
  refine ⟨⟨rfl, rfl, fun i eb hi => ?_, .inl ⟨rfl, rfl, rfl⟩, fun _ _ _ _ => rfl⟩, htaken.nodup⟩
  cases hi

/-- The blocks `done` are metadata blocks of the epoch, in order, and hold the stream. -/
structure Holds (g : Dims) (f : Cells) (epoch : ℕ) (done : List ℕ) (bs : List UInt8) : Prop where
  image : ∀ i eb, done[i]? = some eb →
    Loader.HasImage g f eb epoch (i % 2 ^ 8) (Loader.payload g f eb)
  stream : ∃ k < g.ebBytes - 16, Loader.streamOf g f done = bs ++ List.replicate k 0

/-- **A persist leaves the tables on a flash that works**: in the first of the blocks it takes, with
zeros behind them that fill the last of these, and changes no other block once the stream is
open. -/
theorem exists_holds_of_doPersist {drift : ℤ}
    (h : Accounted g.toDims drift s.ram.metaEBList s.ram) (hs : s.Working)
    (hres : s.doPersist g.toDims = some s') :
    ∃ p bs done l, openMetadataStreamForWrite g.toDims s = some p ∧
      TableBytes g.toDims p.2.ram bs ∧ p.1.ebList = done ++ l ∧
      Holds g.toDims s'.flash p.2.ram.metadataEpoch done bs ∧
      (∀ e ∉ done, ∀ o, s'.flash e o = p.2.flash e o) ∧ Worn p.2.ram { s'.ram with
        metadataAge := p.2.ram.metadataAge } := by
  obtain ⟨p, bs, p₁, p', hopen, htables, hwrites, hclose, rfl⟩ := exists_closes_of_doPersist h hres
  obtain ⟨hok, hacc, hmoves, -⟩ := openMetadataStreamForWrite_spec h (standing_empty g s) hopen
  obtain ⟨hstored, hnodup⟩ := openMetadataStreamForWrite_stored h hopen
  have hw := hmoves.working hs
  have hstr := Streaming.writes hok hacc hwrites
  obtain ⟨done₁, cur₁, hlist₁, hstream₁, h₁, hne₁⟩ := hstored.writes hok hw hacc hnodup hwrites
  have hlength := htables.length
  have hne : bs ≠ [] := by
    rintro rfl
    rw [Loader.streamLength] at hlength
    simp at hlength
  have hsum : done₁.length * (g.ebBytes - 16) + cur₁.length = bs.length := by
    have hboth := congrArg List.length hstream₁
    rwa [List.length_append, streamOf_length, List.append_nil] at hboth
  -- both the stream and what a block holds of it are even
  obtain ⟨c, hc⟩ : ∃ c, g.ebBytes - 16 = 2 * c :=
    ⟨256 * g.slotsPerEB - 8, by rw [g.ebBytes_eq, lbaBytes]; omega⟩
  have htwo : 2 ≤ cur₁.length := by
    have hpos := List.length_pos_of_ne_nil (hne₁ (.inr hne))
    have heven : done₁.length * (g.ebBytes - 16) = 2 * (done₁.length * c) := by
      rw [hc]
      ring
    rw [hlength, Loader.streamLength, heven] at hsum
    omega
  have hoff₁ := h₁.offset (hne₁ (.inr hne))
  have hle₁ := hstr.ok.le
  obtain ⟨hzeros, hend⟩ := writes_of_closeMetadataStream_of_lt (by omega) hle₁ (by omega) hclose
  obtain ⟨done, cur, hlist, hstream, h', hcur⟩ := h₁.writes hstr.ok (hstr.moves.working hw) hstr.acc
    (hlist₁ ▸ hnodup) hzeros
  obtain ⟨k, hk⟩ : ∃ k, g.ebBytes - 3 - p₁.1.offset = k + 1 :=
    ⟨g.ebBytes - 4 - p₁.1.offset, by omega⟩
  rw [hk] at hzeros hstream hcur
  have hone : cur.length = 1 := by
    have := h'.offset (hcur (.inr (List.cons_ne_nil _ _)))
    omega
  rw [hstream₁, List.replicate_succ', ← List.append_assoc] at hstream
  have hheld := (List.append_inj' hstream hone).1
  obtain ⟨pe, highest, offset, heq⟩ :=
    hstr.worn.trans (Streaming.writes hstr.ok hstr.acc hzeros).worn
  refine ⟨p, bs, done, p'.1.ebList, hopen, htables, (hlist.trans hlist₁).symm,
    ⟨h'.image, k, by omega, hheld⟩, fun e he o => h'.frame e he (fun _ => ?_) o,
    pe, highest, offset, by rw [heq]⟩
  rw [hend]
  decide

end Ftl

end Ch32h4.Spiftl
