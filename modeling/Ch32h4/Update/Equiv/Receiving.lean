import Ch32h4.Update.Updater
import Mathlib.Data.List.GetD

/-!
# Receiving an update

`Receiving` is what holds while an update runs: the bytes accepted so far are those written out,
followed by those in the page buffer, and there are at most as many as were declared.  Adding to
the buffer (`Receiving.store`) and writing it out (`Receiving.writeBuffer`) keep it, and the loops
of the three ways in are made of these two: `write_spec`, `writeFrom_spec` and `writeStream_spec`
say the same of each, that the bytes it counts are accepted in order.
-/

namespace Ch32h4.Update

open Flash Md5

/-! ### Memory -/

namespace Mem

@[simp] theorem read_length (mem : Mem) (off : ℤ) (len : ℕ) : (mem.read off len).length = len := by
  simp [read]

theorem read_getElem (mem : Mem) (off : ℤ) (len i : ℕ) (h : i < (mem.read off len).length) :
    (mem.read off len)[i] = mem (off + i) := by
  simp [read]

theorem read_add (mem : Mem) (off : ℤ) (m n : ℕ) :
    mem.read off (m + n) = mem.read off m ++ mem.read (off + m) n := by
  simp only [read, List.range_add, List.map_append, List.map_map]
  congr 1
  refine List.map_congr_left fun i _ => ?_
  simp only [Function.comp_apply, Int.natCast_add, Int.add_assoc]

theorem read_congr {mem mem' : Mem} {off : ℤ} {len : ℕ}
    (h : ∀ i < len, mem' (off + i) = mem (off + i)) : mem'.read off len = mem.read off len :=
  List.map_congr_left fun i hi => h i (List.mem_range.mp hi)

/-- A copy leaves what is outside its range. -/
theorem copy_of_lt (mem : Mem) {off i : ℕ} (bs : List UInt8) (h : i < off) :
    mem.copy off bs i = mem i :=
  if_neg fun hin => absurd hin.1 (by omega)

theorem copy_of_ge (mem : Mem) {off i : ℕ} (bs : List UInt8) (h : off + bs.length ≤ i) :
    mem.copy off bs i = mem i :=
  if_neg fun hin => absurd hin.2 (by omega)

/-- A copy behind what was read so far extends it. -/
theorem read_copy (mem : Mem) (off : ℕ) (bs : List UInt8) :
    (mem.copy off bs).read 0 (off + bs.length) = mem.read 0 off ++ bs := by
  rw [read_add]
  congr 1
  · exact read_congr fun i hi => by rw [Int.zero_add, copy_of_lt mem bs hi]
  · refine List.ext_getElem (by simp) fun i h₁ h₂ => ?_
    rw [read_getElem]
    have hin : (off : ℤ) ≤ 0 + off + i ∧ 0 + off + (i : ℤ) < off + bs.length := by omega
    have hi : (0 + (off : ℤ) + i).toNat - off = i := by omega
    rw [copy, if_pos hin, hi, List.getD_eq_getElem _ _ h₂]

end Mem

/-! ### The invariant -/

namespace Updater

/-- What is known of the staged image of a sketch. -/
structure Staging (b : Board) (declared : ℕ) (acc : List UInt8) (ever : Bool) (u : Updater)
    (mem : Mem) : Prop where
  alloc : u.staging = some mem
  start : u.startAddress = 0
  region : declared ≤ b.sketchSize
  /-- What was accepted is in the image, or in the page buffer. -/
  image : mem.read 0 u.currentAddress ++ u.buffer = acc
  pad : ∀ i : ℕ, declared ≤ i → i < b.roundUp declared → mem i = 0xFF
  /-- The MD5 has been fed the image. -/
  md5 : ever = false → u.signer = none ∧ u.md5 = Builder.begin.add (mem.read 0 u.currentAddress)

/-- What holds while an update of `declared` bytes runs, with `acc` accepted so far. -/
structure Receiving (b : Board) (declared : ℕ) (acc : List UInt8) (ever : Bool) (u : Updater) :
    Prop where
  size : u.size = declared
  pos : 0 < declared
  small : declared < 2 ^ 32
  error : u.error = .ok
  start_le : u.startAddress ≤ u.currentAddress
  length : acc.length = u.progress + u.buffer.length
  fits : acc.length ≤ declared
  buffer_le : u.buffer.length ≤ bufferSize
  staged : u.staged = false
  past : u.past = false
  signed : u.signer ≠ none → ever = true
  flash : u.command = .flash → ∃ mem, Staging b declared acc ever u mem
  fs : u.command ≠ .flash → u.staging = none

/-- An update that was given up. -/
structure Down (u : Updater) : Prop where
  size : u.size = 0
  staged : u.staged = false
  past : u.past = false

/-- Once everything is accepted, nothing waits in the page buffer. -/
def Prompt (u : Updater) : Prop := u.buffer.length = u.remaining → u.buffer = []

theorem reset_down {u : Updater} (hs : u.staged = false) (hp : u.past = false) : Down u.reset :=
  ⟨rfl, hs, hp⟩

theorem setError_down {u : Updater} (hs : u.staged = false) (hp : u.past = false) (e : Error) :
    Down (u.setError e) :=
  reset_down hs hp

section

variable {b : Board} {declared : ℕ} {acc : List UInt8} {ever : Bool} {u : Updater} {drv : Driver}

theorem Receiving.progress_le (h : Receiving b declared acc ever u) : u.progress ≤ u.size := by
  have := h.length
  have := h.fits
  have := h.size
  omega

/-- What remains does not wrap. -/
theorem Receiving.remaining_eq (h : Receiving b declared acc ever u) :
    u.remaining = u.size - u.progress := by
  have hle := h.progress_le
  have hsize := h.size
  have hsmall := h.small
  unfold remaining sizeSub
  omega

/-- What is missing is what remains, less the page buffer. -/
theorem Receiving.missing (h : Receiving b declared acc ever u) :
    u.remaining = declared - acc.length + u.buffer.length := by
  have := h.remaining_eq
  have := h.length
  have := h.fits
  have := h.size
  omega

/-- Adding to the page buffer. -/
theorem Receiving.store (h : Receiving b declared acc ever u) (bs : List UInt8)
    (hfits : acc.length + bs.length ≤ declared) (hle : u.buffer.length + bs.length ≤ bufferSize) :
    Receiving b declared (acc ++ bs) ever (u.store bs) where
  size := h.size
  pos := h.pos
  small := h.small
  error := h.error
  start_le := h.start_le
  length := by
    have hlen := h.length
    have hprog : (u.store bs).progress = u.progress := rfl
    have hbuf : (u.store bs).buffer = u.buffer ++ bs := rfl
    rw [hprog, hbuf, List.length_append, List.length_append]
    omega
  fits := by rwa [List.length_append]
  buffer_le := by
    have hbuf : (u.store bs).buffer = u.buffer ++ bs := rfl
    rwa [hbuf, List.length_append]
  staged := h.staged
  past := h.past
  signed := h.signed
  flash hc := by
    obtain ⟨mem, hmem⟩ := h.flash hc
    refine ⟨mem, hmem.alloc, hmem.start, hmem.region, ?_, hmem.pad, hmem.md5⟩
    rw [← hmem.image, List.append_assoc]
    rfl
  fs := h.fs

/-- Taking nothing. -/
theorem Receiving.of_nil (h : Receiving b declared (acc ++ []) ever u) :
    Receiving b declared acc ever u := by
  rwa [List.append_nil] at h

/-- The page buffer written out. -/
structure Flushed (b : Board) (declared : ℕ) (acc : List UInt8) (ever : Bool) (u u' : Updater) :
    Prop where
  receiving : Receiving b declared acc ever u'
  buffer : u'.buffer = []
  command : u'.command = u.command

/-- The part of `advance` that does not depend on where the bytes went. -/
theorem Receiving.advance (h : Receiving b declared acc ever u) {u' : Updater}
    (hu' : u' = u ∨ ∃ st, u' = { u with staging := st })
    (hflash : u.command = .flash → ∃ mem, Staging b declared acc ever u'.advance mem)
    (hfs : u.command ≠ .flash → u'.staging = none) : Flushed b declared acc ever u u'.advance := by
  have hsame : u'.buffer = u.buffer ∧ u'.size = u.size ∧ u'.error = u.error ∧
      u'.startAddress = u.startAddress ∧ u'.currentAddress = u.currentAddress ∧
      u'.staged = u.staged ∧ u'.past = u.past ∧ u'.signer = u.signer ∧ u'.command = u.command := by
    rcases hu' with rfl | ⟨st, rfl⟩ <;> exact ⟨rfl, rfl, rfl, rfl, rfl, rfl, rfl, rfl, rfl⟩
  obtain ⟨hbuf, hsize, herr, hstart, hcur, hstg, hpast, hsig, hcmd⟩ := hsame
  have hle := h.start_le
  have hlen := h.length
  have hfits := h.fits
  have hsz := h.size
  have hcur' : u'.advance.currentAddress = u.currentAddress + u.buffer.length := by
    rw [← hcur, ← hbuf]
    rfl
  refine ⟨⟨hsize.trans h.size, h.pos, h.small, herr.trans h.error, ?_, ?_, h.fits, ?_,
    hstg.trans h.staged, ?_, ?_, fun hc => hflash (hcmd ▸ hc), fun hc => hfs (hcmd ▸ hc)⟩, rfl,
    hcmd⟩
  · rw [hcur', show u'.advance.startAddress = _ from hstart]
    omega
  · have hprog : u'.advance.progress = u.progress + u.buffer.length := by
      unfold progress
      rw [hcur', show u'.advance.startAddress = _ from hstart]
      omega
    rw [hprog]
    exact hlen
  · exact Nat.zero_le _
  · have hnot : ¬ u'.currentAddress + u'.buffer.length > u'.startAddress + u'.size := by
      rw [hcur, hbuf, hstart, hsize]
      unfold progress at hlen
      omega
    have hp : u'.advance.past =
        (u'.past || decide (u'.currentAddress + u'.buffer.length > u'.startAddress + u'.size)) := rfl
    rw [hp, hpast, h.past, decide_eq_false hnot]
    rfl
  · rw [show u'.advance.signer = _ from hsig]
    exact h.signed

/-- **Writing out the page buffer** keeps what was accepted, or gives the update up. -/
theorem Receiving.writeBuffer (h : Receiving b declared acc ever u) :
    ((u.writeBuffer b drv).2 = true ∧ Flushed b declared acc ever u (u.writeBuffer b drv).1) ∨
      ((u.writeBuffer b drv).2 = false ∧ Down (u.writeBuffer b drv).1 ∧ u.command ≠ .flash) := by
  unfold Updater.writeBuffer
  by_cases hc : u.command = .flash
  · rw [if_pos hc]
    obtain ⟨mem, hmem⟩ := h.flash hc
    refine .inl ⟨rfl, h.advance (.inr ⟨_, rfl⟩) (fun _ => ?_) fun hne => absurd hc hne⟩
    refine ⟨mem.copy u.currentAddress u.buffer, ?_, hmem.start, hmem.region, ?_, fun i hi hi' => ?_,
      fun he => ?_⟩
    · simp only [Updater.advance, hmem.alloc, Option.map_some]
    · simp only [Updater.advance, Mem.read_copy, List.append_nil, hmem.image]
    · have hlen := h.length
      have hfits := h.fits
      have hstart := hmem.start
      unfold progress at hlen
      rw [Mem.copy_of_ge mem u.buffer (by omega)]
      exact hmem.pad i hi hi'
    · obtain ⟨hsig, hmd5⟩ := hmem.md5 he
      refine ⟨hsig, ?_⟩
      simp only [Updater.advance, hsig, Option.isNone_none, if_true, Mem.read_copy, hmd5,
        Builder.add_append]
  · rw [if_neg hc]
    split_ifs
    · exact .inr ⟨rfl, setError_down h.staged h.past _, hc⟩
    · exact .inl ⟨rfl, h.advance (.inl rfl) (fun hf => absurd hf hc) h.fs⟩
    · exact .inr ⟨rfl, setError_down h.staged h.past _, hc⟩

/-! ### The three ways in -/

/-- After a call that took bytes: the update runs on with `acc`, or it was given up. -/
def Goes (b : Board) (declared : ℕ) (acc : List UInt8) (ever : Bool) (u : Updater) : Prop :=
  Receiving b declared acc ever u ∧ Prompt u ∨ Down u

theorem Flushed.prompt {u' : Updater} (h : Flushed b declared acc ever u u') : Prompt u' :=
  fun _ => h.buffer

variable (drv)

/-- The loop of `write` moves what it is given into pages, and the rest fits the page buffer. -/
theorem writeLoop_spec (n : ℕ) :
    ∀ (u : Updater) (acc left : List UInt8), Receiving b declared acc ever u →
      acc.length + left.length ≤ declared → u.buffer.length + left.length ≤ bufferSize * (n + 1) →
        ((writeLoop b drv n u left).2.2 = true ∧
          ∃ moved, moved ++ (writeLoop b drv n u left).2.1 = left ∧
            Receiving b declared (acc ++ moved) ever (writeLoop b drv n u left).1 ∧
            (writeLoop b drv n u left).1.buffer.length + (writeLoop b drv n u left).2.1.length ≤
              bufferSize ∧
            (writeLoop b drv n u left).1.command = u.command) ∨
        ((writeLoop b drv n u left).2.2 = false ∧ Down (writeLoop b drv n u left).1 ∧
          u.command ≠ .flash) := by
  induction n with
  | zero =>
    intro u acc left h _ htotal
    refine .inl ⟨rfl, [], rfl, by rwa [List.append_nil], ?_, rfl⟩
    rwa [Nat.zero_add, Nat.mul_one] at htotal
  | succ n ih =>
    intro u acc left h hfits htotal
    have hbuf := h.buffer_le
    unfold writeLoop
    split_ifs with hover
    · set k := bufferSize - u.buffer.length with hk
      have htake : (left.take k).length = k := List.length_take_of_le (by omega)
      have hdrop : (left.drop k).length = left.length - k := List.length_drop
      have hstore := h.store (left.take k) (by omega) (by omega)
      dsimp only
      rcases hstore.writeBuffer with ⟨hok, hflush⟩ | ⟨hno, hdown, hfs⟩
      · rw [if_pos hok]
        have hrest : (acc ++ left.take k).length + (left.drop k).length ≤ declared := by
          rw [List.length_append]
          omega
        have htotal' : ((u.store (left.take k)).writeBuffer b drv).1.buffer.length +
            (left.drop k).length ≤ bufferSize * (n + 1) := by
          rw [hflush.buffer, List.length_nil]
          rw [Nat.mul_add bufferSize (n + 1) 1] at htotal
          omega
        rcases ih _ _ _ hflush.receiving hrest htotal' with
          ⟨hok', moved, hmoved, hrec, hle, hcmd⟩ | ⟨hno, hdown, hfs⟩
        · refine .inl ⟨hok', left.take k ++ moved, ?_, ?_, hle, hcmd.trans hflush.command⟩
          · rw [List.append_assoc, hmoved, List.take_append_drop]
          · rwa [← List.append_assoc]
        · exact .inr ⟨hno, hdown, fun hf => hfs (hflush.command.trans hf)⟩
      · rw [if_neg (by rw [hno]; exact Bool.false_ne_true)]
        exact .inr ⟨rfl, hdown, hfs⟩
    · exact .inl ⟨rfl, [], rfl, by rwa [List.append_nil], Nat.le_of_not_gt hover, rfl⟩

/-- **`write`** takes all of its buffer, or gives the update up; into a sketch it takes whatever
fits. -/
theorem write_spec (h : Receiving b declared acc ever u) (data : List UInt8) :
    Goes b declared (acc ++ data.take (u.write b drv data).2) ever (u.write b drv data).1 ∧
      (u.command = .flash → acc.length + data.length ≤ declared →
        (u.write b drv data).2 = data.length ∧
          Receiving b declared (acc ++ data) ever (u.write b drv data).1) := by
  have hrun : ¬ (u.error ≠ .ok ∨ ¬ u.isRunning) := by
    rw [h.error, isRunning, h.size]
    simpa using Nat.pos_iff_ne_zero.mp h.pos
  have hlen := h.length
  have hbuf := h.buffer_le
  unfold write
  rw [if_neg hrun]
  by_cases hover : u.progress + u.buffer.length + data.length > u.size
  · rw [if_pos hover]
    refine ⟨.inr (setError_down h.staged h.past _), fun _ hfits => absurd hfits ?_⟩
    have := h.size
    omega
  · rw [if_neg hover]
    have hfits : acc.length + data.length ≤ declared := by
      have := h.size
      omega
    have htotal : u.buffer.length + data.length ≤ bufferSize * (data.length + 1 + 1) := by
      simp only [bufferSize] at hbuf ⊢
      omega
    have hloop := writeLoop_spec drv (data.length + 1) u acc data h hfits htotal
    rcases hr : writeLoop b drv (data.length + 1) u data with ⟨u', left, ok⟩
    rw [hr] at hloop
    dsimp only at hloop ⊢
    rcases hloop with ⟨rfl, moved, rfl, hrec, hle, hcmd⟩ | ⟨rfl, hdown, hfs⟩
    · have hmoved : (moved ++ left).take (moved ++ left).length = moved ++ left := List.take_length
      have hall : (acc ++ moved).length + left.length ≤ declared := by
        rw [List.length_append]
        rw [List.length_append] at hfits
        omega
      have hstore := hrec.store left hall hle
      rw [List.append_assoc] at hstore
      rw [if_neg (by simp)]
      split_ifs with hend hw
      · -- the end of the update: the page buffer is written out
        rcases hstore.writeBuffer with ⟨-, hflush⟩ | ⟨hno, -⟩
        · rw [hmoved]
          exact ⟨.inl ⟨hflush.receiving, hflush.prompt⟩, fun _ _ => ⟨rfl, hflush.receiving⟩⟩
        · rw [hno] at hw
          cases hw
      · rcases hstore.writeBuffer with ⟨hok, -⟩ | ⟨-, hdown, hfs⟩
        · exact absurd hok hw
        · exact ⟨.inr hdown, fun hf => absurd (hcmd.trans hf) hfs⟩
      · rw [hmoved]
        exact ⟨.inl ⟨hstore, fun heq => absurd heq hend⟩, fun _ _ => ⟨rfl, hstore⟩⟩
    · rw [if_pos (by simp)]
      exact ⟨.inr hdown, fun hf => absurd hf hfs⟩

/-- A turn of the template takes no more than is missing. -/
theorem Receiving.clamp_le (h : Receiving b declared acc ever u) (available : ℕ) :
    acc.length + u.clamp available ≤ declared ∧ u.clamp available ≤ available := by
  have hmiss := h.missing
  have hrem := h.remaining_eq
  have hsize := h.size
  have hsmall := h.small
  have hfits := h.fits
  unfold clamp sizeSub
  split_ifs <;> omega

/-- One turn of the template. -/
theorem fromTurn_spec (h : Receiving b declared acc ever u) (src : List UInt8) {available : ℕ}
    (hfits : acc.length + available ≤ declared) (hsrc : available ≤ src.length) :
    Goes b declared (acc ++ src.take (u.fromTurn b drv src available).2.1) ever
        (u.fromTurn b drv src available).1 ∧
      ((u.fromTurn b drv src available).2.2 = true →
        Receiving b declared (acc ++ src.take (u.fromTurn b drv src available).2.1) ever
          (u.fromTurn b drv src available).1) := by
  have hbuf := h.buffer_le
  unfold fromTurn
  by_cases hover : u.buffer.length + available > bufferSize
  · rw [if_pos hover]
    set k := bufferSize - u.buffer.length with hk
    have htake : (src.take k).length = k := List.length_take_of_le (by omega)
    have hstore := h.store (src.take k) (by omega) (by omega)
    dsimp only
    rcases hstore.writeBuffer with ⟨hok, hflush⟩ | ⟨hno, hdown, -⟩
    · rw [if_pos hok]
      exact ⟨.inl ⟨hflush.receiving, hflush.prompt⟩, fun _ => hflush.receiving⟩
    · rw [if_neg (by rw [hno]; exact Bool.false_ne_true)]
      exact ⟨.inr hdown, fun hgo => Bool.noConfusion hgo⟩
  · rw [if_neg hover]
    have htake : (src.take available).length = available := List.length_take_of_le hsrc
    have hstore := h.store (src.take available) (by omega) (by omega)
    dsimp only
    by_cases hend : (u.store (src.take available)).buffer.length =
        (u.store (src.take available)).remaining
    · rw [if_pos hend]
      rcases hstore.writeBuffer with ⟨hok, hflush⟩ | ⟨hno, hdown, -⟩
      · rw [if_pos hok]
        exact ⟨.inl ⟨hflush.receiving, hflush.prompt⟩, fun _ => hflush.receiving⟩
      · rw [if_neg (by rw [hno]; exact Bool.false_ne_true)]
        exact ⟨.inr hdown, fun hgo => Bool.noConfusion hgo⟩
    · rw [if_neg hend]
      exact ⟨.inl ⟨hstore, fun heq => absurd heq hend⟩, fun _ => hstore⟩

theorem fromLoop_done {offer : ℕ} {offers : List ℕ} {src : List UInt8} {written : ℕ}
    (h : min offer src.length = 0) :
    fromLoop b drv (offer :: offers) u src written = (u, written) := by
  rw [fromLoop]
  exact if_pos h

/-- A turn of the loop of the template, with the result of the turn at hand. -/
theorem fromLoop_turn {offer : ℕ} {offers : List ℕ} {src : List UInt8} {written : ℕ}
    (h : min offer src.length ≠ 0) {r : Updater × ℕ × Bool}
    (hr : u.fromTurn b drv src (u.clamp (min offer src.length)) = r) :
    fromLoop b drv (offer :: offers) u src written =
      if r.2.2 then fromLoop b drv offers r.1 (src.drop r.2.1) (written + r.2.1)
      else (r.1, written + r.2.1) := by
  subst hr
  rw [fromLoop]
  exact if_neg h

/-- The loop of the template. -/
theorem fromLoop_spec (offers : List ℕ) :
    ∀ (u : Updater) (acc src : List UInt8) (written : ℕ), Receiving b declared acc ever u →
      Prompt u →
        ∃ k, (fromLoop b drv offers u src written).2 = written + k ∧
          Goes b declared (acc ++ src.take k) ever (fromLoop b drv offers u src written).1 := by
  induction offers with
  | nil => exact fun u acc src written h hp => ⟨0, rfl, .inl ⟨by rwa [List.take_zero,
      List.append_nil], hp⟩⟩
  | cons offer offers ih =>
    intro u acc src written h hp
    by_cases hzero : min offer src.length = 0
    · rw [fromLoop_done drv hzero]
      exact ⟨0, rfl, .inl ⟨by rwa [List.take_zero, List.append_nil], hp⟩⟩
    · obtain ⟨hfits, hle⟩ := h.clamp_le (min offer src.length)
      obtain ⟨hgoes, hgo⟩ := fromTurn_spec drv h src hfits (by omega)
      rcases hr : u.fromTurn b drv src (u.clamp (min offer src.length)) with ⟨u', n, goOn⟩
      rw [fromLoop_turn drv hzero hr]
      rw [hr] at hgoes hgo
      dsimp only at hgoes hgo ⊢
      by_cases hgoOn : goOn = true
      · rw [if_pos hgoOn]
        have hrec := hgo hgoOn
        have hp' : Prompt u' := by
          rcases hgoes with ⟨-, hp'⟩ | hdown
          · exact hp'
          · exact absurd hdown.size (by rw [hrec.size]; exact Nat.pos_iff_ne_zero.mp hrec.pos)
        obtain ⟨k, hk, hrest⟩ := ih u' _ (src.drop n) (written + n) hrec hp'
        refine ⟨n + k, by rw [hk, Nat.add_assoc], ?_⟩
        rwa [List.take_add, ← List.append_assoc]
      · rw [if_neg hgoOn]
        exact ⟨n, rfl, hgoes⟩

/-- **The template `write`** takes the bytes it counts, in order, or gives the update up. -/
theorem writeFrom_spec (h : Receiving b declared acc ever u) (hp : Prompt u) (src : List UInt8)
    (offers : List ℕ) :
    Goes b declared (acc ++ src.take (u.writeFrom b drv src offers).2) ever
      (u.writeFrom b drv src offers).1 := by
  have hrun : ¬ (u.error ≠ .ok ∨ ¬ u.isRunning) := by
    rw [h.error, isRunning, h.size]
    simpa using Nat.pos_iff_ne_zero.mp h.pos
  unfold writeFrom
  rw [if_neg hrun]
  obtain ⟨k, hk, hgoes⟩ := fromLoop_spec drv offers u acc src 0 h hp
  rwa [hk, Nat.zero_add]

/-- One turn of `writeStream`, when the read does not return more than is missing. -/
theorem streamTurn_spec (h : Receiving b declared acc ever u) (bs : List UInt8)
    (hfits : acc.length + bs.length ≤ declared) (hle : u.buffer.length + bs.length ≤ bufferSize) :
    ((u.streamTurn b drv bs).2 = true ∧
        Receiving b declared (acc ++ bs) ever (u.streamTurn b drv bs).1 ∧
        Prompt (u.streamTurn b drv bs).1) ∨
      ((u.streamTurn b drv bs).2 = false ∧ Down (u.streamTurn b drv bs).1) := by
  have hstore := h.store bs hfits hle
  unfold streamTurn
  dsimp only
  split_ifs with hend
  · rcases hstore.writeBuffer with ⟨hok, hflush⟩ | ⟨hno, hdown, -⟩
    · exact .inl ⟨hok, hflush.receiving, hflush.prompt⟩
    · exact .inr ⟨hno, hdown⟩
  · exact .inl ⟨rfl, hstore, fun heq => absurd (.inl heq) hend⟩

theorem toRead_le (u : Updater) (arrived : ℕ) (bytes : List UInt8) :
    u.toRead arrived bytes ≤ bufferSize - u.buffer.length ∧
      u.toRead arrived bytes ≤ bytes.length := by
  unfold toRead
  dsimp only
  split_ifs <;> omega

/-- The loop of `writeStream`: it completes the update, or gives it up. -/
theorem streamLoop_spec (arrivals : List ℕ) :
    ∀ (u : Updater) (acc bytes : List UInt8) (written : ℕ), Receiving b declared acc ever u →
      Prompt u → StreamFits b drv arrivals u bytes →
        ∃ k, (streamLoop b drv arrivals u bytes written).2 = written + k ∧
          Goes b declared (acc ++ bytes.take k) ever (streamLoop b drv arrivals u bytes written).1 ∧
          (Down (streamLoop b drv arrivals u bytes written).1 ∨
            (acc ++ bytes.take k).length = declared) := by
  have hdone : ∀ (u : Updater) (acc : List UInt8), Receiving b declared acc ever u → Prompt u →
      u.remaining = 0 → acc.length = declared := by
    intro u acc h hp hzero
    have hmiss := h.missing
    have hfits := h.fits
    omega
  induction arrivals with
  | nil =>
    intro u acc bytes written h hp _
    unfold streamLoop
    split_ifs with hzero
    · refine ⟨0, rfl, .inl ⟨by rwa [List.take_zero, List.append_nil], hp⟩, .inr ?_⟩
      rw [List.take_zero, List.append_nil]
      exact hdone u acc h hp hzero
    · have hdown : Down ({ u with currentAddress := u.startAddress + u.size }.setError
          .stream |>.reset) := reset_down h.staged h.past
      exact ⟨0, rfl, .inr hdown, .inl hdown⟩
  | cons arrived arrivals ih =>
    intro u acc bytes written h hp hfit
    unfold streamLoop
    by_cases hzero : u.remaining = 0
    · rw [if_pos hzero]
      refine ⟨0, rfl, .inl ⟨by rwa [List.take_zero, List.append_nil], hp⟩, .inr ?_⟩
      rw [List.take_zero, List.append_nil]
      exact hdone u acc h hp hzero
    · rw [if_neg hzero]
      obtain ⟨hread, hrest⟩ := hfit.resolve_left hzero
      set n := u.toRead arrived bytes with hn
      obtain ⟨hroom, hlen⟩ := toRead_le u arrived bytes
      have hmiss := h.missing
      have hbuf := h.buffer_le
      have hfits := h.fits
      have htake : (bytes.take n).length = n := List.length_take_of_le hlen
      dsimp only
      set r := u.streamTurn b drv (bytes.take n) with hr
      rcases streamTurn_spec drv h (bytes.take n) (by omega) (by omega) with
        ⟨hok, hrec, hp'⟩ | ⟨hno, hdown⟩
      · rw [if_pos hok]
        obtain ⟨k, hk, hgoes, hend⟩ := ih r.1 _ (bytes.drop n) (written + n) hrec hp' hrest
        refine ⟨n + k, by rw [hk, Nat.add_assoc], ?_, ?_⟩
        · rwa [List.take_add, ← List.append_assoc]
        · rwa [List.take_add, ← List.append_assoc]
      · rw [if_neg (by rw [hno]; exact Bool.false_ne_true)]
        exact ⟨0, rfl, .inr hdown, .inl hdown⟩

/-- **`writeStream`** takes the bytes it counts, in order, and completes the update, or gives it
up. -/
theorem writeStream_spec (h : Receiving b declared acc ever u) (hp : Prompt u)
    {bytes : List UInt8} {arrivals : List ℕ} (hfit : StreamFits b drv arrivals u bytes) :
    Goes b declared (acc ++ bytes.take (u.writeStream b drv bytes arrivals).2) ever
        (u.writeStream b drv bytes arrivals).1 ∧
      (Down (u.writeStream b drv bytes arrivals).1 ∨
        (acc ++ bytes.take (u.writeStream b drv bytes arrivals).2).length = declared) := by
  have hrun : ¬ (u.error ≠ .ok ∨ ¬ u.isRunning) := by
    rw [h.error, isRunning, h.size]
    simpa using Nat.pos_iff_ne_zero.mp h.pos
  unfold writeStream
  rw [if_neg hrun]
  obtain ⟨k, hk, hgoes⟩ := streamLoop_spec drv arrivals u acc bytes 0 h hp hfit
  rwa [hk, Nat.zero_add]

end

end Updater

end Ch32h4.Update
