import Ch32h4.Update.Equiv.Receiving

/-!
# What `end` accepts, and what `commit` programs

`end` finds the image either wholly in memory (`Whole`) or not staged at all, and hands it over
after checking it: `Handover` says what is then known of the image, `end_spec` that `end` leaves it
so.  The signature is checked over all that comes before it (`checkSignature_verified`), and the
MD5 over all that was written out (`Received.check`).  `programs_otaCommit` is what the committer
does with the image.
-/

namespace Ch32h4.Update

open Flash Md5 Machine

/-! ### Pieces of the image -/

namespace Mem

@[simp] theorem read_zero (mem : Mem) (off : ℤ) : mem.read off 0 = [] := rfl

/-- Pieces of `k` bytes, one behind the other. -/
theorem read_pieces (mem : Mem) (k n m : ℕ) :
    ((List.range m).map fun i : ℕ => mem.read (k * i) (min k (n - k * i))).flatten =
      mem.read 0 (min n (k * m)) := by
  induction m with
  | zero => simp
  | succ m ih =>
    rw [List.range_succ, List.map_append, List.flatten_append, ih, List.map_singleton,
      List.flatten_singleton, Nat.mul_succ]
    by_cases hlt : n ≤ k * m
    · rw [Nat.sub_eq_zero_of_le hlt, Nat.min_zero, read_zero, List.append_nil,
        Nat.min_eq_left hlt, Nat.min_eq_left (by omega)]
    · have hsum : min n (k * m + k) = k * m + min k (n - k * m) := by omega
      rw [hsum, read_add, Nat.min_eq_right (by omega), Int.zero_add, Int.natCast_mul]

theorem word_bytes (mem : Mem) (off : ℤ) : bytesLE (mem.word off) = mem.read off 4 := by
  have hread : mem.read off 4 = [mem (off + 0), mem (off + 1), mem (off + 2), mem (off + 3)] := rfl
  rw [word, bytesLE_toNat, hread, Int.add_zero]

end Mem

namespace Updater

/-- The hash is fed all of the image, up to the signature. -/
theorem hashPieces_flatten (mem : Mem) (len : ℤ) :
    (hashPieces mem len).flatten = mem.read 0 len.toNat := by
  have hall : min len.toNat (128 * ((len.toNat + 127) / 128)) = len.toNat := by omega
  have hpieces := mem.read_pieces 128 len.toNat ((len.toNat + 127) / 128)
  rw [hall] at hpieces
  exact hpieces

/-- The committer programs `len` bytes of the image. -/
theorem programs_otaCommit (mem : Mem) {len : ℕ} (page : ℕ) (h : 256 ∣ len) :
    (otaCommit mem len page).flatMap CommitOp.programs = mem.read 0 len := by
  obtain ⟨m, rfl⟩ := h
  have hm : 256 * m / 256 = m := Nat.mul_div_cancel_left m (by decide)
  have hpieces := mem.read_pieces 256 (256 * m) m
  rw [Nat.min_self] at hpieces
  rw [← hpieces]
  unfold otaCommit
  have herase : ((List.range (256 * m / page)).map fun i : ℕ =>
      CommitOp.erase (i * page)).flatMap CommitOp.programs = [] := by
    rw [List.flatMap_eq_nil_iff]
    intro op hop
    obtain ⟨i, -, rfl⟩ := List.mem_map.mp hop
    rfl
  rw [List.flatMap_append, herase, List.nil_append, hm, List.flatMap_def, List.map_map]
  congr 1
  refine List.map_congr_left fun i hi => ?_
  have hi' := List.mem_range.mp hi
  have hfull : min 256 (256 * m - 256 * i) = 256 := by omega
  have hoff : (i : ℤ) * 256 = ((256 : ℕ) : ℤ) * i := by omega
  rw [hfull, ← hoff]
  rfl

end Updater

/-! ### Promises -/

/-- What was checked of an image and of what came behind it: the signature when a verifier was in
force, else the MD5, when one was set and no verifier had been installed during the update. -/
def Verified (h : Handed) (image trailer : List UInt8) : Prop :=
  match h.signer with
  | some v =>
    ∃ pieces sig, pieces.flatten = image ∧ sig.length = v.length ∧ v.verify pieces sig = true ∧
      trailer = if v.length = 0 then [] else sig ++ bytesLE v.length
  | none =>
    trailer = [] ∧
      (h.everSigned = false → h.targetMd5 ≠ [] → Updater.sameHex h.targetMd5 (md5 image) = true)

/-- The bytes received have room for the signature that the verifier expects, with its length. -/
def LongEnough (h : Handed) (acc : List UInt8) : Prop :=
  ∀ v, h.signer = some v → v.length = 0 ∨ v.length + 4 ≤ acc.length

/-- The image in memory is what was received, and was checked. -/
structure Handover (b : Board) (declared : ℕ) (acc : List UInt8) (h : Handed) (len : ℕ)
    (mem : Mem) : Prop where
  region : declared ≤ b.sketchSize
  fits : acc.length ≤ declared
  image : LongEnough h acc →
    ∃ trailer, mem.read 0 len ++ trailer = acc ∧ Verified h (mem.read 0 len) trailer
  pad : ∀ i : ℕ, declared ≤ i → i < b.roundUp declared → mem i = 0xFF

namespace Updater

section

variable {b : Board} {declared : ℕ} {acc : List UInt8} {ever : Bool} {u : Updater} {drv : Driver}
  {mem : Mem}

/-! ### Ending -/

/-- The whole image is in memory. -/
structure Whole (b : Board) (declared : ℕ) (acc : List UInt8) (ever : Bool) (u : Updater)
    (mem : Mem) : Prop where
  command : u.command = .flash
  region : declared ≤ b.sketchSize
  fits : acc.length ≤ declared
  size : u.size = acc.length
  image : mem.read 0 acc.length = acc
  pad : ∀ i : ℕ, declared ≤ i → i < b.roundUp declared → mem i = 0xFF
  md5 : ever = false → u.signer = none ∧ u.md5 = Builder.begin.add acc

/-- What the checks of `end` find: no staged image, or a whole one. -/
structure Received (b : Board) (declared : ℕ) (acc : List UInt8) (ever : Bool) (u : Updater) :
    Prop where
  staged : u.staged = false
  past : u.past = false
  image : ∀ mem, u.staging = some mem → Whole b declared acc ever u mem

/-- A running update that is finished has its image in memory. -/
theorem Receiving.received (h : Receiving b declared acc ever u) (hbuf : u.buffer = [])
    {n : ℕ} (hn : n = u.progress) : Received b declared acc ever { u with size := n } := by
  refine ⟨h.staged, h.past, fun mem hmem => ?_⟩
  have hflash : u.command = .flash := by
    by_contra hne
    rw [h.fs hne] at hmem
    cases hmem
  obtain ⟨mem', hstg⟩ := h.flash hflash
  obtain rfl : mem' = mem := Option.some.inj (hstg.alloc.symm.trans hmem)
  have hlen := h.length
  rw [hbuf, List.length_nil, Nat.add_zero] at hlen
  have hcur : u.currentAddress = acc.length := by
    rw [hlen, progress, hstg.start, Nat.sub_zero]
  have himage := hstg.image
  have hmd5 := hstg.md5
  rw [hbuf, List.append_nil, hcur] at himage
  rw [hcur, himage] at hmd5
  exact ⟨hflash, hstg.region, h.fits, hn.trans hlen.symm, himage, hstg.pad, hmd5⟩

/-- Taking what has been received for the whole image. -/
theorem Receiving.cutShort (h : Receiving b declared acc ever u) (drv : Driver) :
    Received b declared acc ever (u.cutShort b drv) ∧ (u.cutShort b drv).signer = u.signer ∧
      (u.cutShort b drv).targetMd5 = u.targetMd5 ∧
      (u.command = .flash → (u.cutShort b drv).staging ≠ none) := by
  have halloc : u.command = .flash → u.staging ≠ none := fun hc => by
    obtain ⟨mem, hmem⟩ := h.flash hc
    rw [hmem.alloc]
    exact Option.some_ne_none mem
  have hkeep : (u.writeBuffer b drv).1.signer = u.signer ∧
      (u.writeBuffer b drv).1.targetMd5 = u.targetMd5 ∧
      (u.command = .flash → (u.writeBuffer b drv).1.staging ≠ none) := by
    unfold Updater.writeBuffer
    by_cases hc : u.command = .flash
    · rw [if_pos hc]
      refine ⟨rfl, rfl, fun _ => ?_⟩
      obtain ⟨mem, hmem⟩ := h.flash hc
      show u.staging.map _ ≠ none
      rw [hmem.alloc]
      exact Option.some_ne_none _
    · rw [if_neg hc]
      split_ifs <;> exact ⟨rfl, rfl, fun hf => absurd hf hc⟩
  unfold Updater.cutShort
  by_cases hbuf : u.buffer.length > 0
  · rw [if_pos hbuf]
    refine ⟨?_, hkeep⟩
    rcases h.writeBuffer with ⟨-, hflush⟩ | ⟨-, hdown, hfs⟩
    · exact hflush.receiving.received hflush.buffer rfl
    · -- only the filesystem path fails, and it stages nothing
      refine ⟨hdown.staged, hdown.past, fun mem hmem => ?_⟩
      have hnone : (u.writeBuffer b drv).1.staging = none := by
        have hst := h.fs hfs
        unfold Updater.writeBuffer
        rw [if_neg hfs]
        split_ifs
        · simp [setError, reset, hst]
        · exact hst
        · simp [setError, reset, hst]
      rw [hnone] at hmem
      cases hmem
  · rw [if_neg hbuf]
    have hnil : u.buffer = [] := List.length_eq_zero_iff.mp (Nat.eq_zero_of_not_pos hbuf)
    exact ⟨h.received hnil rfl, rfl, rfl, halloc⟩

/-- What a signature check that succeeds has found. -/
theorem checkSignature_ok {v : Signer} {alloc : Bool}
    (hok : (u.checkSignature mem v alloc).2 = true) :
    u.sigLen mem v = v.length ∧
      v.verify (hashPieces mem (u.binSize mem v)) (u.signature mem v) = true ∧
      (u.checkSignature mem v alloc).1 =
        { u with size := (u.binSize mem v % 2 ^ 32).toNat,
                 imageLen := (u.binSize mem v % 2 ^ 32).toNat } := by
  unfold checkSignature at hok ⊢
  by_cases hlen : u.sigLen mem v ≠ v.length
  · rw [if_pos hlen] at hok
    cases hok
  · rw [if_neg hlen] at hok ⊢
    split_ifs at hok ⊢ with hal hver
    exact ⟨not_not.mp hlen, hver, rfl⟩

/-- **A signature that is found in order** was checked over all that comes before it. -/
theorem checkSignature_verified {v : Signer} {alloc : Bool} (hsize : u.size = acc.length)
    (himage : mem.read 0 acc.length = acc) (hlt : acc.length < 2 ^ 31)
    (hlong : v.length = 0 ∨ v.length + 4 ≤ acc.length)
    (hok : (u.checkSignature mem v alloc).2 = true) :
    ∃ trailer, mem.read 0 (u.checkSignature mem v alloc).1.size ++ trailer = acc ∧
      ∃ pieces sig, pieces.flatten = mem.read 0 (u.checkSignature mem v alloc).1.size ∧
        sig.length = v.length ∧ v.verify pieces sig = true ∧
        trailer = if v.length = 0 then [] else sig ++ bytesLE v.length := by
  obtain ⟨hword, hver, hu'⟩ := checkSignature_ok hok
  rw [hu']
  -- the signature and its length lie behind `n` bytes
  by_cases hzero : v.length = 0
  · have hpos : ¬ v.length > 0 := by omega
    have hbin : u.binSize mem v = acc.length := by rw [binSize, if_neg hpos, hsize]
    have hsz : (u.binSize mem v % 2 ^ 32).toNat = acc.length := by
      rw [hbin]
      omega
    dsimp only
    rw [hsz, himage]
    refine ⟨[], List.append_nil acc, _, _, ?_, ?_, hver, (if_pos hzero).symm⟩
    · rw [hashPieces_flatten, hbin, Int.toNat_natCast, himage]
    · rw [signature, if_neg hpos, List.length_nil, hzero]
  · have hpos : v.length > 0 := Nat.pos_of_ne_zero hzero
    have hle : v.length + 4 ≤ acc.length := hlong.resolve_left hzero
    obtain ⟨n, hn⟩ := Nat.exists_eq_add_of_le hle
    have hbin : u.binSize mem v = n := by
      rw [binSize, if_pos hpos, hword, hsize]
      have : (acc.length : ℤ) - (v.length + 4) = n := by omega
      rw [this]
      exact Int.bmod_eq_of_le (by omega) (by omega)
    have hsz : (u.binSize mem v % 2 ^ 32).toNat = n := by
      rw [hbin]
      omega
    have hsig : u.signature mem v = mem.read n v.length := by
      rw [signature, if_pos hpos, hbin, hword]
    have hlast : mem.read ((n + v.length : ℕ) : ℤ) 4 = bytesLE v.length := by
      have hoff : (u.size : ℤ) - 4 = ((n + v.length : ℕ) : ℤ) := by omega
      have hbytes := mem.word_bytes ((n + v.length : ℕ) : ℤ)
      rw [sigLen, if_pos hpos, hoff] at hword
      rw [← hbytes, hword]
    dsimp only
    rw [hsz]
    refine ⟨mem.read n v.length ++ bytesLE v.length, ?_, _, _, ?_, ?_, hver,
      by rw [hsig, if_neg hzero]⟩
    · have hall : acc.length = n + v.length + 4 := by omega
      rw [hall, Mem.read_add, Mem.read_add, Int.zero_add, Int.zero_add, hlast,
        List.append_assoc] at himage
      exact himage
    · rw [hashPieces_flatten, hbin, Int.toNat_natCast]
    · rw [hsig, Mem.read_length]

/-- A successful check leaves what is staged, and finds it verified. -/
theorem Received.check (h : Received b declared acc ever u) (null : Mem) (alloc : Bool) :
    ((u.check (u.staging.getD null) alloc).2 = false ∧
        Down (u.check (u.staging.getD null) alloc).1) ∨
      ((u.check (u.staging.getD null) alloc).2 = true ∧
        (u.check (u.staging.getD null) alloc).1.staged = false ∧
        (u.check (u.staging.getD null) alloc).1.past = false ∧
        (u.check (u.staging.getD null) alloc).1.staging = u.staging ∧
        (u.check (u.staging.getD null) alloc).1.command = u.command ∧
        ∀ mem, u.staging = some mem →
          Handover b declared acc ⟨u.signer, u.targetMd5, ever⟩
            (u.check (u.staging.getD null) alloc).1.size mem) := by
  have hmd5 : u.signer = none ∨ u.command ≠ .flash →
      (u.checkMD5.2 = false ∧ Down u.checkMD5.1) ∨
      (u.checkMD5.2 = true ∧ u.checkMD5.1.staged = false ∧ u.checkMD5.1.past = false ∧
        u.checkMD5.1.staging = u.staging ∧ u.checkMD5.1.command = u.command ∧
        ∀ mem, u.staging = some mem →
          Handover b declared acc ⟨u.signer, u.targetMd5, ever⟩ u.checkMD5.1.size mem) := by
    intro hwhy
    unfold checkMD5
    split_ifs with hbad
    · exact .inl ⟨rfl, setError_down h.staged h.past _⟩
    · refine .inr ⟨rfl, h.staged, h.past, rfl, rfl, fun mem hmem => ?_⟩
      have hw := h.image mem hmem
      refine ⟨hw.region, hw.fits, fun _ => ⟨[], ?_, ?_⟩, hw.pad⟩
      · rw [hw.size, List.append_nil, hw.image]
      · have hnone : u.signer = none := hwhy.resolve_right fun hne => hne hw.command
        unfold Verified
        simp only [hnone]
        refine ⟨trivial, fun hever htarget => ?_⟩
        obtain ⟨-, hm⟩ := hw.md5 hever
        rw [hw.size, hw.image, Md5.md5, ← hm]
        rw [not_and, not_not] at hbad
        exact hbad htarget
  unfold Updater.check
  cases hs : u.signer with
  | none =>
    have := hmd5 (.inl hs)
    rwa [hs] at this
  | some v =>
    dsimp only
    by_cases hflash : u.command = .flash
    · rw [if_pos hflash]
      cases hok : (u.checkSignature (u.staging.getD null) v alloc).2 with
      | false =>
        refine .inl ⟨rfl, ?_⟩
        unfold checkSignature at hok ⊢
        split_ifs at hok ⊢
        all_goals exact reset_down h.staged h.past
      | true =>
        obtain ⟨-, -, hu'⟩ := checkSignature_ok hok
        refine .inr ⟨rfl, ?_, ?_, ?_, ?_, fun mem hmem => ?_⟩
        · rw [hu']
          exact h.staged
        · rw [hu']
          exact h.past
        · rw [hu']
        · rw [hu']
        · have hw := h.image mem hmem
          refine ⟨hw.region, hw.fits, fun hlong => ?_, hw.pad⟩
          rw [hmem] at hok ⊢
          have hlt : acc.length < 2 ^ 31 :=
            Nat.lt_of_le_of_lt (Nat.le_trans hw.fits hw.region) b.sketchSize_lt
          obtain ⟨trailer, hall, hver⟩ :=
            checkSignature_verified hw.size hw.image hlt (hlong v rfl) hok
          exact ⟨trailer, hall, hver⟩
    · rw [if_neg hflash]
      have := hmd5 (.inr hflash)
      rwa [hs] at this

/-- What `end` leaves; `sketch` is whether an image is staged in RAM. -/
structure Ended (b : Board) (declared : ℕ) (acc : List UInt8) (h : Handed) (sketch : Prop)
    (r : Updater × Bool) : Prop where
  size : r.1.size = 0
  past : r.1.past = false
  staged : r.2 = false → r.1.staged = false
  image : ∀ mem, r.1.staged = true → r.1.staging = some mem →
    Handover b declared acc h r.1.imageLen mem
  kept : r.2 = true → sketch → r.1.staged = true ∧ r.1.staging ≠ none

theorem Down.ended {u' : Updater} (h : Down u') (hd : Handed) (sketch : Prop) :
    Ended b declared acc hd sketch (u', false) :=
  ⟨h.size, h.past, fun _ => h.staged,
    fun _ hs => Bool.noConfusion ((h.staged.symm.trans hs) : false = true),
    fun htrue => Bool.noConfusion htrue⟩

theorem Ended.mono {hd : Handed} {sketch sketch' : Prop} {r : Updater × Bool}
    (h : Ended b declared acc hd sketch' r) (hs : sketch → sketch') :
    Ended b declared acc hd sketch r :=
  ⟨h.size, h.past, h.staged, h.image, fun htrue hsk => h.kept htrue (hs hsk)⟩

/-- The last check passes and leaves everything, or it gives the update up. -/
theorem verifyEnd_cases (hs : u.staged = false) (hp : u.past = false) (mem : Mem) :
    ((u.verifyEnd b mem).2 = false ∧ Down (u.verifyEnd b mem).1) ∨
      u.verifyEnd b mem = (u, true) := by
  unfold verifyEnd
  split_ifs
  · exact .inr rfl
  · exact .inl ⟨rfl, setError_down hs hp _⟩
  · exact .inl ⟨rfl, setError_down hs hp _⟩
  · exact .inr rfl

/-- The checks of `end`, and its last lines. -/
theorem Received.conclude (h : Received b declared acc ever u) (alloc : Bool) (null : Mem) :
    Ended b declared acc ⟨u.signer, u.targetMd5, ever⟩ (u.staging ≠ none)
      (u.conclude b alloc null) := by
  unfold Updater.conclude
  rcases h.check null alloc with
    ⟨hno, hdown⟩ | ⟨hok, hstaged, hpast, hstaging, hcmd, himage⟩
  · dsimp only
    rw [if_pos (by rw [hno]; simp)]
    exact hdown.ended _ _
  · generalize u.check (u.staging.getD null) alloc = r at hok hstaged hpast hstaging hcmd himage ⊢
    dsimp only
    rw [if_neg (by rw [hok]; simp)]
    rcases verifyEnd_cases (b := b) hstaged hpast (r.1.staging.getD null) with
      ⟨hno, hdown⟩ | hyes
    · rw [if_pos (by rw [hno]; simp)]
      exact (reset_down hdown.staged hdown.past).ended _ _
    · rw [hyes, if_neg (by simp)]
      by_cases hflash : r.1.command = .flash
      · rw [if_pos hflash]
        refine ⟨rfl, hpast, nofun, fun mem _ hmem => ?_, fun _ hne => ⟨rfl, ?_⟩⟩
        · have hmem' : u.staging = some mem := hstaging ▸ hmem
          have hlen : ({ r.1 with imageLen := r.1.size, staged := true } : Updater).reset.imageLen =
              r.1.size := if_neg fun hfree => hfree.2 rfl
          rw [hlen]
          exact himage mem hmem'
        · rw [← hstaging] at hne
          exact hne
      · rw [if_neg hflash]
        refine ⟨rfl, hpast, fun _ => hstaged, fun mem htrue => ?_, fun _ hne => ?_⟩
        · rw [show r.1.reset.staged = _ from hstaged] at htrue
          cases htrue
        · obtain ⟨mem, hmem⟩ := Option.ne_none_iff_exists'.mp hne
          exact absurd (hcmd.trans (h.image mem hmem).command) hflash

/-- **`end`** leaves no update running, and a staged image only if it returns true; that image is
what was received, and was checked. -/
theorem end_spec (h : Receiving b declared acc ever u) (drv : Driver) (even alloc : Bool)
    (null : Mem) :
    Ended b declared acc ⟨u.signer, u.targetMd5, ever⟩ (u.command = .flash)
      (u.end b drv even alloc null) := by
  have hsize : u.size ≠ 0 := by
    rw [h.size]
    exact Nat.pos_iff_ne_zero.mp h.pos
  unfold Updater.end
  rw [if_neg hsize]
  by_cases hprog : u.progress = 0
  · have hdown : Down (u.setError .noData) := setError_down h.staged h.past _
    dsimp only
    rw [if_pos hprog, if_pos (.inl (by simp [setError, reset]))]
    exact (reset_down hdown.staged hdown.past).ended _ _
  · dsimp only
    rw [if_neg hprog]
    split_ifs with hstop heven
    · exact (reset_down h.staged h.past).ended _ _
    · obtain ⟨hrec, hsig, htarget, halloc⟩ := h.cutShort drv
      rw [← hsig, ← htarget]
      exact (hrec.conclude alloc null).mono halloc
    · have hfin : u.isFinished := by
        by_contra hne
        exact hstop (.inr ⟨hne, heven⟩)
      -- a finished update has written its page buffer out
      have hsz : u.size = u.progress := by
        unfold progress
        unfold isFinished at hfin
        omega
      have hbuf : u.buffer = [] := by
        have hlen := h.length
        have hfits := h.fits
        have := h.size
        exact List.length_eq_zero_iff.mp (by omega)
      refine ((h.received hbuf hsz).conclude alloc null).mono fun hc => ?_
      obtain ⟨mem, hmem⟩ := h.flash hc
      rw [hmem.alloc]
      exact Option.some_ne_none mem

end

end Updater

end Ch32h4.Update
