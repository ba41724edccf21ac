import Ch32h4.Update.Checks
import Ch32h4.Update.Equiv.Handover

/-!
# How far the checks of `end` reach

* `value_end`: the noting checks are those of the updater.
* `bounded_iff`: with a verifier installed, `end` reads only inside the image, never takes a length
  below zero and turns a short image down, exactly if the image has room for the signature that its
  last word announces (`Roomy`).  `not_bounded` is a short image that is staged.
* `image_of_reachable`: in runs, the image that they find is what has been accepted.

What the checks note is computed once, from the rules for `All` (`checkSignature_all`,
`conclude_all`); both directions read it off.
-/

namespace Ch32h4.Update

open Traced Updater Machine

namespace Checks

section

variable {b : Board} {drv : Driver} {u : Updater} {mem : Mem} {v : Signer} {alloc : Bool}
  {P : Access → Prop}

/-! ### Values -/

@[simp] theorem value_readBytes (off : ℤ) (len : ℕ) :
    (readBytes mem off len).value = mem.read off len := rfl

@[simp] theorem value_readWord (off : ℤ) : (readWord mem off).value = mem.word off := rfl

@[simp] theorem value_subLength (x y : ℤ) : (subLength x y).value = x - y := rfl

theorem value_feedHash (len : ℤ) : (feedHash mem len).value = hashPieces mem len := by
  rw [feedHash, value_mapM, hashPieces]
  refine List.map_congr_left fun i hi => ?_
  rw [List.mem_range] at hi
  have hleft : (len - 128 * i).toNat = len.toNat - 128 * i := by omega
  rw [value_bind, value_subLength, value_readBytes, hleft]

theorem value_readSigLen : (readSigLen u mem v).value = u.sigLen mem v := by
  unfold readSigLen sigLen
  split_ifs <;> rfl

/-- The 32 bits of the sum do not show in the difference. -/
theorem value_subSigLen : (subSigLen u v (u.sigLen mem v)).value = u.binSize mem v := by
  unfold subSigLen binSize
  split_ifs
  · rw [value_bind, value_subLength, value_pure, Int.natCast_mod, Int.natCast_add]
    exact Int.sub_emod_bmod _ _
  · rfl

theorem value_readSig :
    (readSig mem v (u.binSize mem v) (u.sigLen mem v)).value = u.signature mem v := by
  unfold readSig signature
  split_ifs <;> rfl

theorem value_checkSignature :
    (checkSignature u mem v alloc).value = u.checkSignature mem v alloc := by
  simp only [checkSignature, Updater.checkSignature, value_bind, value_ite, value_pure,
    value_readSigLen, value_subSigLen, value_feedHash, value_readSig]

theorem value_check : (check u mem alloc).value = u.check mem alloc := by
  unfold check Updater.check
  cases u.signer with
  | none => rfl
  | some v => rw [value_ite, value_checkSignature, value_pure]

theorem value_verifyEnd : (verifyEnd b u mem).value = u.verifyEnd b mem := by
  rw [verifyEnd, value_ite, value_ite, value_bind, value_ite]
  rfl

theorem value_conclude (null : Mem) :
    (conclude b u alloc null).value = u.conclude b alloc null := by
  simp only [conclude, Updater.conclude, value_ite, value_bind, value_check,
    value_verifyEnd, value_pure]

/-- **The noting checks are those of the updater.** -/
theorem value_end (even : Bool) (null : Mem) :
    (Checks.end b drv u even alloc null).value = u.end b drv even alloc null := by
  simp only [Checks.end, Updater.end, value_ite, value_conclude, value_pure]

/-! ### Reads and lengths -/

@[simp] theorem all_readBytes (off : ℤ) (len : ℕ) :
    (readBytes mem off len).All P ↔ P (.read off len) := by
  rw [readBytes, all_bind, all_note, and_iff_left (all_pure _)]

@[simp] theorem all_readWord (off : ℤ) : (readWord mem off).All P ↔ P (.read off 4) := by
  rw [readWord, all_bind, all_note, and_iff_left (all_pure _)]

@[simp] theorem all_subLength (x y : ℤ) : (subLength x y).All P ↔ P (.sub x y) := by
  rw [subLength, all_bind, all_note, and_iff_left (all_pure _)]

theorem all_readSigLen :
    (readSigLen u mem v).All P ↔ (v.length > 0 → P (.read (u.size - 4) 4)) := by
  unfold readSigLen
  split_ifs with hv <;> simp [hv]

theorem all_subSigLen (sigLen : ℕ) :
    (subSigLen u v sigLen).All P ↔
      (v.length > 0 → P (.sub u.size ((sigLen + 4) % 2 ^ 32 : ℕ))) := by
  unfold subSigLen
  split_ifs with hv
  · rw [all_bind, all_subLength, and_iff_left (all_pure _), forall_prop_of_true hv]
  · simp [hv]

theorem all_readSig (binSize : ℤ) (sigLen : ℕ) :
    (readSig mem v binSize sigLen).All P ↔ (v.length > 0 → P (.read binSize sigLen)) := by
  unfold readSig
  split_ifs with hv <;> simp [hv]

/-- A read lies inside an image of `n` bytes, and a length is not taken below zero. -/
def Inside (n : ℕ) : Access → Prop
  | .read off len => 0 ≤ off ∧ off + len ≤ n
  | .sub a b => b ≤ a

/-- The hash is fed from the inside. -/
theorem all_feedHash {n : ℕ} {binSize : ℤ} (h : binSize ≤ n) :
    (feedHash mem binSize).All (Inside n) := by
  rw [feedHash, all_mapM]
  intro i hi
  rw [List.mem_range] at hi
  rw [all_bind, all_subLength, value_subLength, all_readBytes]
  constructor
  · show 128 * (i : ℤ) ≤ binSize
    omega
  · show 0 ≤ 128 * (i : ℤ) ∧ 128 * (i : ℤ) + (min 128 (binSize - 128 * i).toNat : ℕ) ≤ n
    omega

/-! ### Room for the signature -/

/-- No signature is expected, or the image has a last word, and this is not the length of a
signature or there is room for one.  Lengths whose sum with that of the word wraps get that far
only if there is no memory for a copy. -/
def Roomy (v : Signer) (mem : Mem) (n : ℕ) (alloc : Bool) : Prop :=
  v.length = 0 ∨ 4 ≤ n ∧ (mem.word (n - 4) ≠ v.length ∨ v.length + 4 ≤ n ∨
    2 ^ 32 ≤ v.length + 4 ∧ alloc = false)

/-- What the signature check notes. -/
theorem all_checkSignature : (checkSignature u mem v alloc).All P ↔
    (v.length > 0 → P (.read (u.size - 4) 4)) ∧ (u.sigLen mem v = v.length →
      (v.length > 0 → P (.sub u.size ((v.length + 4) % 2 ^ 32 : ℕ))) ∧
      (feedHash mem (u.binSize mem v)).All P ∧
      (v.length > 0 → alloc = true → P (.read (u.binSize mem v) v.length))) := by
  rw [checkSignature, all_bind, all_readSigLen, value_readSigLen]
  refine and_congr_right fun _ => ?_
  rw [all_ite, and_iff_right fun _ => all_pure _, not_not]
  refine imp_congr_right fun hword => ?_
  have hbin : (subSigLen u v v.length).value = u.binSize mem v := hword ▸ value_subSigLen
  rw [hword, all_bind, all_subSigLen, hbin, all_bind, all_ite, all_bind, all_readSig, all_ite]
  refine and_congr_right fun _ => and_congr_right fun _ => ?_
  cases alloc with
  | false =>
    simp only [all_pure, Bool.false_eq_true, not_false_eq_true, and_true, implies_true, true_and,
      IsEmpty.forall_iff, iff_true]
    exact fun hno hpos => absurd hpos hno
  | true => simp

/-- **The signature check stays inside the image** exactly if that has room for the signature. -/
theorem all_checkSignature_inside (hn : u.size < 2 ^ 31) :
    (checkSignature u mem v alloc).All (Inside u.size) ↔ Roomy v mem u.size alloc := by
  have hlt := v.length_lt
  rw [all_checkSignature]
  by_cases hpos : v.length > 0
  · have hword : u.sigLen mem v = mem.word (u.size - 4) := if_pos hpos
    have hbin : u.sigLen mem v = v.length →
        u.binSize mem v = Int.bmod (u.size - (v.length + 4)) (2 ^ 32) := fun h => by
      rw [binSize, if_pos hpos, h]
    constructor
    · rintro ⟨hread, hrest⟩
      have hfour := (hread hpos).1
      refine .inr ⟨by omega, ?_⟩
      by_cases hsame : u.sigLen mem v = v.length
      · obtain ⟨hsub, -, hsig⟩ := hrest hsame
        have hle : ((v.length + 4) % 2 ^ 32 : ℕ) ≤ (u.size : ℤ) := hsub hpos
        by_cases hfits : v.length + 4 < 2 ^ 32
        · exact .inr (.inl (by omega))
        · refine .inr (.inr ⟨by omega, ?_⟩)
          -- a copy of the signature would reach past the end
          by_contra halloc
          have hcopy := hsig hpos (Bool.eq_true_of_not_eq_false halloc)
          have hlast : u.binSize mem v + v.length ≤ u.size := hcopy.2
          have hfirst : 0 ≤ u.binSize mem v := hcopy.1
          omega
      · exact .inl (hword ▸ hsame)
    · rintro (hzero | ⟨hfour, hroom⟩)
      · omega
      · refine ⟨fun _ => ⟨by omega, by omega⟩, fun hsame => ?_⟩
        have hbin' := hbin hsame
        rcases hroom.resolve_left (not_not.mpr (hword ▸ hsame)) with hfits | ⟨hwraps, halloc⟩
        · have hexact : u.binSize mem v = u.size - (v.length + 4) := by
            rw [hbin']
            exact Int.bmod_eq_of_le (by omega) (by omega)
          refine ⟨fun _ => ?_, all_feedHash (by omega), fun _ _ => ?_⟩
          · show ((v.length + 4) % 2 ^ 32 : ℕ) ≤ (u.size : ℤ)
            omega
          · show 0 ≤ u.binSize mem v ∧ u.binSize mem v + v.length ≤ u.size
            omega
        · refine ⟨fun _ => ?_, all_feedHash ?_, fun _ h => ?_⟩
          · show ((v.length + 4) % 2 ^ 32 : ℕ) ≤ (u.size : ℤ)
            omega
          · -- the image is taken whole, or but for three bytes
            rw [hbin', Int.bmod]
            split_ifs <;> omega
          · rw [halloc] at h
            cases h
  · have hbin : u.binSize mem v = u.size := if_neg hpos
    refine iff_of_true ⟨fun h => absurd h hpos, fun _ => ⟨fun h => absurd h hpos, ?_,
      fun h => absurd h hpos⟩⟩ (.inl (Nat.eq_zero_of_not_pos hpos))
    rw [hbin]
    exact all_feedHash (Int.le_refl _)

/-- With room for it, a signature that is found in order is cut off. -/
theorem size_checkSignature (hn : u.size < 2 ^ 31) (hroom : Roomy v mem u.size alloc)
    (hok : (u.checkSignature mem v alloc).2 = true) :
    (u.checkSignature mem v alloc).1.size + (if v.length = 0 then 0 else v.length + 4) =
      u.size := by
  obtain ⟨hword, -, hu'⟩ := checkSignature_ok hok
  rw [hu']
  show (u.binSize mem v % 2 ^ 32).toNat + _ = u.size
  by_cases hzero : v.length = 0
  · rw [if_pos hzero, binSize, if_neg (by omega)]
    omega
  · have hpos : v.length > 0 := Nat.pos_of_ne_zero hzero
    have hsame : mem.word (u.size - 4) = v.length := by rwa [sigLen, if_pos hpos] at hword
    rcases (hroom.resolve_left hzero).2.resolve_left (not_not.mpr hsame) with hfits | ⟨-, halloc⟩
    · have hexact : u.binSize mem v = u.size - (v.length + 4) := by
        rw [binSize, if_pos hpos, hword]
        exact Int.bmod_eq_of_le (by omega) (by omega)
      rw [if_neg hzero, hexact]
      omega
    · -- without memory for a copy it is not found in order
      rw [Updater.checkSignature, if_neg (not_not.mpr hword), if_pos ⟨hpos, by simp [halloc]⟩] at hok
      cases hok

/-- `_verifyEnd` looks at an image of twelve bytes or more. -/
theorem all_verifyEnd {n : ℕ} (h : u.size ≤ n) : (verifyEnd b u mem).All (Inside n) := by
  rw [verifyEnd, all_ite, all_ite]
  refine ⟨fun _ => all_pure _, fun _ => ⟨fun _ => all_pure _, fun hlong => ?_⟩⟩
  rw [all_bind, all_readBytes, all_ite]
  refine ⟨⟨by omega, by omega⟩, fun _ => all_pure _, fun _ => all_pure _⟩

theorem check_flash (hv : u.signer = some v) (hc : u.command = .flash) :
    check u mem alloc = checkSignature u mem v alloc := by
  unfold check
  rw [hv]
  exact if_pos hc

theorem all_conclude_inside {null : Mem} (hv : u.signer = some v) (hc : u.command = .flash)
    (hn : u.size < 2 ^ 31) :
    (conclude b u alloc null).All (Inside u.size) ↔ Roomy v (u.image null) u.size alloc := by
  have hcheck : (checkSignature u (u.image null) v alloc).All (Inside u.size) ↔
      Roomy v (u.image null) u.size alloc := all_checkSignature_inside hn
  have hmem : u.staging.getD null = u.image null := rfl
  rw [conclude, hmem, all_bind, check_flash hv hc, value_checkSignature, ← hcheck]
  refine and_iff_left_of_imp fun hall => ?_
  rw [all_ite]
  refine ⟨fun _ => all_pure _, fun hok => ?_⟩
  rw [not_not] at hok
  have hsize := size_checkSignature hn (hcheck.mp hall) hok
  rw [all_bind, all_ite, all_ite]
  refine ⟨all_verifyEnd (by omega), fun _ => all_pure _, fun _ => ⟨fun _ => ?_, fun _ => ?_⟩⟩
  · exact all_pure _
  · exact all_pure _

/-- With room for the signature, an image without a payload does not pass. -/
theorem conclude_short {null : Mem} (hv : u.signer = some v) (hc : u.command = .flash)
    (hn : u.size < 2 ^ 31) (hroom : Roomy v (u.image null) u.size alloc) (hpos : v.length > 0)
    (hshort : u.size < v.length + 5) : (u.conclude b alloc null).2 = false := by
  have hcheck : u.check (u.image null) alloc = u.checkSignature (u.image null) v alloc := by
    unfold Updater.check
    rw [hv]
    exact if_pos hc
  have hmem : u.staging.getD null = u.image null := rfl
  rw [Updater.conclude, hmem, hcheck]
  cases hok : (u.checkSignature (u.image null) v alloc).2 with
  | false => rfl
  | true =>
    have hsize := size_checkSignature hn hroom hok
    rw [if_neg (Nat.ne_of_gt hpos)] at hsize
    have hflash : (u.checkSignature (u.image null) v alloc).1.command = .flash := by
      rw [(checkSignature_ok hok).2.2]
      exact hc
    generalize (u.checkSignature (u.image null) v alloc).1 = u' at hsize hflash ⊢
    have hno : ∀ mem, (u'.verifyEnd b mem).2 = false := fun mem => by
      rw [Updater.verifyEnd, if_neg (not_not.mpr hflash), if_pos (by omega)]
    simp [hno]

/-! ### The whole of `end` -/

/-- Writing out the page buffer leaves the verifier in force. -/
theorem signer_received (even : Bool) : (u.received b drv even).signer = u.signer := by
  unfold received cutShort writeBuffer
  split_ifs <;> rfl

theorem end_of_givesUp {even : Bool} {null : Mem} (h : u.GivesUp even) :
    ∃ u', Checks.end b drv u even alloc null = pure (u', false) := by
  unfold Checks.end
  by_cases hsize : u.size = 0
  · exact ⟨_, if_pos hsize⟩
  · rw [if_neg hsize]
    dsimp only
    by_cases hprog : u.progress = 0
    · rw [if_pos hprog]
      exact ⟨_, if_pos (.inl (by simp [setError, reset]))⟩
    · rw [if_neg hprog]
      exact ⟨_, if_pos ((h.resolve_left hsize).resolve_left hprog)⟩

theorem end_of_not_givesUp {even : Bool} {null : Mem} (h : ¬ u.GivesUp even) :
    Checks.end b drv u even alloc null = conclude b (u.received b drv even) alloc null := by
  obtain ⟨hsize, h⟩ := not_or.mp h
  obtain ⟨hprog, h⟩ := not_or.mp h
  unfold Checks.end
  rw [if_neg hsize]
  dsimp only
  rw [if_neg hprog, if_neg h]
  rfl

/-- What is promised of a call of `end` that finds the image received in `u`: it stays inside, and
it does not accept an image without a payload, a signature and its length. -/
structure Bounded (v : Signer) (u : Updater) (r : Traced Access (Updater × Bool)) : Prop where
  inside : r.All (Inside u.size)
  rejects : u.command = .flash → v.length > 0 → u.size < v.length + 5 → r.value.2 = false

/-- Outside a sketch image nothing is read. -/
theorem all_conclude_of_ne {null : Mem} (hc : u.command ≠ .flash) :
    (conclude b u alloc null).All P := by
  have hcheck : check u (u.staging.getD null) alloc = pure u.checkMD5 := by
    unfold check
    cases u.signer with
    | none => rfl
    | some v => exact if_neg hc
  rw [conclude, hcheck, all_bind, and_iff_right (all_pure _), value_pure, all_ite]
  refine ⟨fun _ => all_pure _, fun hok => ?_⟩
  have hsame : u.checkMD5.1 = u := by
    unfold checkMD5 at hok ⊢
    split_ifs at hok ⊢
    · exact absurd not_false hok
    · rfl
  have hend : ∀ mem, verifyEnd b u mem = pure (u, true) := fun mem => if_pos hc
  rw [hsame, hend, all_bind, and_iff_right (all_pure _), value_pure, all_ite, all_ite]
  exact ⟨fun _ => all_pure _, fun _ => ⟨fun _ => all_pure _, fun _ => all_pure _⟩⟩

/-- **`end` stays inside the image** that a verifier checks, and turns a short one down, exactly if
it gives up before it checks a sketch image, or the image has room for the signature that its last
word announces. -/
theorem bounded_iff {even : Bool} {null : Mem} (hv : u.signer = some v)
    (hn : (u.received b drv even).command = .flash →
      (u.received b drv even).size ≤ b.sketchSize) :
    Bounded v (u.received b drv even) (Checks.end b drv u even alloc null) ↔
      u.GivesUp even ∨ (u.received b drv even).command ≠ .flash ∨
        Roomy v ((u.received b drv even).image null) (u.received b drv even).size alloc := by
  by_cases hup : u.GivesUp even
  · obtain ⟨u', hend⟩ : ∃ u', Checks.end b drv u even alloc null = pure (u', false) :=
      end_of_givesUp hup
    rw [hend]
    exact iff_of_true ⟨all_pure _, fun _ _ _ => rfl⟩ (.inl hup)
  · have hv' : (u.received b drv even).signer = some v := (signer_received even).trans hv
    rw [end_of_not_givesUp hup]
    generalize u.received b drv even = u' at hn hv' ⊢
    by_cases hc : u'.command = .flash
    · have hlt := b.sketchSize_lt
      have hn' : u'.size < 2 ^ 31 := Nat.lt_of_le_of_lt (hn hc) hlt
      have hiff : (conclude b u' alloc null).All (Inside u'.size) ↔
          Roomy v (u'.image null) u'.size alloc := all_conclude_inside hv' hc hn'
      constructor
      · intro h
        exact .inr (.inr (hiff.mp h.inside))
      · intro h
        have hroom := (h.resolve_left hup).resolve_left (not_not.mpr hc)
        refine ⟨hiff.mpr hroom, fun _ hpos hshort => ?_⟩
        rw [value_conclude]
        exact conclude_short hv' hc hn' hroom hpos hshort
    · exact iff_of_true ⟨all_conclude_of_ne hc, fun h => absurd h hc⟩ (.inr (.inl hc))

end

end Checks

/-! ### In runs -/

/-- In every run without a stream that overfills, the image that the checks find is what has been
accepted, and lies in the region of the sketch. -/
theorem image_of_reachable {b : Board} {s : System} (hs : (machine b).Reachable (fitting b) s)
    (hrun : s.u.isRunning) (hc : s.u.command = .flash) {even : Bool} (hup : ¬ s.u.GivesUp even)
    (drv : Driver) :
    ∃ mem, (s.u.received b drv even).staging = some mem ∧
      (s.u.received b drv even).size = s.accepted.length ∧
      mem.read 0 s.accepted.length = s.accepted ∧ s.accepted.length ≤ b.sketchSize := by
  obtain ⟨hrec, -⟩ := (sound_of_reachable hs).receiving hrun
  have hfound : Received b s.declared s.accepted s.everSigned (s.u.received b drv even) ∧
      (s.u.received b drv even).staging ≠ none := by
    unfold received
    split_ifs with heven
    · obtain ⟨hcut, -, -, halloc⟩ := hrec.cutShort drv
      exact ⟨hcut, halloc hc⟩
    · have hfin : s.u.isFinished := by
        by_contra hne
        exact hup (.inr (.inr (.inr ⟨hne, heven⟩)))
      have hsize : s.u.size = s.u.progress := by
        unfold progress
        unfold isFinished at hfin
        omega
      have hbuf : s.u.buffer = [] := by
        have hlen := hrec.length
        have hfits := hrec.fits
        have hdecl := hrec.size
        exact List.length_eq_zero_iff.mp (by omega)
      obtain ⟨mem, hmem⟩ := hrec.flash hc
      refine ⟨hrec.received hbuf hsize, ?_⟩
      rw [hmem.alloc]
      exact Option.some_ne_none mem
  obtain ⟨mem, hmem⟩ := Option.ne_none_iff_exists'.mp hfound.2
  have hwhole := hfound.1.image mem hmem
  exact ⟨mem, hmem, hwhole.size, hwhole.image, Nat.le_trans hwhole.fits hwhole.region⟩

/-! A verifier of signatures of 16 bytes, and an image of 16 bytes whose last word says so. -/

def generous : Signer := ⟨16, by decide, fun _ _ => true⟩

def shortImage : List UInt8 := [0, 0, 0, 0, 0, 0, 0, 0, 1, 2, 3, 4, 16, 0, 0, 0]

/-- The updater once it has taken the image. -/
def shortUpdate : Updater :=
  (afterActs (some generous)
    [.begin 16 .flash (some fun _ => 0), .write willing shortImage]).u

/-- The complete signed update of before, with room for its signature. -/
def roomyUpdate : Updater :=
  (afterActs (some lenient)
    [.begin 20 .flash (some fun _ => 0), .write willing signedImage]).u

theorem bounded_iff_roomyUpdate :
    Checks.Bounded lenient (roomyUpdate.received board willing false)
        (Checks.end board willing roomyUpdate false true fun _ => 0) ↔
      roomyUpdate.GivesUp false ∨ (roomyUpdate.received board willing false).command ≠ .flash ∨
        Checks.Roomy lenient ((roomyUpdate.received board willing false).image fun _ => 0)
          (roomyUpdate.received board willing false).size true :=
  Checks.bounded_iff (by rfl) (by decide +kernel)

/-- **A short image is staged**: its signature is read from before the image, and what is left of it
after the subtraction is taken for 4294967292 bytes. -/
theorem not_bounded :
    let r := Checks.end board willing shortUpdate false true fun _ => 0
    r.value.2 = true ∧ .read (-4) 16 ∈ r.events ∧
      ¬ Checks.Bounded generous (shortUpdate.received board willing false) r := by
  have haccepts : (Checks.end board willing shortUpdate false true fun _ => 0).value.2 = true := by
    decide +kernel
  refine ⟨haccepts, by decide +kernel, fun h => ?_⟩
  have hrejects := h.rejects (by decide +kernel) (by decide) (by decide +kernel)
  rw [haccepts] at hrejects
  cases hrejects

end Ch32h4.Update
