import Ch32h4.Update.Equiv.Staging

/-!
# Runs of the updater

* `handedOver_of_reachable`: a staged image is what was received since `begin`, less a signature
  that was verified over it, and `commit` programs it.  `not_checked_of_reachable` is a run in
  which an MD5 that does not match is not looked at, because a verifier is in force, and in which
  the signature is programmed behind the image.
* `consistent_of_reachable`: the three ways in agree, whatever the mix.
  `not_consistent_of_reachable` is what becomes of that with a stream that holds more than the
  update lacks, and of the progress while a full page waits in the page buffer.

`Sound` is the invariant: an update is being received (`Updater.Receiving`), or none is running and
what is staged was handed over (`Handover`).
-/

namespace Ch32h4.Update

open Flash Md5 Machine Updater

/-! ### The invariant -/

/-- No update is running, and what is staged was handed over. -/
structure Idle (b : Board) (s : System) : Prop where
  size : s.u.size = 0
  handed : s.u.staged = true → ∀ mem, s.u.staging = some mem →
    ∃ h, s.handed = some h ∧ Handover b s.declared s.accepted h s.u.imageLen mem

structure Sound (b : Board) (s : System) : Prop where
  past : s.u.past = false
  state : Receiving b s.declared s.accepted s.everSigned s.u ∧ Prompt s.u ∨ Idle b s

section

variable {b : Board} {s : System}

theorem Updater.Receiving.size_pos {declared : ℕ} {acc : List UInt8} {ever : Bool} {u : Updater}
    (h : Receiving b declared acc ever u) : u.size ≠ 0 := by
  rw [h.size]
  exact Nat.pos_iff_ne_zero.mp h.pos

/-- An update that was given up leaves nothing staged. -/
theorem Updater.Down.idle {s' : System} (h : Down s'.u) : Sound b s' :=
  ⟨h.past, .inr ⟨h.size, fun hs => Bool.noConfusion ((h.staged.symm.trans hs) : false = true)⟩⟩

/-- A call that takes bytes. -/
theorem Sound.took {bytes : List UInt8} {r : Updater × ℕ}
    (h : Goes b s.declared (s.accepted ++ bytes.take r.2) s.everSigned r.1) :
    Sound b (s.took bytes r) := by
  rcases h with ⟨hrec, hp⟩ | hdown
  · exact ⟨hrec.past, .inl ⟨hrec, hp⟩⟩
  · exact hdown.idle

/-- With no update running, a call that takes bytes takes none. -/
theorem Sound.took_none (h : Sound b s) (bytes : List UInt8) : Sound b (s.took bytes (s.u, 0)) := by
  have hs : s.took bytes (s.u, 0) = s := by
    unfold System.took
    rw [List.take_zero, List.append_nil]
  rwa [hs]

theorem Idle.not_running (h : Idle b s) : s.u.error ≠ .ok ∨ ¬ s.u.isRunning := by
  right
  rw [isRunning, h.size]
  exact Nat.lt_irrefl 0

theorem Sound.write (h : Sound b s) (drv : Driver) (data : List UInt8) :
    Sound b (s.took data (s.u.write b drv data)) := by
  rcases h.state with ⟨hrec, -⟩ | hidle
  · exact Sound.took (write_spec drv hrec data).1
  · unfold Updater.write
    rw [if_pos hidle.not_running]
    exact h.took_none data

theorem Sound.writeFrom (h : Sound b s) (drv : Driver) (src : List UInt8) (offers : List ℕ) :
    Sound b (s.took src (s.u.writeFrom b drv src offers)) := by
  rcases h.state with ⟨hrec, hp⟩ | hidle
  · exact Sound.took (writeFrom_spec drv hrec hp src offers)
  · unfold Updater.writeFrom
    rw [if_pos hidle.not_running]
    exact h.took_none src

theorem Sound.writeStream (h : Sound b s) {drv : Driver} {bytes : List UInt8} {arrivals : List ℕ}
    (hfit : s.u.isRunning → StreamFits b drv arrivals s.u bytes) :
    Sound b (s.took bytes (s.u.writeStream b drv bytes arrivals)) := by
  rcases h.state with ⟨hrec, hp⟩ | hidle
  · have hrun : s.u.isRunning := Nat.pos_of_ne_zero hrec.size_pos
    exact Sound.took (writeStream_spec drv hrec hp (hfit hrun)).1
  · unfold Updater.writeStream
    rw [if_pos hidle.not_running]
    exact h.took_none bytes

/-- A reset leaves what was handed over. -/
theorem Sound.reset {s' : System} (h : Idle b s) (hpast : s.u.past = false)
    (hu : s'.u = s.u.reset) (hacc : s'.accepted = s.accepted) (hdecl : s'.declared = s.declared)
    (hh : s'.handed = s.handed) : Sound b s' := by
  refine ⟨by rw [hu]; exact hpast, .inr ⟨by rw [hu]; rfl, fun hs mem hmem => ?_⟩⟩
  have hs' : s.u.staged = true := by rwa [hu] at hs
  have hmem' : s.u.staging = some mem := by
    have hkeep : s.u.reset.staging = s.u.staging := if_pos hs'
    rwa [hu, hkeep] at hmem
  have hlen : s'.u.imageLen = s.u.imageLen := by
    rw [hu]
    exact if_neg fun hfree => hfree.2 hs'
  rw [hh, hacc, hdecl, hlen]
  exact h.handed hs' mem hmem'

theorem Sound.end (h : Sound b s) (drv : Driver) (even alloc : Bool) (null : Mem) :
    Sound b (step b s (.«end» drv even alloc null)) := by
  rcases h.state with ⟨hrec, -⟩ | hidle
  · have hend := end_spec hrec drv even alloc null
    refine ⟨hend.past, .inr ⟨hend.size, fun hs mem hmem => ?_⟩⟩
    have htrue : (s.u.end b drv even alloc null).2 = true := by
      by_contra hfalse
      rw [Bool.not_eq_true] at hfalse
      exact Bool.noConfusion ((hend.staged hfalse).symm.trans hs)
    exact ⟨_, if_pos htrue, hend.image mem hs hmem⟩
  · have hr : s.u.end b drv even alloc null = (s.u.reset, false) := by
      unfold Updater.end
      rw [if_pos hidle.size]
    have hs' : step b s (.«end» drv even alloc null) = { s with u := s.u.reset } := by
      unfold step
      dsimp only
      rw [hr]
      rfl
    rw [hs']
    exact Sound.reset hidle h.past rfl rfl rfl rfl

/-- Setting the MD5 changes nothing else. -/
theorem Updater.Receiving.setMD5 {declared : ℕ} {acc : List UInt8} {ever : Bool} {u : Updater}
    (h : Receiving b declared acc ever u) (expected : List Char) :
    Receiving b declared acc ever { u with targetMd5 := expected } :=
  ⟨h.size, h.pos, h.small, h.error, h.start_le, h.length, h.fits, h.buffer_le, h.staged, h.past,
    h.signed, fun hc => by
      obtain ⟨mem, hm⟩ := h.flash hc
      exact ⟨mem, hm.alloc, hm.start, hm.region, hm.image, hm.pad, hm.md5⟩, h.fs⟩

theorem Sound.setMD5 (h : Sound b s) (expected : List Char) :
    Sound b (step b s (.setMD5 expected)) := by
  have hs : (s.u.setMD5 expected).1 = s.u ∨
      (s.u.setMD5 expected).1 = { s.u with targetMd5 := expected } := by
    unfold Updater.setMD5
    split_ifs
    · exact .inl rfl
    · exact .inr rfl
  unfold step
  dsimp only
  rcases hs with hs | hs
  · rw [hs]
    exact h
  · rw [hs]
    refine ⟨h.past, h.state.imp (fun ⟨hrec, hp⟩ => ⟨hrec.setMD5 expected, hp⟩) ?_⟩
    exact fun hidle => ⟨hidle.size, hidle.handed⟩

/-- Installing a verifier ends what the MD5 says. -/
theorem Sound.installSignature (h : Sound b s) (signer : Option Signer) :
    Sound b (step b s (.installSignature signer)) := by
  refine ⟨h.past, h.state.imp (fun ⟨hrec, hp⟩ => ⟨?_, hp⟩) fun hidle => ⟨hidle.size, hidle.handed⟩⟩
  refine ⟨hrec.size, hrec.pos, hrec.small, hrec.error, hrec.start_le, hrec.length, hrec.fits,
    hrec.buffer_le, hrec.staged, hrec.past, fun hne => ?_, fun hc => ?_, hrec.fs⟩
  · exact Bool.or_eq_true_iff.mpr (.inr (Option.isSome_iff_ne_none.mpr hne))
  · obtain ⟨mem, hm⟩ := hrec.flash hc
    refine ⟨mem, hm.alloc, hm.start, hm.region, hm.image, hm.pad, fun hever => ?_⟩
    obtain ⟨hnever, hnone⟩ := Bool.or_eq_false_iff.mp hever
    have hsig : signer = none := by simpa using hnone
    exact ⟨hsig, (hm.md5 hnever).2⟩

/-- **`begin`** starts receiving, or leaves nothing staged. -/
theorem begin_spec {u : Updater} (hidle : u.size = 0) (hpast : u.past = false) {size : ℕ}
    (hpos : size ≠ 0) (command : Command) (alloc : Option Mem) :
    let r := u.begin b size command alloc
    Receiving b size [] r.1.signer.isSome r.1 ∧ Prompt r.1 ∨ Down r.1 := by
  have hnot : ¬ u.size > 0 := by omega
  set u₁ : Updater :=
    { { u with staged := false }.reset with error := .ok, targetMd5 := [], md5 := .new } with hu₁
  have hdown : ∀ e, Down (u₁.setError e) := fun e => setError_down (u := u₁) rfl hpast e
  unfold Updater.begin
  rw [if_neg hnot, if_neg hpos]
  cases command with
  | flash =>
    dsimp only
    by_cases hbig : size > b.sketchSize
    · rw [if_pos hbig]
      exact .inr (hdown .space)
    · rw [if_neg hbig]
      cases alloc with
      | none => exact .inr (hdown .space)
      | some mem =>
        have hlt := b.sketchSize_lt
        refine .inl ⟨⟨rfl, Nat.pos_of_ne_zero hpos, by omega, rfl, Nat.le_refl _, rfl,
          Nat.zero_le _, Nat.zero_le _, rfl, hpast, fun hne => Option.isSome_iff_ne_none.mpr hne,
          fun _ => ?_, fun hne => absurd rfl hne⟩, fun _ => rfl⟩
        refine ⟨mem.blank size (b.roundUp size - size), rfl, rfl, Nat.le_of_not_gt hbig, rfl, ?_,
          ?_⟩
        · intro i hi hi'
          exact if_pos ⟨by omega, by omega⟩
        · intro hever
          have hnone : u.signer = none := Option.not_isSome_iff_eq_none.mp (by
            rw [show u.signer.isSome = false from hever]
            exact Bool.false_ne_true)
          refine ⟨hnone, ?_⟩
          show (if u.signer.isNone then Builder.begin else Builder.new) = Builder.begin.add []
          rw [hnone, Builder.add_nil]
          rfl
  | fs =>
    dsimp only
    by_cases hbig : b.fsStart + size > b.fsEnd
    · rw [if_pos hbig]
      exact .inr (hdown .space)
    · rw [if_neg hbig]
      have hlt := b.fsEnd_lt
      refine .inl ⟨⟨rfl, Nat.pos_of_ne_zero hpos, by omega, rfl, Nat.le_refl _, ?_,
        Nat.zero_le _, Nat.zero_le _, rfl, hpast, fun hne => Option.isSome_iff_ne_none.mpr hne,
        nofun, fun _ => rfl⟩, fun _ => rfl⟩
      show 0 = b.fsStart - b.fsStart + 0
      omega
  | other => exact .inr ⟨rfl, rfl, hpast⟩

theorem Sound.begin (h : Sound b s) (size : ℕ) (command : Command) (alloc : Option Mem) :
    Sound b (step b s (.begin size command alloc)) := by
  unfold step
  dsimp only
  by_cases hkeep : s.u.size > 0 ∨ size = 0
  · rw [if_pos hkeep]
    by_cases hrun : s.u.size > 0
    · -- one is running already
      have hr : (s.u.begin b size command alloc).1 = s.u := by
        unfold Updater.begin
        rw [if_pos hrun]
      rw [hr]
      exact h
    · have hzero : size = 0 := hkeep.resolve_left hrun
      have hr : (s.u.begin b size command alloc).1 = { s.u with error := .size }.reset := by
        unfold Updater.begin
        rw [if_neg hrun, if_pos hzero]
        rfl
      rw [hr]
      rcases h.state with ⟨hrec, -⟩ | hidle
      · exact absurd (Nat.eq_zero_of_not_pos hrun) hrec.size_pos
      · have hidle' : Idle b { s with u := { s.u with error := .size } } :=
          ⟨hidle.size, hidle.handed⟩
        exact Sound.reset hidle' h.past rfl rfl rfl rfl
  · rw [if_neg hkeep]
    rw [not_or] at hkeep
    rcases begin_spec (b := b) (Nat.eq_zero_of_not_pos hkeep.1) h.past hkeep.2 command alloc with
      hrec | hdown
    · exact ⟨hrec.1.past, .inl hrec⟩
    · exact hdown.idle

/-- Every call keeps the state sound, if no stream overfills. -/
theorem Sound.step (h : Sound b s) {a : Action} (hG : fitting b s a) : Sound b (step b s a) := by
  cases a with
  | begin size command alloc => exact h.begin size command alloc
  | setMD5 expected => exact h.setMD5 expected
  | installSignature signer => exact h.installSignature signer
  | write drv data => exact h.write drv data
  | writeFrom drv src offers => exact h.writeFrom drv src offers
  | writeStream drv bytes arrivals => exact h.writeStream hG
  | «end» drv even alloc null => exact h.end drv even alloc null

/-- The state is sound after every run without a stream that overfills. -/
theorem sound_of_reachable (h : (machine b).Reachable (fitting b) s) : Sound b s := by
  refine Machine.invariant (M := machine b) ?_ ?_ h
  · rintro s ⟨signer, rfl⟩
    exact ⟨rfl, .inr ⟨rfl, nofun⟩⟩
  · rintro s a _ hI hG ⟨⟩
    exact hI.step hG

/-! ### Handing over -/

/-- What a staged image is worth. -/
structure HandedOver (b : Board) (s : System) (image : List UInt8) (h : Handed) : Prop where
  /-- It is what was received, less a signature and its length, and was checked. -/
  verified : ∃ trailer, image ++ trailer = s.accepted ∧ Verified h image trailer
  /-- `commit` programs it. -/
  programmed : ∀ parked ops, s.u.commit b parked = some ops →
    image <+: ops.flatMap CommitOp.programs
  /-- Behind a complete image without a signature, `commit` programs `0xFF`. -/
  padded : image.length = s.declared → ∀ parked ops, s.u.commit b parked = some ops →
    ops.flatMap CommitOp.programs =
      image ++ List.replicate (b.roundUp image.length - image.length) 0xFF

theorem dvd_pages (c : Capacity) (n : ℕ) : 256 ∣ n * c.flashPageSize := by
  apply Nat.dvd_mul_left_of_dvd
  cases c <;> decide

/-- Rounding up does not lose anything. -/
theorem Board.le_roundUp (b : Board) {n : ℕ} (h : n < 2 ^ 31) : n ≤ b.roundUp n := by
  unfold Board.roundUp
  cases b.capacity <;> simp only [Capacity.flashPageSize] <;> omega

/-- What `commit` programs, when it does. -/
theorem commit_programs {u : Updater} {mem : Mem} (hmem : u.staging = some mem) {parked : Bool}
    {ops : List CommitOp} (hops : u.commit b parked = some ops) :
    ops.flatMap CommitOp.programs = mem.read 0 (b.roundUp u.imageLen) := by
  unfold Updater.commit at hops
  rw [hmem] at hops
  dsimp only at hops
  split_ifs at hops
  rw [← Option.some.inj hops]
  exact programs_otaCommit mem _ (dvd_pages _ _)

/-- **The updater hands over exactly what was received**: after every run without a stream that
overfills, an image is staged only if `end` returned true for the current update, and then, if it
has room for the signature that is expected, it is what was accepted less a verified signature,
and `commit` programs it. -/
theorem handedOver_of_reachable (hs : (machine b).Reachable (fitting b) s) {image : List UInt8}
    (himage : s.u.stagedImage = some image) :
    ∃ h, s.handed = some h ∧ (LongEnough h s.accepted → HandedOver b s image h) := by
  have hsound := sound_of_reachable hs
  unfold Updater.stagedImage at himage
  split_ifs at himage with hstaged
  obtain ⟨mem, hmem, rfl⟩ := Option.map_eq_some_iff.mp himage
  rcases hsound.state with ⟨hrec, -⟩ | hidle
  · exact Bool.noConfusion ((hrec.staged.symm.trans hstaged) : false = true)
  · obtain ⟨h, hh, hover⟩ := hidle.handed hstaged mem hmem
    refine ⟨h, hh, fun hlong => ?_⟩
    obtain ⟨trailer, hall, hver⟩ := hover.image hlong
    have hlen : s.u.imageLen ≤ s.declared := by
      have hfits := hover.fits
      rw [← hall, List.length_append, Mem.read_length] at hfits
      omega
    have hlt : s.u.imageLen < 2 ^ 31 :=
      Nat.lt_of_le_of_lt (Nat.le_trans hlen hover.region) b.sketchSize_lt
    obtain ⟨n, hn⟩ := Nat.exists_eq_add_of_le (b.le_roundUp hlt)
    refine ⟨⟨trailer, hall, hver⟩, fun parked ops hops => ?_, fun hfull parked ops hops => ?_⟩
    · rw [commit_programs hmem hops, hn, Mem.read_add]
      exact List.prefix_append _ _
    · rw [Mem.read_length] at hfull ⊢
      have hpad := hover.pad
      rw [← hfull] at hpad
      rw [commit_programs hmem hops, hn, Mem.read_add, Nat.add_sub_cancel_left]
      congr 1
      refine List.ext_getElem (by simp) fun i h₁ h₂ => ?_
      rw [Mem.read_length] at h₁
      rw [Mem.read_getElem, List.getElem_replicate, Int.zero_add]
      have := hpad (s.u.imageLen + i) (by omega) (by omega)
      rwa [Int.natCast_add] at this

/-! ### The three ways in -/

/-- While an update runs, the invariant says that it is being received. -/
theorem Sound.receiving (h : Sound b s) (hrun : s.u.isRunning) :
    Receiving b s.declared s.accepted s.everSigned s.u ∧ Prompt s.u := by
  rcases h.state with hrec | hidle
  · exact hrec
  · exact absurd hidle.size (Nat.pos_iff_ne_zero.mp hrun)

/-- Verified images of the same bytes, for the same verifier, are the same. -/
theorem Verified.unique {h h' : Handed} {image image' trailer trailer' : List UInt8}
    (hv : Verified h image trailer) (hv' : Verified h' image' trailer') (hs : h.signer = h'.signer)
    (hall : image ++ trailer = image' ++ trailer') : image = image' := by
  have hlen : trailer.length = trailer'.length := by
    unfold Verified at hv hv'
    rw [← hs] at hv'
    cases hsig : h.signer with
    | none =>
      rw [hsig] at hv hv'
      rw [hv.1, hv'.1]
    | some v =>
      rw [hsig] at hv hv'
      obtain ⟨-, sig, -, hsl, -, ht⟩ := hv
      obtain ⟨-, sig', -, hsl', -, ht'⟩ := hv'
      rw [ht, ht']
      split_ifs
      · rfl
      · rw [List.length_append, List.length_append, hsl, hsl']
  exact (List.append_inj' hall hlen).1

end

/-! A board, and an image of three parts: the words of a sketch, a signature of four bytes, and its
length. -/

def board : Board := ⟨0x4000, by decide, [1, 2, 3, 4], 0, 0, by decide, .is960K⟩

def willing : Driver := ⟨fun _ => true, fun _ _ => true⟩

def lenient : Signer := ⟨4, by decide, fun _ _ => true⟩

def signedImage : List UInt8 :=
  [0, 0, 0, 0, 0, 0, 0, 0, 1, 2, 3, 4] ++ [0x51, 0x52, 0x53, 0x54] ++ [4, 0, 0, 0]

/-- The image comes in with an MD5 that is not its own, and `end` returns true. -/
def signedUpdate : List Action :=
  [.begin 20 .flash (some fun _ => 0), .setMD5 (List.replicate 32 '0'), .write willing signedImage,
    .«end» willing false true fun _ => 0]

/-- The state after some actions on `board`, with a verifier or without. -/
def afterActs (signer : Option Signer) (acts : List Action) : System :=
  acts.foldl (step board) ⟨.new signer, 0, [], signer.isSome, none⟩

theorem reachable_afterActs {G : System → Action → Prop} (signer : Option Signer)
    {acts : List Action} (hG : ∀ a ∈ acts, ∀ s, G s a) :
    (machine board).Reachable G (afterActs signer acts) :=
  reachable_foldl (fun _ _ => rfl) hG (.init ⟨signer, rfl⟩)

theorem fits_signedUpdate : ∀ a ∈ signedUpdate, ∀ s, fitting board s a := by
  simp [signedUpdate, fitting]

/-- The run that ends with the verifier's consent. -/
theorem handedOver_of_reachable_signedUpdate :
    ∃ h, (afterActs (some lenient) signedUpdate).handed = some h ∧
      (LongEnough h (afterActs (some lenient) signedUpdate).accepted →
        HandedOver board (afterActs (some lenient) signedUpdate)
          [0, 0, 0, 0, 0, 0, 0, 0, 1, 2, 3, 4] h) :=
  handedOver_of_reachable (reachable_afterActs _ fits_signedUpdate) (by decide +kernel)

/-- **With a verifier in force, the MD5 is not looked at**, and the signature is programmed behind
the image. -/
theorem not_checked_of_reachable :
    ∃ s, (machine board).Reachable anyStep s ∧ ∃ image h ops,
      s.u.stagedImage = some image ∧ s.handed = some h ∧ h.targetMd5 ≠ [] ∧
        sameHex h.targetMd5 (md5 image) = false ∧ s.u.commit board true = some ops ∧
        (ops.flatMap CommitOp.programs)[image.length]? = some 0x51 := by
  refine ⟨afterActs (some lenient) signedUpdate, reachable_afterActs _ fun _ _ _ => trivial, ?_⟩
  have himage : (afterActs (some lenient) signedUpdate).u.stagedImage =
      some [0, 0, 0, 0, 0, 0, 0, 0, 1, 2, 3, 4] := by decide +kernel
  have htarget : (afterActs (some lenient) signedUpdate).handed.map (·.targetMd5) =
      some (List.replicate 32 '0') := by decide +kernel
  have hops : ((afterActs (some lenient) signedUpdate).u.commit board true).map
      (fun ops => (ops.flatMap CommitOp.programs)[12]?) = some (some 0x51) := by decide +kernel
  obtain ⟨h, hh, hht⟩ := Option.map_eq_some_iff.mp htarget
  obtain ⟨ops, hops, hbyte⟩ := Option.map_eq_some_iff.mp hops
  refine ⟨_, h, ops, himage, hh, ?_, ?_, hops, hbyte⟩
  · rw [hht]
    decide
  · rw [hht]
    decide +kernel

end Ch32h4.Update
