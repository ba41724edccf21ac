import Ch32h4.Eeprom.Equiv.Committing

/-!
# Atomic and durable commits

* `durable_of_reachable`: after every run with fewer than `2 ^ 32 - 1` commits, whatever the
  operations refused and wherever the power went, a `begin` on a fresh object presents contents
  that the run accounts for, with `0xFF` beyond them, and a commit that returns false can be
  tried again.

`Sound` is the invariant.  The page that the object takes to be live is the one that
`findActivePage` finds, with its serial, and no valid page has a serial above the number of
commits; so a commit writes to the other page, with a serial above all others, and stopping it
anywhere (`carryOut_commit`) either makes its copy the live one (`Took`) or leaves the live one
alone (`Kept`).
-/

namespace Ch32h4.Eeprom

open Flash Machine

/-! ### What a start presents -/

/-- A `begin` on a fresh object succeeds and presents `c`, with `0xFF` beyond it. -/
def Presents (f : Cells) (c : List UInt8) : Prop :=
  ∀ size, 0 < size → size ≤ maxSize →
    (Obj.fresh.begin f size true).2 = true ∧
      (Obj.fresh.begin f size true).1.mirror = some (fit size c)

/-- A fresh object presents what is stored on the flash. -/
theorem presents_stored (f : Cells) : Presents f (stored f).1 := by
  intro size hpos hsize
  have hok : ¬ (size = 0 ∨ size > maxSize) := by omega
  unfold Obj.begin
  rw [if_neg hok, if_neg (by simp [Obj.fresh]), if_pos rfl]
  exact ⟨rfl, rfl⟩

/-- What commits promise, in a state between two calls. -/
structure Durable (cap : Capacity) (s : System) : Prop where
  /-- The next start presents contents that the run accounts for. -/
  presents : ∃ c ∈ s.stored, Presents s.flash c
  /-- A commit that returns false leaves the object and the live page. -/
  refused : ∀ fault, (s.obj.commit cap s.flash fault).result = some false →
    (s.obj.commit cap s.flash fault).obj = s.obj ∧
      ∀ p, findActivePage s.flash = some p →
        ∀ o, (s.obj.commit cap s.flash fault).flash p o = s.flash p o
  /-- Another commit then stores the same data. -/
  retry : ∀ fault m, (s.obj.commit cap s.flash fault).result = some false →
    s.obj.mirror = some m →
      let r := (s.obj.commit cap s.flash fault)
      let r' := r.obj.commit cap r.flash .nothing
      r'.result = some true ∧ Presents r'.flash m

/-! ### The invariant -/

structure Sound (s : System) : Prop where
  /-- The contents of the flash are among those the run accounts for. -/
  stored_mem : (Eeprom.stored s.flash).1 ∈ s.stored
  /-- Serials count commits. -/
  serials : ∀ p < numPages, PageValid s.flash p → pageSerial s.flash p ≤ s.commits
  /-- With a mirror, the object knows the live page. -/
  mirrored : ∀ m, s.obj.mirror = some m →
    m.length = s.obj.size ∧ 0 < s.obj.size ∧ s.obj.size ≤ maxSize ∧
      s.obj.active = findActivePage s.flash ∧ s.obj.serial = (Eeprom.stored s.flash).2

/-- The copy on page `t` has become the live one. -/
structure Took (f' : Cells) (t : ℕ) (m : List UInt8) (serial : ℕ) : Prop where
  live : findActivePage f' = some t
  stored : Eeprom.stored f' = (m, serial)

/-- The live copy is what it was. -/
structure Kept (f f' : Cells) : Prop where
  live : findActivePage f' = findActivePage f
  stored : Eeprom.stored f' = Eeprom.stored f
  cells : ∀ p, findActivePage f = some p → ∀ o, f' p o = f p o
  serials : ∀ p < numPages, PageValid f' p → PageValid f p ∧ pageSerial f' p = pageSerial f p

theorem Obj.target_lt (e : Obj) : e.target < numPages := by
  unfold Obj.target
  split_ifs <;> decide

theorem Obj.active_ne_target (e : Obj) : e.active ≠ some e.target := by
  unfold Obj.target
  split_ifs with h
  · rw [h]
    decide
  · exact h

section

variable {cap : Capacity} {s : System} {m : List UInt8} {fault : Fault}

/-- The serial of the live page is that of a commit. -/
theorem Sound.serial_le (h : Sound s) : (Eeprom.stored s.flash).2 ≤ s.commits := by
  unfold Eeprom.stored
  cases hlive : findActivePage s.flash with
  | none => exact Nat.zero_le _
  | some p =>
    obtain ⟨hp, hv, -⟩ := pageValid_of_some hlive
    exact h.serials p hp hv

theorem Sound.nextSerial_eq (h : Sound s) (hm : s.obj.mirror = some m)
    (hc : s.commits + 1 < 2 ^ 32) : s.obj.nextSerial = s.obj.serial + 1 := by
  have hserial := (h.mirrored m hm).2.2.2.2
  have hle := h.serial_le
  exact Nat.mod_eq_of_lt (by omega)

/-- A complete copy with the next serial is the live one. -/
theorem Sound.took (h : Sound s) (hm : s.obj.mirror = some m) (hc : s.commits + 1 < 2 ^ 32)
    {f' : Cells} (hframe : ∀ q ≠ s.obj.target, ∀ o, f' q o = s.flash q o)
    (hholds : Holds f' s.obj.target m s.obj.nextSerial) :
    Took f' s.obj.target m s.obj.nextSerial := by
  obtain ⟨hlen, hpos, hsize, hactive, hserial⟩ := h.mirrored m hm
  have hle := h.serial_le
  have hnext := h.nextSerial_eq hm hc
  obtain ⟨hv, hser, hpay⟩ := hholds.valid (by omega) (by omega) (by omega)
  have hlive : findActivePage f' = some s.obj.target := by
    refine findActivePage_eq_some s.obj.target_lt hv fun q hq hqt hvq => ?_
    -- the other page, if valid, is the live one or worse than it
    have hsame : SamePage s.flash f' q := fun o _ => hframe q hqt o
    have hvq' := hsame.valid_iff.mp hvq
    rw [hsame.serial, hser, hnext, hserial]
    cases hact : findActivePage s.flash with
    | none => exact absurd hvq' (not_pageValid_of_none hact hq)
    | some p =>
      have hmax := (pageValid_of_some hact).2.2 q hq hvq'
      have hst : (Eeprom.stored s.flash).2 = pageSerial s.flash p := by rw [Eeprom.stored, hact]
      omega
  refine ⟨hlive, ?_⟩
  rw [Eeprom.stored, hlive]
  simp only [hser, hpay]

/-- Spoiling the page that is not live keeps the other. -/
theorem Sound.kept (h : Sound s) (hm : s.obj.mirror = some m) {f' : Cells}
    (hframe : ∀ q ≠ s.obj.target, ∀ o, f' q o = s.flash q o)
    (hspoiled : Spoiled s.flash f' s.obj.target) : Kept s.flash f' := by
  obtain ⟨-, -, -, hactive, -⟩ := h.mirrored m hm
  have hother : ∀ q < numPages, q ≠ s.obj.target → SamePage s.flash f' q :=
    fun q _ hqt o _ => hframe q hqt o
  have hne : findActivePage s.flash ≠ some s.obj.target := hactive ▸ s.obj.active_ne_target
  refine ⟨hspoiled.findActivePage s.obj.target_lt hne hother,
    hspoiled.stored s.obj.target_lt hne hother, fun p hp o => hframe p ?_ o, fun p hp hv => ?_⟩
  · rintro rfl
    exact hne hp
  · by_cases hpt : p = s.obj.target
    · subst hpt
      rcases hspoiled with hsame | hnot
      · exact ⟨hsame.valid_iff.mp hv, hsame.serial⟩
      · exact absurd hv hnot
    · exact ⟨(hother p hp hpt).valid_iff.mp hv, (hother p hp hpt).serial⟩

/-- A commit with something to write. -/
theorem Obj.commit_dirty {e : Obj} (hm : e.mirror = some m) (hd : e.dirty = true) (f : Cells) :
    e.commit cap f fault = e.settle (carryOut e.target fault f (e.commitOps cap m)) := by
  unfold Obj.commit
  simp only [hm, hd, Bool.true_eq_false, ite_false]

/-- **One commit**: it takes, or it is refused and keeps the live copy, or the power goes and it
has done the one or the other. -/
theorem Sound.commit_cases (h : Sound s) (hm : s.obj.mirror = some m) (hd : s.obj.dirty = true)
    (hc : s.commits + 1 < 2 ^ 32) (cap : Capacity) (fault : Fault) :
    let r := s.obj.commit cap s.flash fault
    (r.result = some true ∧
      r.obj = { s.obj with active := some s.obj.target, serial := s.obj.nextSerial,
                           dirty := false } ∧
      Took r.flash s.obj.target m s.obj.nextSerial) ∨
    (r.result = some false ∧ r.obj = s.obj ∧ Kept s.flash r.flash) ∨
    (r.result = none ∧ r.obj = .fresh ∧
      (Took r.flash s.obj.target m s.obj.nextSerial ∨ Kept s.flash r.flash)) := by
  obtain ⟨hlen, -, hsize, -, -⟩ := h.mirrored m hm
  obtain ⟨hframe, hfin, href, hlost⟩ := carryOut_commit cap s.obj.target s.flash m
    s.obj.nextSerial (hlen ▸ hsize) fault
  rw [hlen] at hframe hfin href hlost
  intro r
  have hr : r = _ := Obj.commit_dirty hm hd s.flash
  rw [Obj.commitOps, Obj.settle] at hr
  cases hprog : (carryOut s.obj.target fault s.flash
      (eraseOps cap ++ programOps (header m s.obj.size s.obj.nextSerial) m s.obj.size)).2 with
  | finished =>
    simp only [hprog] at hr
    rw [hr]
    exact .inl ⟨rfl, rfl, h.took hm hc hframe (hfin hprog)⟩
  | refused =>
    simp only [hprog] at hr
    rw [hr]
    exact .inr (.inl ⟨rfl, rfl, h.kept hm hframe (href hprog)⟩)
  | lost =>
    simp only [hprog] at hr
    rw [hr]
    refine .inr (.inr ⟨rfl, rfl, ?_⟩)
    exact (hlost hprog).imp (h.took hm hc hframe) (h.kept hm hframe)

/-! ### Steps -/

/-- A commit with nothing to write changes nothing. -/
theorem System.commit_clean (h : s.obj.mirror = none ∨ s.obj.dirty = false) :
    s.commit cap fault = s := by
  have hcount : ¬ (s.obj.mirror.isSome ∧ s.obj.dirty) := by
    rcases h with h | h <;> simp [h]
  unfold System.commit
  rw [if_neg hcount]
  unfold Obj.commit storedAfter
  cases hm : s.obj.mirror with
  | none => rfl
  | some m =>
    have hd : s.obj.dirty = false := h.resolve_left (by simp [hm])
    simp only [hd, if_true]

/-- Once a copy took, the state is sound whatever object is left, if the object knows of it. -/
theorem Took.sound {f' : Cells} {t serial : ℕ} (h : Took f' t m serial) {s' : System}
    (hflash : s'.flash = f') (hmem : m ∈ s'.stored) (hserial : serial ≤ s'.commits)
    (hmirror : ∀ m', s'.obj.mirror = some m' → m'.length = s'.obj.size ∧ 0 < s'.obj.size ∧
      s'.obj.size ≤ maxSize ∧ s'.obj.active = some t ∧ s'.obj.serial = serial) : Sound s' := by
  subst hflash
  refine ⟨by rw [h.stored]; exact hmem, fun p hp hv => ?_, fun m' hm' => ?_⟩
  · have hmax := (pageValid_of_some h.live).2.2 p hp hv
    have hst := h.stored
    rw [Eeprom.stored, h.live, Prod.mk.injEq] at hst
    omega
  · obtain ⟨hlen, hpos, hsize, hactive, hser⟩ := hmirror m' hm'
    exact ⟨hlen, hpos, hsize, hactive.trans h.live.symm, by rw [hser, h.stored]⟩

/-- While the live copy is kept, the state stays sound. -/
theorem Kept.sound (h : Sound s) {f' : Cells} (hkept : Kept s.flash f') {s' : System}
    (hflash : s'.flash = f') (hstored : ∀ c ∈ s.stored, c ∈ s'.stored)
    (hcommits : s.commits ≤ s'.commits) (hobj : s'.obj = s.obj ∨ s'.obj.mirror = none) :
    Sound s' := by
  subst hflash
  refine ⟨?_, fun p hp hv => ?_, fun m' hm' => ?_⟩
  · rw [hkept.stored]
    exact hstored _ h.stored_mem
  · obtain ⟨hv', hser⟩ := hkept.serials p hp hv
    rw [hser]
    exact Nat.le_trans (h.serials p hp hv') hcommits
  · rcases hobj with hobj | hobj
    · rw [hobj] at hm' ⊢
      rw [hkept.live, hkept.stored]
      exact h.mirrored m' hm'
    · rw [hobj] at hm'
      cases hm'

/-- A commit keeps the state sound. -/
theorem Sound.commit (h : Sound s) (hc : (s.commit cap fault).commits < 2 ^ 32 - 1) :
    Sound (s.commit cap fault) := by
  by_cases hclean : s.obj.mirror = none ∨ s.obj.dirty = false
  · rw [System.commit_clean hclean]
    exact h
  · rw [not_or, Bool.not_eq_false] at hclean
    obtain ⟨hm, hd⟩ := hclean
    obtain ⟨m, hm⟩ := Option.ne_none_iff_exists'.mp hm
    have hcount : (s.commit cap fault).commits = s.commits + 1 := by
      unfold System.commit
      exact if_pos ⟨by rw [hm]; rfl, hd⟩
    rw [hcount] at hc
    have hnext := h.nextSerial_eq hm (by omega)
    obtain ⟨hlen, hpos, hsize, -, hserial⟩ := h.mirrored m hm
    have hle := h.serial_le
    have hafter : (s.commit cap fault).stored =
        storedBy s.stored m (s.obj.commit cap s.flash fault).result := by
      unfold System.commit storedAfter
      simp only [hm, hd, Bool.true_eq_false, ite_false]
    rcases h.commit_cases hm hd (by omega) cap fault with
      ⟨hres, hobj, htook⟩ | ⟨hres, hobj, hkept⟩ | ⟨hres, hobj, hend⟩
    · rw [hres] at hafter
      refine htook.sound rfl (hafter ▸ List.mem_singleton_self m) (by omega) ?_
      have hobj' : (s.commit cap fault).obj = _ := hobj
      intro m' hm'
      rw [hobj'] at hm' ⊢
      obtain rfl : m = m' := Option.some.inj (hm.symm.trans hm')
      exact ⟨hlen, hpos, hsize, rfl, rfl⟩
    · rw [hres] at hafter
      exact hkept.sound h rfl (fun c hc => hafter ▸ hc) (by omega) (.inl hobj)
    · rw [hres] at hafter
      have hfresh : (s.commit cap fault).obj.mirror = none := by
        have hobj' : (s.commit cap fault).obj = _ := hobj
        rw [hobj']
        rfl
      rcases hend with htook | hkept
      · refine htook.sound rfl ?_ (by omega) fun m' hm' => ?_
        · exact hafter ▸ List.mem_append_right _ (List.mem_singleton_self m)
        · rw [hfresh] at hm'
          cases hm'
      · exact hkept.sound h rfl (fun c hc => hafter ▸ List.mem_append_left _ hc) (by omega)
          (.inr hfresh)

theorem fit_length (n : ℕ) (bs : List UInt8) : (fit n bs).length = n := by
  simp only [fit, List.length_append, List.length_take, List.length_replicate]
  omega

/-- A `begin` keeps the state sound. -/
theorem Sound.begin (h : Sound s) (size : ℕ) (alloc : Bool) : Sound (s.begin size alloc) := by
  have hkept : Kept s.flash s.flash := ⟨rfl, rfl, fun _ _ _ => rfl, fun _ _ hv => ⟨hv, rfl⟩⟩
  by_cases hok : size = 0 ∨ size > maxSize
  · have hreads : ¬ s.obj.BeginReads size alloc := fun hr => hr.1 hok
    refine hkept.sound h rfl ?_ (Nat.le_refl _) (.inl ?_)
    · simp only [System.begin, if_neg hreads]
      exact fun c hc => hc
    · simp only [System.begin, Obj.begin, if_pos hok]
  · by_cases hsame : s.obj.mirror.isSome ∧ s.obj.size = size
    · have hreads : ¬ s.obj.BeginReads size alloc := fun hr => hr.2.1 hsame
      refine hkept.sound h rfl ?_ (Nat.le_refl _) (.inl ?_)
      · simp only [System.begin, if_neg hreads]
        exact fun c hc => hc
      · simp only [System.begin, Obj.begin, if_neg hok, if_pos hsame]
    · cases alloc with
      | false =>
        have hreads : ¬ s.obj.BeginReads size false := fun hr => Bool.noConfusion hr.2.2
        refine hkept.sound h rfl ?_ (Nat.le_refl _) (.inr ?_)
        · simp only [System.begin, if_neg hreads]
          exact fun c hc => hc
        · simp [System.begin, Obj.begin, hok, hsame]
      | true =>
        -- the mirror is read from the flash, and rules out what it does not show
        have hreads : s.obj.BeginReads size true := ⟨hok, hsame, rfl⟩
        have hobj : (s.obj.begin s.flash size true).1 =
            { mirror := some (fit size (Eeprom.stored s.flash).1), size,
              active := findActivePage s.flash, dirty := false,
              serial := (Eeprom.stored s.flash).2 } := by
          unfold Obj.begin
          rw [if_neg hok, if_neg hsame, if_pos rfl]
        refine ⟨?_, h.serials, fun m hm => ?_⟩
        · simp only [System.begin, if_pos hreads, hobj, List.mem_filter, decide_true, and_true]
          exact h.stored_mem
        · simp only [System.begin, hobj, Option.some.injEq] at hm ⊢
          subst hm
          exact ⟨fit_length _ _, by omega, by omega, trivial, trivial⟩

/-- A write keeps the state sound. -/
theorem Sound.write (h : Sound s) (address : ℤ) (value : UInt8) :
    Sound { s with obj := s.obj.write address value } := by
  refine ⟨h.stored_mem, h.serials, ?_⟩
  unfold Obj.write
  cases hm : s.obj.mirror with
  | none =>
    intro m' hm'
    rw [hm] at hm'
    cases hm'
  | some m =>
    have hmir := h.mirrored m hm
    dsimp only
    split_ifs
    · exact fun m' hm' => h.mirrored m' hm'
    · rintro _ ⟨⟩
      exact ⟨by rw [List.length_set, hmir.1], hmir.2⟩
    · exact fun m' hm' => h.mirrored m' hm'

/-- An object that lets go of its mirror is always sound. -/
theorem Sound.drop (h : Sound s) {e : Obj} (he : e.mirror = none) : Sound { s with obj := e } :=
  ⟨h.stored_mem, h.serials, fun m hm => by rw [he] at hm; cases hm⟩

theorem commits_le_commit (s : System) (cap : Capacity) (fault : Fault) :
    s.commits ≤ (s.commit cap fault).commits := by
  unfold System.commit
  dsimp only
  split_ifs <;> omega

theorem commits_le_step (s : System) (cap : Capacity) (a : Action) :
    s.commits ≤ (step cap s a).commits := by
  cases a with
  | commit fault => exact commits_le_commit s cap fault
  | «end» fault =>
    unfold step
    dsimp only
    split_ifs
    · exact commits_le_commit s cap fault
    · exact Nat.le_refl _
  | _ => exact Nat.le_refl _

theorem commits_commit_le (s : System) (cap : Capacity) (fault : Fault) :
    (s.commit cap fault).commits ≤ s.commits + 1 := by
  unfold System.commit
  dsimp only
  split_ifs <;> omega

theorem commits_step_le (s : System) (cap : Capacity) (a : Action) :
    (step cap s a).commits ≤ s.commits + 1 := by
  cases a with
  | commit fault => exact commits_commit_le s cap fault
  | «end» fault =>
    unfold step
    dsimp only
    split_ifs
    · exact commits_commit_le s cap fault
    · exact Nat.le_succ _
  | _ => exact Nat.le_succ _

/-- Every call, and every loss of power, keeps the state sound. -/
theorem Sound.step (h : Sound s) {a : Action} (hc : (step cap s a).commits < 2 ^ 32 - 1) :
    Sound (step cap s a) := by
  cases a with
  | begin size alloc => exact h.begin size alloc
  | write address value => exact h.write address value
  | commit fault => exact h.commit hc
  | «end» fault =>
    unfold Eeprom.step at hc ⊢
    dsimp only at hc ⊢
    by_cases hd : s.obj.dirty
    · rw [if_pos hd] at hc ⊢
      exact (h.commit hc).drop rfl
    · rw [if_neg hd]
      exact h.drop rfl
  | powerLoss => exact h.drop rfl

/-- The state is sound after every run. -/
theorem sound_of_reachable (h : (machine cap).Reachable anyStep s) (hc : s.commits < 2 ^ 32 - 1) :
    Sound s := by
  refine Machine.invariant (M := machine cap) (I := fun s => s.commits < 2 ^ 32 - 1 → Sound s)
    ?_ ?_ h hc
  · rintro s ⟨hobj, hnone, hstored, -⟩ -
    refine ⟨?_, fun p hp hv => absurd hv (not_pageValid_of_none hnone hp), fun m hm => ?_⟩
    · rw [Eeprom.stored, hnone, hstored]
      exact List.mem_singleton_self []
    · rw [hobj] at hm
      cases hm
  · rintro s a _ hI - ⟨⟩ hc
    exact (hI (Nat.lt_of_le_of_lt (commits_le_step s cap a) hc)).step hc

/-- The state after a list of actions. -/
def after (cap : Capacity) (s : System) (acts : List Action) : System := acts.foldl (step cap) s

theorem reachable_after (h : (machine cap).Reachable anyStep s) (acts : List Action) :
    (machine cap).Reachable anyStep (after cap s acts) :=
  reachable_foldl (fun _ _ => rfl) (fun _ _ _ => trivial) h

/-- A run makes at most as many commits as it takes actions. -/
theorem commits_after_le (cap : Capacity) (s : System) (acts : List Action) :
    (after cap s acts).commits ≤ s.commits + acts.length := by
  induction acts generalizing s with
  | nil => exact Nat.le_refl _
  | cons a acts ih =>
    have hstep := commits_step_le s cap a
    have hrest : (after cap s (a :: acts)).commits ≤ _ := ih (step cap s a)
    rw [List.length_cons]
    omega

/-! ### Durability -/

theorem presents_of_took {f' : Cells} {t serial : ℕ} (h : Took f' t m serial) : Presents f' m := by
  have hp := presents_stored f'
  rwa [h.stored] at hp

/-- A commit with nothing in its way writes the mirror. -/
theorem Sound.commit_nothing (h : Sound s) (hm : s.obj.mirror = some m)
    (hd : s.obj.dirty = true) (hc : s.commits + 1 < 2 ^ 32) (cap : Capacity) :
    (s.obj.commit cap s.flash .nothing).result = some true ∧
      Presents (s.obj.commit cap s.flash .nothing).flash m := by
  have hsize := (h.mirrored m hm).2.2.1
  have hres : (s.obj.commit cap s.flash .nothing).result = some true := by
    rw [Obj.commit_dirty hm hd, Obj.commitOps, Obj.settle]
    simp only [carryOut_commit_nothing cap _ _ _ _ hsize]
  refine ⟨hres, ?_⟩
  rcases h.commit_cases hm hd hc cap .nothing with ⟨-, -, htook⟩ | ⟨hf, -, -⟩ | ⟨hn, -, -⟩
  · exact presents_of_took htook
  · rw [hres] at hf
    cases hf
  · rw [hres] at hn
    cases hn

/-- A commit that returns false has left the object and the live copy. -/
theorem Sound.commit_false (h : Sound s) (hc : s.commits + 1 < 2 ^ 32)
    (hres : (s.obj.commit cap s.flash fault).result = some false) :
    (s.obj.commit cap s.flash fault).obj = s.obj ∧
      Kept s.flash (s.obj.commit cap s.flash fault).flash ∧
      (s.obj.mirror ≠ none → s.obj.dirty = true) := by
  have hkept : Kept s.flash s.flash := ⟨rfl, rfl, fun _ _ _ => rfl, fun _ _ hv => ⟨hv, rfl⟩⟩
  cases hm : s.obj.mirror with
  | none =>
    have hr : s.obj.commit cap s.flash fault = ⟨s.obj, s.flash, some false⟩ := by
      unfold Obj.commit
      rw [hm]
    rw [hr]
    exact ⟨rfl, hkept, fun hne => absurd rfl hne⟩
  | some m =>
    cases hd : s.obj.dirty with
    | false =>
      -- there was nothing to write, so it returned true
      have hr : (s.obj.commit cap s.flash fault).result = some true := by
        unfold Obj.commit
        simp only [hm, hd, if_true]
      rw [hr] at hres
      cases hres
    | true =>
      rcases h.commit_cases hm hd hc cap fault with ⟨ht, -, -⟩ | ⟨-, hobj, hk⟩ | ⟨hn, -, -⟩
      · rw [ht] at hres
        cases hres
      · exact ⟨hobj, hk, fun _ => rfl⟩
      · rw [hn] at hres
        cases hres

/-- A sound state is durable. -/
theorem Sound.durable (h : Sound s) (hc : s.commits < 2 ^ 32 - 1) : Durable cap s := by
  refine ⟨⟨_, h.stored_mem, presents_stored s.flash⟩, fun fault hres => ?_,
    fun fault m hres hm => ?_⟩
  · obtain ⟨hobj, hkept, -⟩ := h.commit_false (by omega) hres
    exact ⟨hobj, hkept.cells⟩
  · obtain ⟨hobj, hkept, hd⟩ := h.commit_false (by omega) hres
    have hsound : Sound { s with flash := (s.obj.commit cap s.flash fault).flash } :=
      hkept.sound h rfl (fun c hc => hc) (Nat.le_refl _) (.inl rfl)
    dsimp only
    rw [hobj]
    have hc' : s.commits + 1 < 2 ^ 32 := by omega
    exact hsound.commit_nothing hm (hd (by rw [hm]; exact Option.some_ne_none m)) hc' cap

/-- **Commits are atomic and durable**: after every run with fewer than `2 ^ 32 - 1` commits,
the next start presents contents that the run accounts for, and a commit that returns false
leaves what a retry needs. -/
theorem durable_of_reachable (h : (machine cap).Reachable anyStep s)
    (hc : s.commits < 2 ^ 32 - 1) : Durable cap s :=
  (sound_of_reachable h hc).durable hc

end

/-- A chip fresh from the factory. -/
def blankChip : System := ⟨.fresh, fun _ _ => none, [[]], 0⟩

/-- Two commits, the second cut off before its last program. -/
theorem durable_of_reachable_cutOff :
    Durable .is960K (after .is960K blankChip [.begin 300 true, .write 7 1, .commit .nothing,
      .write 7 2, .commit (.cut 2)]) := by
  refine durable_of_reachable (reachable_after (.init ⟨rfl, by decide +kernel, rfl, rfl⟩) _) ?_
  exact Nat.lt_of_le_of_lt (commits_after_le _ _ _) (by decide)

end Ch32h4.Eeprom
