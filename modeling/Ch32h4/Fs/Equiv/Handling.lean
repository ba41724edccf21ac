import Ch32h4.Fs.Handle

/-!
# The handles are opened before and closed after

A `LittleFSFileImpl` says that it is open from the moment it is made, so `_opened` is the truth about
the handle as long as `lfs_file_open` succeeds (`Kept`), and each object is open as long as a `File`
of the sketch points to it and nobody has closed it (`Live`).

Where `lfs_file_open` fails, `LittleFSImpl::open` closes the object, "so say so before dropping it".
That passes the handle to `lfs_file_close`, which is what it means to avoid: the promise is broken
there, once and for all, and nowhere else.
-/

namespace Ch32h4.Fs.Handle

open Machine Ledger Traced

variable {κ : Type*} {s s' : System κ} {closed : List ℕ} {p : Option ℕ} {h i j : ℕ}

/-! ### The calls of each operation -/

/-- A call that uses the handle of a file that is open. -/
def Uses (f : FileImpl) (c : LfsCall) : Prop := f.opened = true ∧ c.entries = [⟨.use, f.file⟩]

section

variable (f : FileImpl)

theorem all_uses_write (buf : List UInt8) (n : ℤ) : (f.write buf n).All (Uses f) := by
  rw [FileImpl.write, all_ite]
  simp +contextual [Uses, LfsCall.entries]

theorem all_uses_read (len : ℕ) (n : ℤ) : (f.read len n).All (Uses f) := by
  rw [FileImpl.read, all_ite]
  simp +contextual [Uses, LfsCall.entries]

theorem all_uses_flush : f.flush.All (Uses f) := by
  rw [FileImpl.flush, all_ite]
  simp +contextual [Uses, LfsCall.entries]

theorem all_uses_seek (pos : ℕ) (mode : SeekMode) (n : ℤ) : (f.seek pos mode n).All (Uses f) := by
  rw [FileImpl.seek, all_ite]
  simp +contextual [Uses, LfsCall.entries]

theorem all_uses_position (n : ℤ) : (f.position n).All (Uses f) := by
  rw [FileImpl.position, all_ite]
  simp +contextual [Uses, LfsCall.entries]

theorem all_uses_size (n : ℤ) : (f.size n).All (Uses f) := by
  rw [FileImpl.size, all_ite]
  simp +contextual [Uses, LfsCall.entries]

theorem all_uses_truncate (len : ℕ) (err : ℤ) : (f.truncate len err).All (Uses f) := by
  rw [FileImpl.truncate, all_ite]
  simp +contextual [Uses, LfsCall.entries]

theorem uses_of_mem_calls (u : Use) : ∀ c ∈ u.calls f, Uses f c := by
  cases u with
  | write buf n => exact all_uses_write f buf n
  | read len n => exact all_uses_read f len n
  | peek p n m =>
    refine (all_bind _ _).mpr ⟨all_uses_position f p, (all_bind _ _).mpr ⟨all_uses_read f 1 n, ?_⟩⟩
    exact (all_bind _ _).mpr ⟨all_uses_seek f _ .seekSet m, all_pure _⟩
  | available n p =>
    refine (all_bind _ _).mpr ⟨all_uses_size f n, ?_⟩
    exact (all_bind _ _).mpr ⟨all_uses_position f p, all_pure _⟩
  | flush => exact all_uses_flush f
  | seek pos mode n => exact all_uses_seek f pos mode n
  | position p => exact all_uses_position f p
  | size n => exact all_uses_size f n
  | truncate len err => exact all_uses_truncate f len err

/-- They are entered as uses of that handle; a file that is closed makes no call. -/
theorem entries_calls (u : Use) : ∃ n, (u.calls f).flatMap LfsCall.entries =
    Ledger.all .use (List.replicate n f.file) ∧ (f.opened = false → n = 0) := by
  have huses := uses_of_mem_calls f u
  generalize u.calls f = calls at huses
  induction calls with
  | nil => exact ⟨0, rfl, fun _ => rfl⟩
  | cons c calls ih =>
    obtain ⟨n, hn, -⟩ := ih fun c' hc' => huses c' (List.mem_cons_of_mem c hc')
    obtain ⟨hopened, hc⟩ := huses c List.mem_cons_self
    refine ⟨n + 1, ?_, fun hclosed => absurd hopened (by simp [hclosed])⟩
    rw [List.flatMap_cons, hc, hn]
    rfl

end

/-! ### The ledger of each operation -/

theorem ledger_append (s : System κ) (calls : List LfsCall) :
    ({ s with calls := s.calls ++ calls } : System κ).ledger =
      s.ledger ++ calls.flatMap LfsCall.entries := List.flatMap_append

theorem value_close (f : FileImpl) : f.close.value = { f with opened := false } := by
  obtain ⟨file, opened, writable⟩ := f
  cases opened <;> rfl

theorem events_close (f : FileImpl) :
    f.close.events = if f.opened then [.close f.file] else [] := by
  unfold FileImpl.close
  split <;> rfl

theorem ledger_closeImpl (s : System κ) (i : ℕ) : (s.closeImpl i).ledger =
    s.ledger ++ if (s.impls i).opened then [⟨.release, (s.impls i).file⟩] else [] := by
  unfold System.closeImpl System.ledger
  dsimp only
  rw [List.flatMap_append, events_close]
  split <;> rfl

theorem impls_closeImpl (s : System κ) (i j : ℕ) : (s.closeImpl i).impls j =
    if j = i then { s.impls j with opened := false } else s.impls j := by
  unfold System.closeImpl
  dsimp only
  by_cases hj : j = i
  · rw [if_pos hj, hj, Function.update_self, value_close]
  · rw [if_neg hj, Function.update_of_ne hj]

@[simp] theorem opened_closeImpl (s : System κ) (i j : ℕ) :
    ((s.closeImpl i).impls j).opened = true ↔ (s.impls j).opened = true ∧ j ≠ i := by
  rw [impls_closeImpl]
  by_cases hj : j = i <;> simp [hj]

theorem ledger_make (s : System κ) (path : List Char) (flags : ℕ) (writable : Bool) (err : ℤ) :
    (s.make path flags writable err).ledger =
      s.ledger ++ if err = 0 then [⟨.acquire, s.made⟩] else [] := by
  unfold System.make System.ledger
  rw [List.flatMap_append, List.flatMap_singleton, LfsCall.entries]

/-! ### `_opened` is the truth -/

/-- `_opened` says which handles are open, and those of all objects were opened. -/
structure Kept (s : System κ) : Prop where
  lawful : Lawful s.ledger
  file : ∀ i, (s.impls i).file = i
  held : ∀ i, (s.impls i).opened = true ↔ Held s.ledger i
  acquired : ∀ i, ⟨.acquire, i⟩ ∈ s.ledger ↔ i < s.made

theorem kept_atRest : Kept (atRest κ) where
  lawful := lawful_nil
  file _ := rfl
  held i := by simp [atRest, System.ledger, Held]
  acquired i := by simp [atRest, System.ledger]

theorem Kept.closeImpl (hk : Kept s) (i : ℕ) : Kept (s.closeImpl i) := by
  have hledger := ledger_closeImpl s i
  rw [hk.file i] at hledger
  by_cases hopened : (s.impls i).opened = true
  · rw [if_pos hopened] at hledger
    have hheld : ∀ r ∈ [i], Held s.ledger r := fun r hr =>
      List.mem_singleton.mp hr ▸ (hk.held i).mp hopened
    refine ⟨?_, fun j => ?_, fun j => ?_, fun j => ?_⟩
    · rw [hledger]
      exact hk.lawful.append_releases (List.nodup_singleton i) hheld
    · rw [impls_closeImpl]
      split <;> exact hk.file j
    · rw [opened_closeImpl, hk.held j, hledger, held_append]
      simp [Held, and_assoc]
    · rw [hledger, List.mem_append, hk.acquired j]
      exact or_iff_left (by simp)
  · rw [if_neg hopened, List.append_nil] at hledger
    refine ⟨hledger ▸ hk.lawful, fun j => ?_, fun j => ?_, fun j => hledger ▸ hk.acquired j⟩
    · rw [impls_closeImpl]
      split <;> exact hk.file j
    · rw [opened_closeImpl, hledger, ← hk.held j]
      refine and_iff_left_of_imp fun hj => ?_
      rintro rfl
      exact hopened hj

theorem Kept.useImpl (hk : Kept s) (i : ℕ) (u : Use) : Kept (s.useImpl i u) := by
  obtain ⟨n, hn, hclosed⟩ := entries_calls (s.impls i) u
  have hledger : (s.useImpl i u).ledger = s.ledger ++ Ledger.all .use (List.replicate n i) := by
    rw [System.useImpl, ledger_append, hn, hk.file i]
  have hnot : ∀ d r, d ≠ .use → (⟨d, r⟩ : Entry ℕ) ∉ Ledger.all .use (List.replicate n i) :=
    fun d r hd hin => hd (mem_all.mp hin).1
  refine ⟨?_, hk.file, fun j => ?_, fun j => ?_⟩
  · rw [hledger]
    refine hk.lawful.append_uses fun r hr => ?_
    obtain ⟨hn0, rfl⟩ := List.mem_replicate.mp hr
    exact (hk.held _).mp (by_contra fun h => hn0 (hclosed (Bool.eq_false_iff.mpr h)))
  · rw [hledger, held_append_iff (hnot .acquire j (by decide)) (hnot .release j (by decide))]
    exact hk.held j
  · rw [hledger, List.mem_append, or_iff_left (hnot .acquire j (by decide))]
    exact hk.acquired j

/-- An object whose handle is opened. -/
theorem Kept.make (hk : Kept s) (path : List Char) (flags : ℕ) (writable : Bool) :
    Kept (s.make path flags writable 0) := by
  have hledger : (s.make path flags writable 0).ledger = s.ledger ++ [⟨.acquire, s.made⟩] :=
    ledger_make s path flags writable 0
  have hnew : ⟨.acquire, s.made⟩ ∉ s.ledger := fun h => Nat.lt_irrefl _ ((hk.acquired _).mp h)
  have hunused : ∀ r ∈ [s.made], ⟨.acquire, r⟩ ∉ s.ledger := fun r hr =>
    (List.mem_singleton.mp hr).symm ▸ hnew
  refine ⟨?_, fun j => ?_, fun j => ?_, fun j => ?_⟩
  · rw [hledger]
    exact hk.lawful.append_acquires (List.nodup_singleton _) hunused
  · rw [System.make]
    dsimp only
    by_cases hj : j = s.made
    · rw [hj, Function.update_self]
    · rw [Function.update_of_ne hj]
      exact hk.file j
  · rw [hledger, held_append, System.make]
    dsimp only
    by_cases hj : j = s.made
    · subst hj
      rw [Function.update_self]
      simp [hk.lawful.not_mem_release hnew]
    · rw [Function.update_of_ne hj, hk.held j]
      simp [Held, hj]
  · rw [hledger, List.mem_append, hk.acquired j, List.mem_singleton, Entry.mk.injEq,
      and_iff_right rfl]
    exact Nat.lt_succ_iff_lt_or_eq.symm

/-! ### What is open has a `File` -/

/-- An object is open if the sketch did not close it and can reach it, through a `File` or through
the pointer that is just being returned. -/
def Live (s : System κ) (closed : List ℕ) (p : Option ℕ) : Prop :=
  ∀ i < s.made, (s.impls i).opened = true ↔ i ∉ closed ∧ (p = some i ∨ ∃ x, s.files x = some i)

/-- What is true as long as no `lfs_file_open` fails, while a pointer is being returned. -/
structure Sound (s : System κ) (closed : List ℕ) (p : Option ℕ) : Prop where
  kept : Kept s
  live : Live s closed p
  made : ∀ i, (p = some i ∨ ∃ x, s.files x = some i) → i < s.made
  closed : ∀ i ∈ closed, i < s.made

theorem sound_atRest : Sound (atRest κ) [] none where
  kept := kept_atRest
  live _ hi := absurd hi (Nat.not_lt_zero _)
  made i h := absurd h (by simp [atRest])
  closed _ h := absurd h (by simp)

theorem Sound.copy (hs : Sound s closed none) (y : κ) : Sound s closed (s.files y) := by
  have hcopy : ∀ j, (s.files y = some j ∨ ∃ x, s.files x = some j) ↔
      (none = some j ∨ ∃ x, s.files x = some j) := by
    intro j
    constructor
    · rintro (hy | hex)
      · exact .inr ⟨y, hy⟩
      · exact .inr hex
    · rintro (hnone | hex)
      · exact absurd hnone (by simp)
      · exact .inr hex
  refine ⟨hs.kept, fun j hj => ?_, fun j hj => hs.made j ((hcopy j).mp hj), hs.closed⟩
  rw [hcopy]
  exact hs.live j hj

theorem Sound.closeImpl (hs : Sound s closed none) (hi : i < s.made) :
    Sound (s.closeImpl i) (i :: closed) none where
  kept := hs.kept.closeImpl i
  live j hj := by
    rw [opened_closeImpl, hs.live j hj, List.mem_cons, not_or]
    constructor
    · rintro ⟨⟨hclosed, hex⟩, hji⟩
      exact ⟨⟨hji, hclosed⟩, hex⟩
    · rintro ⟨⟨hji, hclosed⟩, hex⟩
      exact ⟨⟨hclosed, hex⟩, hji⟩
  made := hs.made
  closed j hj := by
    rcases List.mem_cons.mp hj with rfl | hj
    · exact hi
    · exact hs.closed j hj

theorem Sound.make (hs : Sound s closed none) (path : List Char) (flags : ℕ) (writable : Bool) :
    Sound (s.make path flags writable 0) closed (some s.made) where
  kept := hs.kept.make path flags writable
  live j hj := by
    rw [System.make]
    dsimp only
    by_cases hjm : j = s.made
    · subst hjm
      rw [Function.update_self]
      simpa using fun h => Nat.lt_irrefl _ (hs.closed _ h)
    · have hlt : j < s.made := Nat.lt_of_le_of_ne (Nat.lt_succ_iff.mp hj) hjm
      rw [Function.update_of_ne hjm, hs.live j hlt]
      simp [Ne.symm hjm]
  made i := by
    rintro (hp | hex)
    · exact Option.some.inj hp ▸ Nat.lt_succ_self s.made
    · exact Nat.lt_succ_of_lt (hs.made i (.inr hex))
  closed i hi := Nat.lt_succ_of_lt (hs.closed i hi)

theorem Sound.useImpl (hs : Sound s closed none) (i : ℕ) (u : Use) :
    Sound (s.useImpl i u) closed none :=
  ⟨hs.kept.useImpl i u, hs.live, hs.made, hs.closed⟩

theorem Sound.mount (hs : Sound s closed none) (b : Bool) :
    Sound { s with mounted := b } closed none :=
  ⟨⟨hs.kept.lawful, hs.kept.file, hs.kept.held, hs.kept.acquired⟩, hs.live, hs.made, hs.closed⟩

section

variable [Fintype κ]

theorem Kept.unref (hk : Kept s) (p : Option ℕ) : Kept (s.unref p) := by
  cases p with
  | none => exact hk
  | some i =>
    rw [System.unref]
    split
    · exact hk
    · exact hk.closeImpl i

@[simp] theorem files_unref (s : System κ) (p : Option ℕ) : (s.unref p).files = s.files := by
  cases p with
  | none => rfl
  | some i =>
    rw [System.unref]
    split <;> rfl

@[simp] theorem made_unref (s : System κ) (p : Option ℕ) : (s.unref p).made = s.made := by
  cases p with
  | none => rfl
  | some i =>
    rw [System.unref]
    split <;> rfl

theorem opened_unref (s : System κ) (p : Option ℕ) (j : ℕ) :
    ((s.unref p).impls j).opened = true ↔
      (s.impls j).opened = true ∧ (p = some j → ∃ x, s.files x = some j) := by
  cases p with
  | none => simp [System.unref]
  | some i =>
    rw [System.unref]
    split
    · next hx =>
      refine (and_iff_left ?_).symm
      rintro ⟨rfl⟩
      exact hx
    · next hx =>
      rw [opened_closeImpl]
      refine and_congr_right fun _ => ⟨fun hj heq => absurd (Option.some.inj heq).symm hj, ?_⟩
      rintro hex rfl
      exact hx (hex rfl)

theorem Sound.openFile (hs : Sound s closed none) {path : Option (List Char)} {mode : List Char}
    {err : ℤ} (hopens : s.mounted = true → path.isSome = true → (sflags mode).isSome = true →
      err = 0) :
    Sound (s.openFile path mode err).1 closed (s.openFile path mode err).2 := by
  unfold System.openFile
  cases hmode : sflags mode with
  | none => exact hs
  | some m =>
    cases path with
    | none => exact hs
    | some path =>
      simp only [System.openImpl]
      by_cases hmounted : s.mounted = true
      · have herr : err = 0 := hopens hmounted rfl (by simp [hmode])
        rw [if_pos hmounted, if_neg (not_not.mpr herr), herr]
        exact hs.make _ _ _
      · rw [if_neg hmounted]
        exact hs

variable [DecidableEq κ]

theorem files_assign (s : System κ) (x : κ) (p : Option ℕ) :
    (s.assign x p).files = Function.update s.files x p := files_unref _ _

theorem made_assign (s : System κ) (x : κ) (p : Option ℕ) : (s.assign x p).made = s.made :=
  made_unref _ _

theorem Kept.assign (hk : Kept s) (x : κ) (p : Option ℕ) : Kept (s.assign x p) := by
  have hfiles : Kept { s with files := Function.update s.files x p } :=
    ⟨hk.lawful, hk.file, hk.held, hk.acquired⟩
  exact hfiles.unref _

theorem Sound.assign (hs : Sound s closed p) (x : κ) : Sound (s.assign x p) closed none where
  kept := hs.kept.assign x p
  live j hj := by
    rw [made_assign] at hj
    rw [files_assign, System.assign, opened_unref, hs.live j hj, and_assoc]
    refine and_congr_right fun _ => ?_
    constructor
    · rintro ⟨rfl | ⟨y, hy⟩, hlast⟩
      · exact .inr ⟨x, Function.update_self x _ _⟩
      · -- another `File` still points to it, unless it was this one
        by_cases hyx : y = x
        · exact .inr (hlast (hyx ▸ hy))
        · exact .inr ⟨y, (Function.update_of_ne hyx _ _).trans hy⟩
    · rintro (hnone | ⟨y, hy⟩)
      · exact absurd hnone (by simp)
      · refine ⟨?_, fun _ => ⟨y, hy⟩⟩
        by_cases hyx : y = x
        · rw [hyx, Function.update_self] at hy
          exact .inl hy
        · rw [Function.update_of_ne hyx] at hy
          exact .inr ⟨y, hy⟩
  made i := by
    rw [files_assign, made_assign]
    rintro (hnone | ⟨y, hy⟩)
    · exact absurd hnone (by simp)
    · by_cases hyx : y = x
      · rw [hyx, Function.update_self] at hy
        exact hs.made i (.inl hy)
      · rw [Function.update_of_ne hyx] at hy
        exact hs.made i (.inr ⟨y, hy⟩)
  closed i hi := (made_assign s x p).symm ▸ hs.closed i hi

/-! ### One call of the sketch -/

theorem Sound.step (hs : Sound s closed none) {a : Action κ} (hopens : Opens s a) :
    Sound (s.after a) (closing s closed a) none := by
  cases a with
  | openFile x path mode err => exact (hs.openFile hopens).assign x
  | copy x y => exact (hs.copy y).assign x
  | use x u =>
    change Sound (s.use x u) closed none
    rw [System.use]
    cases hx : s.files x with
    | none => exact hs
    | some i => exact hs.useImpl i u
  | close x =>
    rw [System.after, closing, System.close]
    cases hx : s.files x with
    | none => exact hs
    | some i => exact (hs.closeImpl (hs.made i (.inr ⟨x, hx⟩))).assign x
  | drop x => exact hs.assign x
  | beginFs ok => exact hs.mount _
  | endFs => exact hs.mount false

omit [DecidableEq κ] in
theorem Sound.disciplined (hs : Sound s closed none) : Disciplined (s, closed) where
  lawful := hs.kept.lawful
  once i := by
    by_cases hacquired : ⟨.acquire, i⟩ ∈ s.ledger
    · have hlive := hs.live i ((hs.kept.acquired i).mp hacquired)
      rw [hs.kept.held i, or_iff_right (by simp)] at hlive
      rcases hs.kept.lawful.count_release hacquired with ⟨hcount, hheld⟩ | ⟨hcount, hheld⟩
      · obtain ⟨hclosed, x, hx⟩ := hlive.mp hheld
        rw [hcount, if_neg]
        rintro ⟨-, hin | hall⟩
        · exact hclosed hin
        · exact hall x hx
      · have hended : i ∈ closed ∨ ∀ x, s.files x ≠ some i := by
          by_contra hnot
          rw [not_or, not_forall_not] at hnot
          exact hheld (hlive.mpr hnot)
        rw [hcount, if_pos ⟨hacquired, hended⟩]
    · rw [if_neg fun h => hacquired h.1]
      exact List.count_eq_zero_of_not_mem (hs.kept.lawful.not_mem_release hacquired)

/-! ### Runs with a failure -/

/-- What every operation does: it adds to the ledger, and acquires only what it made. -/
structure Extends (s t : System κ) : Prop where
  made : s.made ≤ t.made
  ledger : ∃ l, t.ledger = s.ledger ++ l ∧ ∀ i, ⟨.acquire, i⟩ ∈ l → i < t.made
  file : (∀ i, (s.impls i).file = i) → ∀ i, (t.impls i).file = i

omit [Fintype κ] [DecidableEq κ] in
theorem Extends.refl (s : System κ) : Extends s s :=
  ⟨Nat.le_refl _, ⟨[], (List.append_nil _).symm, fun _ h => absurd h (by simp)⟩, id⟩

omit [Fintype κ] [DecidableEq κ] in
theorem Extends.trans {t u : System κ} (h : Extends s t) (h' : Extends t u) : Extends s u := by
  obtain ⟨l, hl, hacquired⟩ := h.ledger
  obtain ⟨l', hl', hacquired'⟩ := h'.ledger
  refine ⟨h.made.trans h'.made, ⟨l ++ l', ?_, fun i hi => ?_⟩, h'.file ∘ h.file⟩
  · rw [hl', hl, List.append_assoc]
  · rcases List.mem_append.mp hi with hi | hi
    · exact Nat.lt_of_lt_of_le (hacquired i hi) h'.made
    · exact hacquired' i hi

omit [Fintype κ] [DecidableEq κ] in
theorem Extends.closeImpl (h : Extends s s') (i : ℕ) : Extends s (s'.closeImpl i) := by
  refine h.trans ⟨Nat.le_refl _, ⟨_, ledger_closeImpl s' i, fun j hj => ?_⟩, fun hfile j => ?_⟩
  · split at hj <;> simp at hj
  · rw [impls_closeImpl]
    split <;> exact hfile j

omit [Fintype κ] [DecidableEq κ] in
theorem Extends.make (h : Extends s s') (path : List Char) (flags : ℕ) (writable : Bool) (err : ℤ) :
    Extends s (s'.make path flags writable err) := by
  refine h.trans ⟨Nat.le_succ _, ⟨_, ledger_make s' path flags writable err, fun j hj => ?_⟩,
    fun hfile j => ?_⟩
  · split at hj
    · obtain ⟨-, rfl⟩ := Entry.mk.inj (List.mem_singleton.mp hj)
      exact Nat.lt_succ_self _
    · exact absurd hj (by simp)
  · rw [System.make]
    dsimp only
    by_cases hj : j = s'.made
    · rw [hj, Function.update_self]
    · rw [Function.update_of_ne hj]
      exact hfile j

omit [Fintype κ] [DecidableEq κ] in
theorem extends_useImpl (s : System κ) (i : ℕ) (u : Use) : Extends s (s.useImpl i u) := by
  obtain ⟨n, hn, -⟩ := entries_calls (s.impls i) u
  refine ⟨Nat.le_refl _, ⟨_, (ledger_append s _).trans (congrArg _ hn), fun j hj => ?_⟩, id⟩
  exact Deed.noConfusion (mem_all.mp hj).1

omit [DecidableEq κ] in
theorem Extends.unref (h : Extends s s') (p : Option ℕ) : Extends s (s'.unref p) := by
  cases p with
  | none => exact h
  | some i =>
    rw [System.unref]
    split
    · exact h
    · exact h.closeImpl i

theorem Extends.assign (h : Extends s s') (x : κ) (p : Option ℕ) : Extends s (s'.assign x p) := by
  have hfiles : Extends s { s' with files := Function.update s'.files x p } :=
    ⟨h.made, h.ledger, h.file⟩
  exact hfiles.unref _

omit [DecidableEq κ] in
theorem extends_openFile (s : System κ) (path : Option (List Char)) (mode : List Char) (err : ℤ) :
    Extends s (s.openFile path mode err).1 := by
  unfold System.openFile
  cases sflags mode with
  | none => exact .refl s
  | some m =>
    cases path with
    | none => exact .refl s
    | some path =>
      simp only [System.openImpl]
      split
      · split
        · exact ((Extends.make (.refl s) _ _ _ err).closeImpl s.made).unref (some s.made)
        · exact (Extends.refl s).make _ _ _ _
      · exact .refl s

theorem extends_after (s : System κ) (a : Action κ) : Extends s (s.after a) := by
  cases a with
  | openFile x path mode err => exact (extends_openFile s path mode err).assign x _
  | copy x y => exact (Extends.refl s).assign x _
  | use x u =>
    rw [System.after, System.use]
    cases s.files x with
    | none => exact .refl s
    | some i => exact extends_useImpl s i u
  | close x =>
    rw [System.after, System.close]
    cases s.files x with
    | none => exact .refl s
    | some i => exact ((Extends.refl s).closeImpl i).assign x none
  | drop x => exact (Extends.refl s).assign x none
  | beginFs ok => exact ⟨Nat.le_refl _, (Extends.refl s).ledger, id⟩
  | endFs => exact ⟨Nat.le_refl _, (Extends.refl s).ledger, id⟩

omit [Fintype κ] [DecidableEq κ] in
theorem extends_atRest {s : System κ} (h : Extends (atRest κ) s) :
    (∀ i, (s.impls i).file = i) ∧ ∀ i, ⟨.acquire, i⟩ ∈ s.ledger → i < s.made := by
  obtain ⟨l, hl, hacquired⟩ := h.ledger
  refine ⟨h.file fun _ => rfl, fun i hi => hacquired i ?_⟩
  rw [hl] at hi
  exact hi

omit [Fintype κ] [DecidableEq κ] in
theorem Extends.lawful (h : Extends s s') (hlawful : Lawful s'.ledger) : Lawful s.ledger := by
  obtain ⟨l, hl, -⟩ := h.ledger
  rw [hl] at hlawful
  exact hlawful.of_append

/-- A failure of `lfs_file_open` is followed by `lfs_file_close`, with a handle that was never
opened. -/
theorem not_lawful_of_not_opens (h : Extends (atRest κ) s) {a : Action κ} (hopens : ¬ Opens s a) :
    ¬ Lawful (s.after a).ledger := by
  obtain ⟨hfile, hacquired⟩ := extends_atRest h
  cases a with
  | openFile x path mode err =>
    simp only [Opens, not_forall] at hopens
    obtain ⟨hmounted, hpath, hmode, herr⟩ := hopens
    obtain ⟨path, rfl⟩ := Option.isSome_iff_exists.mp hpath
    obtain ⟨⟨om, am⟩, hm⟩ := Option.isSome_iff_exists.mp hmode
    intro hlawful
    have hopen : s.openFile (some path) mode err =
        ((((s.make (fixPath path) (openFlags om am) am.write err).closeImpl s.made).unref
          (some s.made)), none) := by
      simp [System.openFile, hm, System.openImpl, hmounted, herr]
    rw [System.after, hopen] at hlawful
    have hclosed := (((Extends.refl _).unref (some s.made)).assign x none).lawful hlawful
    -- the entry of the close comes right after those of the state before
    rw [ledger_closeImpl, ledger_make, if_neg herr, List.append_nil, System.make] at hclosed
    simp only [Function.update_self, if_true] at hclosed
    have hallows := hclosed s.ledger ⟨.release, s.made⟩ [] rfl
    rw [Allows, if_neg Deed.noConfusion] at hallows
    exact Nat.lt_irrefl _ (hacquired _ hallows.1)
  | copy | use | close | drop | beginFs | endFs => exact absurd trivial hopens

/-! ### Every run -/

variable {r : System κ × List ℕ}

theorem extends_of_reachable {G : System κ × List ℕ → Action κ → Prop}
    (h : (noted κ).Reachable G r) : Extends (atRest κ) r.1 := by
  refine invariant (I := fun t => Extends (atRest κ) t.1) (fun s hs => ?_)
    (fun s a s' hs _ hstep => ?_) h
  · exact hs.1 ▸ Extends.refl _
  · rw [← Option.some.inj (observed_step.mp hstep).1]
    exact hs.trans (extends_after s.1 a)

/-- **A handle is given to the library only while it is open, and closed once, in exactly the runs in
which `lfs_file_open` does not fail.** -/
theorem disciplined_iff_opens (h : (noted κ).Reachable anyStep r) :
    Disciplined r ↔ (noted κ).Reachable (fun t a => Opens t.1 a) r := by
  constructor
  · intro hr
    have hlawful := hr.lawful
    clear hr
    induction h with
    | init h => exact .init h
    | @step t t' a ht _ hstep ih =>
      have ht' := (observed_step.mp hstep).1
      rw [← Option.some.inj ht'] at hlawful
      refine .step (ih ((extends_after t.1 a).lawful hlawful)) ?_ hstep
      by_contra hopens
      exact not_lawful_of_not_opens (extends_of_reachable ht) hopens hlawful
  · intro hr
    have hsound : Sound r.1 r.2 none := by
      refine invariant (I := fun t => Sound t.1 t.2 none) (fun s hs => ?_)
        (fun s a s' hs hopens hstep => ?_) hr
      · obtain ⟨h1, h2⟩ := hs
        rw [h1, h2]
        exact sound_atRest
      · obtain ⟨h1, h2⟩ := observed_step.mp hstep
        rw [← Option.some.inj h1, h2]
        exact hs.step hopens
    exact hsound.disciplined

end

theorem noted_init : (noted (Fin 2)).init (atRest (Fin 2), []) := ⟨rfl, rfl⟩

/-- A file that is opened, copied, written and read, and whose copies go one after the other. -/
theorem disciplined_two_copies : ∃ r,
    (noted (Fin 2)).run (fun t a => Opens t.1 a) (atRest (Fin 2), [])
      [.beginFs true, .openFile 0 (some "/log".toList) "w+".toList 0, .copy 1 0,
        .use 0 (.write [7] 1), .drop 0, .use 1 (.peek 0 7 0), .close 1, .use 1 .flush] = some r ∧
    r.1.ledger = ⟨.acquire, 0⟩ :: (List.replicate 4 ⟨.use, 0⟩ ++ [⟨.release, 0⟩]) ∧
    Disciplined r := by
  have hrun : ((noted (Fin 2)).run (fun t a => Opens t.1 a) (atRest (Fin 2), [])
      [.beginFs true, .openFile 0 (some "/log".toList) "w+".toList 0, .copy 1 0,
        .use 0 (.write [7] 1), .drop 0, .use 1 (.peek 0 7 0), .close 1, .use 1 .flush]).map
      (fun r => r.1.ledger) =
      some (⟨.acquire, 0⟩ :: (List.replicate 4 ⟨.use, 0⟩ ++ [⟨.release, 0⟩])) := by
    decide +kernel
  obtain ⟨r, hr, hledger⟩ := Option.map_eq_some_iff.mp hrun
  have hreach := reachable_of_run (.init noted_init) hr
  exact ⟨r, hr, hledger, (disciplined_iff_opens (hreach.mono fun _ _ _ => trivial)).mpr hreach⟩

/-- A file that cannot be opened for reading is closed all the same. -/
theorem not_disciplined_of_reachable :
    ¬ ∀ r, (noted (Fin 2)).Reachable anyStep r → Disciplined r := by
  intro hall
  have hrun : ((noted (Fin 2)).run anyStep (atRest (Fin 2), [])
      [.beginFs true, .openFile 0 (some "/none".toList) "r".toList (-2)]).map
      (fun r => r.1.ledger) = some [⟨.release, 0⟩] := by
    decide +kernel
  obtain ⟨r, hr, hledger⟩ := Option.map_eq_some_iff.mp hrun
  have hlawful := (hall r (reachable_of_run (.init noted_init) hr)).lawful
  rw [hledger] at hlawful
  have hallows := hlawful [] _ [] rfl
  rw [Allows, if_neg Deed.noConfusion] at hallows
  exact absurd hallows.1 (by simp)

end Ch32h4.Fs.Handle
