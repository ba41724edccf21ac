import Ch32h4.Spiftl.Volume
import Ch32h4.Spiftl.Equiv.Accounts

/-!
# What collections and persists do to the data

Everything a volume does on its own account, collecting, rewriting aged metadata and persisting,
is a sequence of `Move`s: a change of tables that leaves `l2p` alone, an erase or a program of a
block in which no sector lives, and the copy of one sector to a free slot.  The modules that
follow cut each function into moves; what is proved here of one move (`Move.contents`,
`Move.calls`, `Move.open_live`) then holds of all of them (`Moves.contents`, `Moves.calls`).

The contents of the sectors are kept as long as every page that was handed to the driver reads
back; on a flash that works they all do, because they are programmed over erased cells.
-/

namespace Ch32h4.Spiftl

open Flash

/-! ### Calls of the driver -/

/-- The call did not fail to program. -/
def Entry.Fine (e : Entry) : Prop :=
  match e.op with
  | .erase _ => True
  | .program _ _ _ => e.ok = true

/-- The call neither erases a block in which a sector lives nor programs a slot in which one
lives, and of the block being filled it touches only the next slot. -/
def Entry.Safe (g : Dims) (e : Entry) : Prop :=
  match e.op with
  | .erase eb =>
    (∀ lba < g.flashLBAs, ∀ idx, e.ram.findLBA g lba ≠ some (eb, idx)) ∧ e.ram.openEB ≠ some eb
  | .program eb off data =>
    (∀ lba < g.flashLBAs, ∀ idx, e.ram.findLBA g lba = some (eb, idx) →
      off + data.length ≤ idx * lbaBytes ∨ (idx + 1) * lbaBytes ≤ off) ∧
    (e.ram.openEB = some eb → off = e.ram.openEBNextIndex * lbaBytes ∧ data.length = lbaBytes)

/-- The cells are erased. -/
def Blank (f : Cells) (eb off len : ℕ) : Prop := ∀ o, off ≤ o → o < off + len → f eb o = none

theorem Blank.mono {f : Cells} {eb off len off' len' : ℕ} (h : Blank f eb off len)
    (h₁ : off ≤ off') (h₂ : off' + len' ≤ off + len) : Blank f eb off' len' :=
  fun o ho ho' => h o (by omega) (by omega)

theorem Blank.congr {f f' : Cells} {eb off len : ℕ} (h : Blank f eb off len)
    (hf : ∀ o, off ≤ o → o < off + len → f' eb o = f eb o) : Blank f' eb off len :=
  fun o ho ho' => (hf o ho ho').trans (h o ho ho')

namespace Ftl

/-- A flash on which every call of the driver is carried out. -/
def Working (s : Ftl) : Prop := ∀ n, s.outcome n = .done

section

variable (g : Dims) (s : Ftl) (eb off : ℕ) (data : List UInt8)

@[simp] theorem eraseBlock_ram : (s.eraseBlock g eb).ram = s.ram := rfl

@[simp] theorem eraseBlock_outcome : (s.eraseBlock g eb).outcome = s.outcome := rfl

@[simp] theorem program_ram : (s.program g eb off data).ram = s.ram := rfl

@[simp] theorem program_outcome : (s.program g eb off data).outcome = s.outcome := rfl

variable {g s eb off data}

theorem eraseBlock_frame {e : ℕ} (h : e ≠ eb) (o : ℕ) :
    (s.eraseBlock g eb).flash e o = s.flash e o :=
  erase_frame _ _ _ h o

theorem program_frame {e o : ℕ} (h : ¬ InRange eb off data.length e o) :
    (s.program g eb off data).flash e o = s.flash e o :=
  Flash.program_frame _ _ _ _ _ h

theorem inRange_of_le {g : Dims} {len : ℕ} (heb : eb < g.eraseBlocks) (h : off + len ≤ g.ebBytes) :
    g.inRange eb off len = true := by
  rw [Dims.inRange, decide_eq_true_eq]
  calc eb * g.ebBytes + off + len ≤ (eb + 1) * g.ebBytes := by rw [Nat.add_mul]; omega
    _ ≤ g.eraseBlocks * g.ebBytes := Nat.mul_le_mul_right _ heb
    _ ≤ g.flashBytes := Nat.div_mul_le_self _ _

/-- On a flash that works a block that is erased is blank. -/
theorem blank_of_eraseBlock (hs : s.Working) (heb : eb < g.eraseBlocks) (off len : ℕ) :
    Blank (s.eraseBlock g eb).flash eb off len := by
  intro o _ _
  simp only [eraseBlock, next, inRange_of_le (g := g) heb (Nat.zero_add _).le, if_true, hs _,
    Flash.erase]

/-- A page that was programmed reads back. -/
theorem readBytes_of_program
    (h : ∀ e ∈ (s.program g eb off data).log, e.Fine) :
    readBytes (s.program g eb off data).flash eb off data.length = data :=
  program_ok (h _ List.mem_cons_self)

/-- On a flash that works pages programmed over erased cells are programmed. -/
theorem program_fine (hs : s.Working) (heb : eb < g.eraseBlocks)
    (hfit : off + data.length ≤ g.ebBytes) (hoff : off % flashWriteBufferSize = 0)
    (hlen : data.length % flashWriteBufferSize = 0) (hblank : Blank s.flash eb off data.length)
    (hlog : ∀ e ∈ s.log, e.Fine) : ∀ e ∈ (s.program g eb off data).log, e.Fine := by
  intro e he
  rcases List.mem_cons.mp he with rfl | he
  · have hin : (g.inRange eb off data.length && off % flashWriteBufferSize == 0 &&
        data.length % flashWriteBufferSize == 0) = true := by
      simp [inRange_of_le heb hfit, hoff, hlen]
    simp only [Entry.Fine, next, hin, if_true, hs _]
    exact programOk_done_erased hblank
  · exact hlog e he

end

/-! ### Copying pages -/

section

variable (g : Dims) (s : Ftl) (src srcOff dest destOff : ℕ)

@[simp] theorem copyPages_ram (n : ℕ) :
    (s.copyPages g src srcOff dest destOff n).ram = s.ram := by
  induction n with
  | zero => rfl
  | succ n ih => rw [copyPages, program_ram, ih]

@[simp] theorem copyPages_outcome (n : ℕ) :
    (s.copyPages g src srcOff dest destOff n).outcome = s.outcome := by
  induction n with
  | zero => rfl
  | succ n ih => rw [copyPages, program_outcome, ih]

variable {g s src srcOff dest destOff}

/-- Nothing moves outside the pages copied to. -/
theorem copyPages_frame {n e o : ℕ}
    (h : ¬ InRange dest destOff (n * flashWriteBufferSize) e o) :
    (s.copyPages g src srcOff dest destOff n).flash e o = s.flash e o := by
  induction n with
  | zero => rfl
  | succ n ih =>
    rw [copyPages, program_frame, ih]
    · exact fun hin => h ⟨hin.1, hin.2.1, by rw [Nat.add_mul]; have := hin.2.2; omega⟩
    · rw [readBytes_length]
      exact fun hin => h ⟨hin.1, (Nat.le_add_right _ _).trans hin.2.1, by
        rw [Nat.add_mul]; have := hin.2.2; omega⟩

/-- The calls are programs of the pages copied to, issued with the tables unchanged. -/
theorem copyPages_calls (g : Dims) (s : Ftl) (src srcOff dest destOff n : ℕ) :
    ∃ new, (s.copyPages g src srcOff dest destOff n).log = new ++ s.log ∧ ∀ e ∈ new,
      e.ram = s.ram ∧ ∃ k < n, ∃ data : List UInt8, data.length = flashWriteBufferSize ∧
        e.op = .program dest (destOff + k * flashWriteBufferSize) data := by
  induction n with
  | zero => exact ⟨[], rfl, by simp⟩
  | succ n ih =>
    obtain ⟨new, hlog, hnew⟩ := ih
    refine ⟨_ :: new, by rw [copyPages, program, hlog]; rfl, fun e he => ?_⟩
    rcases List.mem_cons.mp he with rfl | he
    · exact ⟨copyPages_ram _ _ _ _ _ _ _, n, by omega, _, readBytes_length _ _ _ _, rfl⟩
    · obtain ⟨hram, k, hk, data, hdata⟩ := hnew e he
      exact ⟨hram, k, by omega, data, hdata⟩

/-- Each call of a copy finds the blocks other than its target as they were. -/
theorem copyPages_entries (g : Dims) (s : Ftl) (src srcOff dest destOff n : ℕ) :
    ∃ new, (s.copyPages g src srcOff dest destOff n).log = new ++ s.log ∧
      new.length = n ∧ ∀ e ∈ new, ∀ b, b ≠ dest → ∀ o, e.flash b o = s.flash b o := by
  induction n with
  | zero => exact ⟨[], rfl, rfl, by simp⟩
  | succ n ih =>
    obtain ⟨new, hlog, hlen, hnew⟩ := ih
    refine ⟨_ :: new, by rw [copyPages, program, hlog]; rfl, by simp [hlen], fun e he b hb o => ?_⟩
    rcases List.mem_cons.mp he with rfl | he
    · exact copyPages_frame fun hin => hb hin.1
    · exact hnew e he b hb o

theorem log_of_copyPages {n : ℕ} {e : Entry} (he : e ∈ s.log) :
    e ∈ (s.copyPages g src srcOff dest destOff n).log := by
  obtain ⟨new, hlog, -⟩ := copyPages_calls g s src srcOff dest destOff n
  rw [hlog]
  exact List.mem_append_right _ he

/-- Pages that were copied read as the pages they were copied from. -/
theorem readBytes_copyPages {n : ℕ}
    (hdisj : src = dest → srcOff + n * flashWriteBufferSize ≤ destOff ∨
      destOff + n * flashWriteBufferSize ≤ srcOff)
    (h : ∀ e ∈ (s.copyPages g src srcOff dest destOff n).log, e.Fine) :
    readBytes (s.copyPages g src srcOff dest destOff n).flash dest destOff
        (n * flashWriteBufferSize) =
      readBytes s.flash src srcOff (n * flashWriteBufferSize) := by
  induction n with
  | zero => simp [readBytes]
  | succ n ih =>
    have hbefore := ih (fun hsd => by have := hdisj hsd; rw [Nat.add_mul] at this; omega)
      fun e he => h e (List.mem_cons_of_mem _ he)
    have hpage := readBytes_of_program h
    rw [readBytes_length] at hpage
    rw [Nat.add_mul, Nat.one_mul, readBytes_add, readBytes_add, copyPages]
    congr 1
    · rw [← hbefore]
      refine readBytes_congr fun o _ ho => program_frame fun hin => ?_
      have := hin.2.1
      omega
    · rw [hpage]
      refine readBytes_congr fun o ho ho' => copyPages_frame fun hin => ?_
      have := hdisj hin.1
      rw [Nat.add_mul] at this
      have := hin.2
      omega

/-- On a flash that works pages copied over erased cells are programmed. -/
theorem copyPages_fine {n : ℕ} (hs : s.Working) (hdest : dest < g.eraseBlocks)
    (hfit : destOff + n * flashWriteBufferSize ≤ g.ebBytes)
    (hoff : destOff % flashWriteBufferSize = 0)
    (hblank : Blank s.flash dest destOff (n * flashWriteBufferSize))
    (hlog : ∀ e ∈ s.log, e.Fine) :
    ∀ e ∈ (s.copyPages g src srcOff dest destOff n).log, e.Fine := by
  induction n with
  | zero => exact hlog
  | succ n ih =>
    rw [Nat.add_mul] at hfit hblank
    refine program_fine (by rwa [Working, copyPages_outcome]) hdest ?_ ?_ ?_ ?_
      (ih (by omega) (hblank.mono (by omega) (by omega)))
    · rw [readBytes_length]
      omega
    · rw [Nat.add_mul_mod_self_right, hoff]
    · rw [readBytes_length]
      exact Nat.mod_self _
    · rw [readBytes_length]
      refine (hblank.mono (by omega) (by omega)).congr fun o ho _ => copyPages_frame fun hin => ?_
      have := hin.2.2
      omega

end

/-- A sector is a whole number of pages. -/
theorem lbaBytes_pages : lbaBytes / flashWriteBufferSize * flashWriteBufferSize = lbaBytes := by
  decide

theorem contents_of_loc {g : Dims} {s : Ftl} {lba eb idx : ℕ}
    (h : s.ram.findLBA g lba = some (eb, idx)) :
    (Volume.contents g s lba).1 = readBytes s.flash eb (idx * lbaBytes) lbaBytes := by
  rw [Volume.contents, h]

/-! ### Moves -/

/-- A block that is empty or holds metadata, and in which no sector lives. -/
structure Idle (g : Dims) (r : Ram) (eb : ℕ) : Prop where
  lt : eb < g.eraseBlocks
  state : r.ebState eb = 0 ∨ r.ebState eb = ebMeta
  not_loc : ∀ lba < g.flashLBAs, ∀ idx, r.findLBA g lba ≠ some (eb, idx)

/-- The block being filled holds a live sector. -/
def OpenLive (g : Dims) (r : Ram) : Prop :=
  ∀ eb, r.openEB = some eb → eb < g.eraseBlocks ∧ r.ebState eb ≠ 0 ∧ r.ebState eb ≠ ebMeta

theorem Idle.not_open {g : Dims} {r : Ram} {eb : ℕ} (h : Idle g r eb) (hopen : OpenLive g r) :
    r.openEB ≠ some eb := fun heq =>
  h.state.elim (hopen eb heq).2.1 (hopen eb heq).2.2

/-- One move, which keeps away from the blocks of `K`. -/
inductive Move (g : Dims) (K : Set ℕ) : Ftl → Ftl → Prop where
  /-- The tables change, but not where the sectors are nor the block being filled. -/
  | tables (s : Ftl) (r : Ram) (hl2p : r.l2p = s.ram.l2p) (hopen : r.openEB = s.ram.openEB)
      (hnext : r.openEBNextIndex = s.ram.openEBNextIndex)
      (hstate : ∀ eb, r.ebState eb ≠ s.ram.ebState eb →
        s.ram.ebState eb = 0 ∨ s.ram.ebState eb = ebMeta) : Move g K s { s with ram := r }
  /-- A block is erased in which no sector lives. -/
  | erase (s : Ftl) (eb : ℕ) (hidle : Idle g s.ram eb) (hk : eb ∉ K) :
      Move g K s (s.eraseBlock g eb)
  /-- A page of such a block is programmed. -/
  | program (s : Ftl) (eb off : ℕ) (data : List UInt8) (hidle : Idle g s.ram eb)
      (hfit : off + data.length ≤ g.ebBytes) (hoff : off % flashWriteBufferSize = 0)
      (hlen : data.length % flashWriteBufferSize = 0)
      (hblank : s.Working → Blank s.flash eb off data.length) (hk : eb ∉ K) :
      Move g K s (s.program g eb off data)
  /-- A sector is copied to a free slot, and its entry follows it. -/
  | copy (s : Ftl) (lba src i dest idx : ℕ) (r : Ram) (hopen : s.ram.openEB = none)
      (hlba : lba < g.flashLBAs) (hsrc : s.ram.findLBA g lba = some (src, i))
      (hdest : dest < g.eraseBlocks) (hidx : idx < g.slotsPerEB)
      (hfree : ∀ lba' < g.flashLBAs, s.ram.findLBA g lba' ≠ some (dest, idx))
      (hblank : s.Working → Blank s.flash dest (lbaBytes * idx) lbaBytes)
      (hloc : r.findLBA g = Function.update (s.ram.findLBA g) lba (some (dest, idx)))
      (hr : r.openEB = none) (hnext : r.openEBNextIndex = s.ram.openEBNextIndex)
      (hk : dest ∉ K) :
      Move g K s { s.copyPages g src (lbaBytes * i) dest (lbaBytes * idx)
        (lbaBytes / flashWriteBufferSize) with ram := r }

/-- Any number of moves. -/
abbrev Moves (g : Dims) (K : Set ℕ) : Ftl → Ftl → Prop := Relation.ReflTransGen (Move g K)

namespace Move

variable {g : Geometry} {K : Set ℕ} {s s' : Ftl}

theorem outcome (h : Move g.toDims K s s') : s'.outcome = s.outcome := by
  cases h with
  | tables => rfl
  | erase => rfl
  | program => rfl
  | copy => exact copyPages_outcome _ _ _ _ _ _ _

theorem openEB (h : Move g.toDims K s s') :
    s'.ram.openEB = s.ram.openEB ∧ s'.ram.openEBNextIndex = s.ram.openEBNextIndex := by
  cases h with
  | tables r hl2p hopen hnext => exact ⟨hopen, hnext⟩
  | erase => exact ⟨rfl, rfl⟩
  | program => exact ⟨rfl, rfl⟩
  | copy lba src i dest idx r hopen _ _ _ _ _ _ _ hr hnext => exact ⟨hr.trans hopen.symm, hnext⟩

/-- A block that is being filled keeps its live sectors. -/
theorem open_live (h : Move g.toDims K s s') (hopen : OpenLive g.toDims s.ram) :
    OpenLive g.toDims s'.ram := by
  cases h with
  | tables r hl2p heq hnext hstate =>
    intro eb heb
    rw [heq] at heb
    obtain ⟨hlt, hzero, hmeta⟩ := hopen eb heb
    have hsame : r.ebState eb = s.ram.ebState eb := by
      by_contra hne
      exact (hstate eb hne).elim hzero hmeta
    exact ⟨hlt, by rwa [hsame], by rwa [hsame]⟩
  | erase => exact hopen
  | program => exact hopen
  | copy lba src i dest idx r ho _ _ _ _ _ _ _ hr => exact fun eb heb => by simp [hr] at heb

/-- While a block is being filled no sector moves, and the block stays as it is. -/
theorem open_frame (h : Move g.toDims K s s') (hopen : OpenLive g.toDims s.ram) {eb : ℕ}
    (heb : s.ram.openEB = some eb) :
    s'.ram.l2p = s.ram.l2p ∧ s'.ram.ebState eb = s.ram.ebState eb ∧
      ∀ o, s'.flash eb o = s.flash eb o := by
  cases h with
  | tables r hl2p heq hnext hstate =>
    refine ⟨hl2p, ?_, fun _ => rfl⟩
    obtain ⟨-, hzero, hmeta⟩ := hopen eb heb
    by_contra hne
    exact (hstate eb hne).elim hzero hmeta
  | erase e hidle =>
    refine ⟨rfl, rfl, fun o => eraseBlock_frame ?_ o⟩
    rintro rfl
    exact hidle.not_open hopen heb
  | program e off data hidle =>
    refine ⟨rfl, rfl, fun o => program_frame fun hin => ?_⟩
    exact hidle.not_open hopen (hin.1 ▸ heb)
  | copy lba src i dest idx r ho =>
    rw [ho] at heb
    cases heb

/-- The calls of a move are safe. -/
theorem calls (h : Move g.toDims K s s') (hopen : OpenLive g.toDims s.ram) :
    ∃ new, s'.log = new ++ s.log ∧ ∀ e ∈ new, e.Safe g.toDims := by
  cases h with
  | tables => exact ⟨[], rfl, by simp⟩
  | erase eb hidle =>
    refine ⟨[_], rfl, fun e he => ?_⟩
    obtain rfl := List.mem_singleton.mp he
    exact ⟨hidle.not_loc, hidle.not_open hopen⟩
  | program eb off data hidle =>
    refine ⟨[_], rfl, fun e he => ?_⟩
    obtain rfl := List.mem_singleton.mp he
    exact ⟨fun lba hlba idx hloc => absurd hloc (hidle.not_loc lba hlba idx),
      fun heq => absurd heq (hidle.not_open hopen)⟩
  | copy lba src i dest idx r ho _ _ _ _ hfree =>
    obtain ⟨new, hlog, hnew⟩ := copyPages_calls g.toDims s src (lbaBytes * i) dest (lbaBytes * idx)
      (lbaBytes / flashWriteBufferSize)
    refine ⟨new, hlog, fun e he => ?_⟩
    obtain ⟨hram, k, hk, data, hdata, hop⟩ := hnew e he
    simp only [Entry.Safe, hop, hram, ho, hdata]
    refine ⟨fun lba' hlba' j hloc => ?_, by simp⟩
    have hne : j ≠ idx := fun hj => hfree lba' hlba' (hj ▸ hloc)
    rw [lbaBytes, flashWriteBufferSize] at *
    omega

theorem log (h : Move g.toDims K s s') {e : Entry} (he : e ∈ s.log) : e ∈ s'.log := by
  cases h with
  | tables => exact he
  | erase => exact List.mem_cons_of_mem _ he
  | program => exact List.mem_cons_of_mem _ he
  | copy => exact log_of_copyPages he

theorem fine (h : Move g.toDims K s s') (hs : s.Working) (hlog : ∀ e ∈ s.log, e.Fine) :
    ∀ e ∈ s'.log, e.Fine := by
  cases h with
  | tables => exact hlog
  | erase eb =>
    intro e he
    rcases List.mem_cons.mp he with rfl | he
    · trivial
    · exact hlog e he
  | program eb off data hidle hfit hoff hlen hblank =>
    exact program_fine hs hidle.lt hfit hoff hlen (hblank hs) hlog
  | copy lba src i dest idx r _ _ _ hdest hidx _ hblank =>
    have hbytes := g.ebBytes_eq
    have hfit : lbaBytes * idx + lbaBytes ≤ g.ebBytes := by
      rw [hbytes, ← Nat.mul_succ]
      exact Nat.mul_le_mul_left _ hidx
    have hoff : lbaBytes * idx % flashWriteBufferSize = 0 := by
      rw [lbaBytes, flashWriteBufferSize]
      omega
    have hpages := hblank hs
    rw [← lbaBytes_pages] at hfit hpages
    exact copyPages_fine (n := lbaBytes / flashWriteBufferSize) hs hdest hfit hoff hpages hlog

/-- The blocks of `K` are not touched. -/
theorem untouched (h : Move g.toDims K s s') {b : ℕ} (hb : b ∈ K) :
    (∀ o, s'.flash b o = s.flash b o) ∧
      ∃ new, s'.log = new ++ s.log ∧ ∀ e ∈ new, ∀ o, e.flash b o = s.flash b o := by
  have away : ∀ {e : ℕ}, e ∉ K → b ≠ e := fun he heq => he (heq ▸ hb)
  cases h with
  | tables => exact ⟨fun _ => rfl, [], rfl, by simp⟩
  | erase eb hidle hk =>
    refine ⟨fun o => eraseBlock_frame (away hk) o, [_], rfl, fun e he o => ?_⟩
    obtain rfl := List.mem_singleton.mp he
    rfl
  | program eb off data hidle _ _ _ _ hk =>
    refine ⟨fun o => program_frame fun hin => away hk hin.1, [_], rfl, fun e he o => ?_⟩
    obtain rfl := List.mem_singleton.mp he
    rfl
  | copy lba src i dest idx r _ _ _ _ _ _ _ _ _ _ hk =>
    have hout : ∀ o, ¬ InRange dest (lbaBytes * idx)
        (lbaBytes / flashWriteBufferSize * flashWriteBufferSize) b o := fun o hin => away hk hin.1
    refine ⟨fun o => copyPages_frame (hout o), ?_⟩
    obtain ⟨new, hlog, -, hnew⟩ := copyPages_entries g.toDims s src (lbaBytes * i) dest
      (lbaBytes * idx) (lbaBytes / flashWriteBufferSize)
    exact ⟨new, hlog, fun e he o => hnew e he b (away hk) o⟩

/-- A sector keeps its contents when its slot keeps its cells. -/
theorem contents_congr {s s' : Ftl} {lba : ℕ}
    (hloc : s'.ram.findLBA g.toDims lba = s.ram.findLBA g.toDims lba)
    (hflash : ∀ eb idx, s.ram.findLBA g.toDims lba = some (eb, idx) → ∀ o, idx * lbaBytes ≤ o →
      o < idx * lbaBytes + lbaBytes → s'.flash eb o = s.flash eb o) :
    Volume.contents g.toDims s' lba = Volume.contents g.toDims s lba := by
  cases hx : s.ram.findLBA g.toDims lba with
  | none => rw [Volume.contents, Volume.contents, hloc, hx]
  | some x =>
    obtain ⟨eb, idx⟩ := x
    refine Subtype.ext ?_
    rw [contents_of_loc (hloc.trans hx), contents_of_loc hx]
    exact readBytes_congr fun o ho ho' => hflash eb idx hx o ho ho'

/-- **One move keeps the contents of every sector**, if the pages it programs read back. -/
theorem contents (h : Move g.toDims K s s') (hfine : ∀ e ∈ s'.log, e.Fine) {lba : ℕ}
    (hlba : lba < g.flashLBAs) :
    Volume.contents g.toDims s' lba = Volume.contents g.toDims s lba := by
  cases h with
  | tables r hl2p =>
    exact contents_congr (congrFun (Ram.findLBA_congr hl2p) lba) fun _ _ _ _ _ _ => rfl
  | erase eb hidle =>
    refine contents_congr rfl fun eb' idx hloc o _ _ => eraseBlock_frame ?_ o
    rintro rfl
    exact hidle.not_loc lba hlba idx hloc
  | program eb off data hidle =>
    refine contents_congr rfl fun eb' idx hloc o _ _ => program_frame fun hin => ?_
    exact hidle.not_loc lba hlba idx (hin.1 ▸ hloc)
  | copy lba' src i dest idx r _ hlba' hsrc _ _ hfree _ hloc =>
    rcases eq_or_ne lba lba' with rfl | hne
    · -- the sector that moved
      have hdisj : src = dest → lbaBytes * i + lbaBytes / flashWriteBufferSize *
            flashWriteBufferSize ≤ lbaBytes * idx ∨
          lbaBytes * idx + lbaBytes / flashWriteBufferSize * flashWriteBufferSize ≤
            lbaBytes * i := by
        rintro rfl
        have hi : i ≠ idx := fun hi => hfree lba hlba (hi ▸ hsrc)
        rw [lbaBytes_pages, lbaBytes]
        omega
      have hcopy := readBytes_copyPages (n := lbaBytes / flashWriteBufferSize) hdisj hfine
      have hnew : r.findLBA g.toDims lba = some (dest, idx) := by rw [hloc, Function.update_self]
      rw [lbaBytes_pages] at hcopy
      refine Subtype.ext ?_
      rw [contents_of_loc hsrc, contents_of_loc hnew, Nat.mul_comm idx, Nat.mul_comm i, ← hcopy]
    · refine contents_congr (by rw [hloc, Function.update_of_ne hne]) fun eb j hj o ho ho' => ?_
      have hout : ¬ InRange dest (lbaBytes * idx)
          (lbaBytes / flashWriteBufferSize * flashWriteBufferSize) eb o := by
        rw [lbaBytes_pages]
        rintro ⟨rfl, hlo, hhi⟩
        have hj' : j ≠ idx := fun h => hfree lba hlba (h ▸ hj)
        rw [lbaBytes] at *
        omega
      exact copyPages_frame hout

end Move

namespace Moves

variable {g : Geometry} {K : Set ℕ} {s s' : Ftl}

theorem outcome (h : Moves g.toDims K s s') : s'.outcome = s.outcome := by
  induction h with
  | refl => rfl
  | tail _ hmove ih => exact hmove.outcome.trans ih

theorem mono {K' : Set ℕ} (h : Moves g.toDims K s s') (hK : K' ⊆ K) : Moves g.toDims K' s s' := by
  induction h with
  | refl => exact .refl
  | tail _ hmove ih =>
    refine .tail ih ?_
    cases hmove with
    | tables r h₁ h₂ h₃ h₄ => exact .tables _ r h₁ h₂ h₃ h₄
    | erase eb h₁ hk => exact .erase _ eb h₁ fun hb => hk (hK hb)
    | program eb off data h₁ h₂ h₃ h₄ h₅ hk =>
      exact .program _ eb off data h₁ h₂ h₃ h₄ h₅ fun hb => hk (hK hb)
    | copy lba src i dest idx r h₁ h₂ h₃ h₄ h₅ h₆ h₇ h₈ h₉ h₁₀ hk =>
      exact .copy _ lba src i dest idx r h₁ h₂ h₃ h₄ h₅ h₆ h₇ h₈ h₉ h₁₀ fun hb => hk (hK hb)

/-- The blocks of `K` are not touched. -/
theorem untouched (h : Moves g.toDims K s s') {b : ℕ} (hb : b ∈ K) :
    (∀ o, s'.flash b o = s.flash b o) ∧
      ∃ new, s'.log = new ++ s.log ∧ ∀ e ∈ new, ∀ o, e.flash b o = s.flash b o := by
  induction h with
  | refl => exact ⟨fun _ => rfl, [], rfl, by simp⟩
  | tail _ hmove ih =>
    obtain ⟨hflash, new, hlog, hnew⟩ := ih
    obtain ⟨hflash', new', hlog', hnew'⟩ := hmove.untouched hb
    refine ⟨fun o => (hflash' o).trans (hflash o), new' ++ new,
      by rw [hlog', hlog, List.append_assoc], fun e he o => ?_⟩
    rcases List.mem_append.mp he with he | he
    · exact (hnew' e he o).trans (hflash o)
    · exact hnew e he o

theorem working (h : Moves g.toDims K s s') (hs : s.Working) : s'.Working := by
  rwa [Working, h.outcome]

theorem openEB (h : Moves g.toDims K s s') :
    s'.ram.openEB = s.ram.openEB ∧ s'.ram.openEBNextIndex = s.ram.openEBNextIndex := by
  induction h with
  | refl => exact ⟨rfl, rfl⟩
  | tail _ hmove ih => exact ⟨hmove.openEB.1.trans ih.1, hmove.openEB.2.trans ih.2⟩

theorem open_live (h : Moves g.toDims K s s') (hopen : OpenLive g.toDims s.ram) :
    OpenLive g.toDims s'.ram := by
  induction h with
  | refl => exact hopen
  | tail _ hmove ih => exact hmove.open_live ih

/-- While a block is being filled no sector moves, and the block stays as it is. -/
theorem open_frame (h : Moves g.toDims K s s') (hopen : OpenLive g.toDims s.ram) {eb : ℕ}
    (heb : s.ram.openEB = some eb) :
    s'.ram.l2p = s.ram.l2p ∧ s'.ram.ebState eb = s.ram.ebState eb ∧
      ∀ o, s'.flash eb o = s.flash eb o := by
  induction h with
  | refl => exact ⟨rfl, rfl, fun _ => rfl⟩
  | tail hmoves hmove ih =>
    obtain ⟨hl2p, hstate, hflash⟩ := ih
    obtain ⟨hl2p', hstate', hflash'⟩ := hmove.open_frame (Moves.open_live hmoves hopen)
      ((Moves.openEB hmoves).1.trans heb)
    exact ⟨hl2p'.trans hl2p, hstate'.trans hstate, fun o => (hflash' o).trans (hflash o)⟩

theorem log (h : Moves g.toDims K s s') {e : Entry} (he : e ∈ s.log) : e ∈ s'.log := by
  induction h with
  | refl => exact he
  | tail _ hmove ih => exact hmove.log ih

/-- The calls of any number of moves are safe. -/
theorem calls (h : Moves g.toDims K s s') (hopen : OpenLive g.toDims s.ram) :
    ∃ new, s'.log = new ++ s.log ∧ ∀ e ∈ new, e.Safe g.toDims := by
  induction h with
  | refl => exact ⟨[], rfl, by simp⟩
  | tail hmoves hmove ih =>
    obtain ⟨new, hlog, hnew⟩ := ih
    obtain ⟨new', hlog', hnew'⟩ := hmove.calls (Moves.open_live hmoves hopen)
    refine ⟨new' ++ new, by rw [hlog', hlog, List.append_assoc], fun e he => ?_⟩
    exact (List.mem_append.mp he).elim (hnew' e) (hnew e)

/-- On a flash that works every page is programmed. -/
theorem fine (h : Moves g.toDims K s s') (hs : s.Working) (hlog : ∀ e ∈ s.log, e.Fine) :
    ∀ e ∈ s'.log, e.Fine := by
  induction h with
  | refl => exact hlog
  | tail hmoves hmove ih => exact hmove.fine (Moves.working hmoves hs) ih

/-- **Moves keep the contents of every sector**, if the pages they program read back. -/
theorem contents (h : Moves g.toDims K s s') (hfine : ∀ e ∈ s'.log, e.Fine) {lba : ℕ}
    (hlba : lba < g.flashLBAs) :
    Volume.contents g.toDims s' lba = Volume.contents g.toDims s lba := by
  induction h with
  | refl => rfl
  | tail _ hmove ih =>
    exact (hmove.contents hfine hlba).trans (ih fun e he => hfine e (hmove.log he))

end Moves

end Ftl

end Ch32h4.Spiftl
