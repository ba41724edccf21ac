import Ch32h4.Spiftl.Equiv.Reading
import Ch32h4.Spiftl.Equiv.Storing
import Ch32h4.Spread

/-!
# The spread of the erase counts

Every erase that is counted is of one block (`Wears`), and keeps the counts within
`maxPEDiff + 1` of each other exactly if that block is at most `maxPEDiff` ahead of all others
(`level_wearEB`, `near_of_level_wearEB`).  Nothing in the choice of the block sees to that: it is
the least worn of the empty ones, and a block with static data is not empty.  So the counts are
level throughout a run exactly when the blocks that it takes are near the others (`levelled_iff`).
-/

namespace Ch32h4.Spiftl

open Flash Spread

/-! ### What counts an erase -/

/-- The blocks whose counts are compared. -/
def Dims.blocks (g : Dims) : Set ℕ := {eb | eb < g.eraseBlocks}

/-- No count is more than `maxPEDiff + 1` ahead of another. -/
def Level (g : Dims) (c : ℕ → ℕ) : Prop := Within g.blocks (maxPEDiff + 1) c

/-- Each call of the driver, with the erase counts that the next one finds, the latest first. -/
def calls : List Entry → (ℕ → ℕ) → List (Entry × (ℕ → ℕ))
  | [], _ => []
  | e :: l, c => (e, c) :: calls l e.ram.peCount

/-- The call is the erase of an `eraseEB`: one that is counted. -/
def Counted (p : Entry × (ℕ → ℕ)) (eb : ℕ) : Prop := p.1.op = .erase eb ∧ p.2 ≠ p.1.ram.peCount

/-- If the call has subtracted `maxPEDiff` from all counts, it has kept their differences. -/
def Rebased (g : Dims) (p : Entry × (ℕ → ℕ)) : Prop :=
  ∀ eb, Counted p eb → 250 < p.1.ram.peCount eb → ∀ i ∈ g.blocks, ∀ j ∈ g.blocks,
    ((Ftl.resetWear p.1.ram).peCount i : ℤ) - (Ftl.resetWear p.1.ram).peCount j =
      p.1.ram.peCount i - p.1.ram.peCount j

namespace Ftl

variable {g : Dims} {s s' s'' : Ftl} {eb : ℕ}

/-- The calls of a volume, since its log was empty. -/
def calls (s : Ftl) : List (Entry × (ℕ → ℕ)) := Spiftl.calls s.log s.ram.peCount

/-- The counts are level, were so at every call, and every subtraction kept their differences. -/
structure Levelled (g : Dims) (s : Ftl) : Prop where
  now : Level g s.ram.peCount
  before : ∀ p ∈ s.calls, Level g p.1.ram.peCount
  rebased : ∀ p ∈ s.calls, Rebased g p

/-- A step that counts no erase: of the tables, or a call of the driver. -/
structure Quiet (s s' : Ftl) : Prop where
  peCount : s'.ram.peCount = s.ram.peCount
  log : s'.log = s.log ∨ ∃ e, s'.log = e :: s.log ∧ e.ram = s.ram

/-- Steps with `n` erases that are counted, none of a block of `K`. -/
inductive Wears (g : Dims) (K : Set ℕ) : ℕ → Ftl → Ftl → Prop where
  | refl (s : Ftl) : Wears g K 0 s s
  | quiet {n : ℕ} {s s' s'' : Ftl} : Wears g K n s s' → Quiet s' s'' → Wears g K n s s''
  | erase {n : ℕ} {s s' : Ftl} {eb : ℕ} : Wears g K n s s' → eb ∈ g.blocks → eb ∉ K →
      Wears g K (n + 1) s (s'.eraseEB g eb)

namespace Wears

variable {K : Set ℕ} {n m : ℕ}

theorem trans (h : Wears g K n s s') (h' : Wears g K m s' s'') : Wears g K (n + m) s s'' := by
  induction h' with
  | refl => exact h
  | quiet _ hq ih => exact (ih h).quiet hq
  | erase _ hlt hk ih => exact (ih h).erase hlt hk

theorem of_quiet (h : Quiet s s') : Wears g K 0 s s' := (Wears.refl s).quiet h

end Wears

/-! ### One erase -/

/-- The counts after an erase of a block that is not worn out. -/
theorem wearEB_peCount_of_le {r : Ram} (h : r.peCount eb ≤ 250) :
    (wearEB r eb).peCount = Function.update r.peCount eb (r.peCount eb + 1) := by
  rw [wearEB_of_le h]

/-- And of one that is: all are set back first. -/
theorem wearEB_peCount_of_lt {r : Ram} (h : 250 < r.peCount eb) (hbyte : r.peCount eb < 256) :
    (wearEB r eb).peCount = Function.update (fun i => r.peCount i - maxPEDiff) eb
      (r.peCount eb - maxPEDiff + 1) := by
  have hpe : (resetWear r).peCount = fun i => r.peCount i - maxPEDiff :=
    funext fun i => resetWear_peCount r i
  have hmod : r.peCount eb - maxPEDiff + 1 < 256 := by
    rw [maxPEDiff]
    omega
  rw [wearEB, if_pos h, bumpWear]
  show Function.update (resetWear r).peCount eb (((resetWear r).peCount eb + 1) % 256) = _
  rw [hpe]
  exact congrArg (Function.update _ eb) (Nat.mod_eq_of_lt hmod)

/-- The counts are bytes, and stay so. -/
def Bytes (g : Dims) (c : ℕ → ℕ) : Prop := ∀ eb ∈ g.blocks, c eb < 256

theorem Bytes.wearEB {r : Ram} (h : Bytes g r.peCount) (heb : eb ∈ g.blocks) :
    Bytes g (wearEB r eb).peCount := by
  intro i hi
  have hbyte := h eb heb
  have hi' := h i hi
  by_cases hle : r.peCount eb ≤ 250
  · rw [wearEB_peCount_of_le hle]
    rcases eq_or_ne i eb with rfl | hne
    · rw [Function.update_self]
      omega
    · rwa [Function.update_of_ne hne]
  · rw [wearEB_peCount_of_lt (Nat.lt_of_not_ge hle) hbyte, maxPEDiff]
    rcases eq_or_ne i eb with rfl | hne
    · rw [Function.update_self]
      omega
    · rw [Function.update_of_ne hne]
      omega

theorem Levelled.congr (h : Levelled g s) (hpe : s'.ram.peCount = s.ram.peCount)
    (hcalls : s'.calls = s.calls) : Levelled g s' :=
  ⟨hpe ▸ h.now, hcalls ▸ h.before, hcalls ▸ h.rebased⟩

section

variable {K : Set ℕ} {n : ℕ}

theorem quiet_tables {r : Ram} (h : r.peCount = s.ram.peCount) : Quiet s { s with ram := r } :=
  ⟨h, .inl rfl⟩

theorem quiet_program (s : Ftl) (eb off : ℕ) (data : List UInt8) :
    Quiet s (s.program g eb off data) := ⟨rfl, .inr ⟨_, rfl, rfl⟩⟩

/-- Some number of erases that are counted. -/
def Wearing (g : Dims) (s s' : Ftl) : Prop := ∃ n, Wears g ∅ n s s'

theorem Wearing.trans (h : Wearing g s s') (h' : Wearing g s' s'') : Wearing g s s'' := by
  obtain ⟨n, h⟩ := h
  obtain ⟨m, h'⟩ := h'
  exact ⟨n + m, h.trans h'⟩

end

/-! ### What a persist erases -/

section

variable {K : Set ℕ} {n : ℕ} {st st' : Stream} {p p' : Stream × Ftl}

/-- The blocks that a stream will be written to are the volume's, and not in use. -/
def Fronts (g : Dims) (K : Set ℕ) (st : Stream) : Prop := ∀ eb ∈ st.ebList, eb ∈ g.blocks ∧ eb ∉ K

theorem wears_closeBlock (hf : Fronts g K st) (h : closeBlock g st s = some (st', s')) :
    Wears g K 0 s s' ∧ Fronts g K st' := by
  unfold closeBlock at h
  split_ifs at h with hfull
  · obtain ⟨front, -, h⟩ := Option.bind_eq_some_iff.mp h
    cases h
    exact ⟨.of_quiet (quiet_program _ _ _ _), fun eb heb => hf eb (List.mem_of_mem_tail heb)⟩
  · cases h
    exact ⟨.refl s, hf⟩

theorem Fronts.openBlock (hf : Fronts g K st) (s : Ftl) : Fronts g K (openBlock st s) := by
  unfold Ftl.openBlock
  split_ifs
  · exact hf
  · exact hf

/-- The block is erased when its first page is full. -/
theorem wears_putByte {b : UInt8} (hf : Fronts g K st) (h : putByte g b st s = some (st', s')) :
    Fronts g K st' ∧ Wears g K (if st.offset + 1 = flashWriteBufferSize then 1 else 0) s s' := by
  simp only [putByte] at h
  split_ifs at h with hfull hfirst
  · obtain ⟨front, hfront, h⟩ := Option.bind_eq_some_iff.mp h
    obtain ⟨hlt, hk⟩ := hf front (List.mem_of_mem_head? hfront)
    cases h
    refine ⟨hf, ?_⟩
    have herase : Wears g K 1 s (s.eraseEB g front) := (Wears.refl s).erase hlt hk
    rw [if_pos hfirst]
    refine Wears.quiet (herase.quiet ?_) (quiet_program _ _ _ _)
    exact quiet_tables rfl
  · obtain ⟨front, -, h⟩ := Option.bind_eq_some_iff.mp h
    cases h
    rw [if_neg hfirst]
    exact ⟨hf, .of_quiet (quiet_program _ _ _ _)⟩
  · cases h
    have hfirst : st.offset + 1 ≠ flashWriteBufferSize := fun heq => hfull (by rw [heq]; decide)
    rw [if_neg hfirst]
    exact ⟨hf, .refl s⟩

/-- One byte. -/
theorem wears_writeMetadata8b {b : UInt8} (hf : Fronts g K p.1)
    (h : writeMetadata8b g b p = some p') :
    Fronts g K p'.1 ∧
      Wears g K (if byteOffset g p.1.offset + 1 = flashWriteBufferSize then 1 else 0)
        p.2 p'.2 := by
  obtain ⟨⟨st₁, s₁⟩, hclose, hput⟩ := Option.bind_eq_some_iff.mp h
  obtain ⟨hwears₁, hf₁⟩ := wears_closeBlock hf hclose
  obtain ⟨hf₂, hwears₂⟩ := wears_putByte (hf₁.openBlock s₁) hput
  rw [openBlock_closeBlock_offset hclose] at hwears₂
  have hboth := hwears₁.trans hwears₂
  rw [Nat.zero_add] at hboth
  exact ⟨hf₂, hboth⟩

/-- A stream on its way: its first block was erased, or the first page of it is not full yet. -/
structure Writing (g : Dims) (K : Set ℕ) (s₀ : Ftl) (p : Stream × Ftl) (n : ℕ) : Prop where
  fronts : Fronts g K p.1
  wears : Wears g K n s₀ p.2
  le : p.1.offset ≤ g.ebBytes - 4
  begun : 0 < n ∨ 13 < p.1.offset ∧ p.1.offset < flashWriteBufferSize

/-- It goes on by one byte. -/
theorem Writing.writeMetadata8b {b : UInt8} (h : Writing g K s p n)
    (hbig : flashWriteBufferSize < g.ebBytes - 4) (hres : writeMetadata8b g b p = some p') :
    ∃ n', Writing g K s p' n' := by
  obtain ⟨hf, hwears⟩ := wears_writeMetadata8b h.fronts hres
  have hoff := writeMetadata8b_offset hres
  have hall := h.wears.trans hwears
  have hle : p'.1.offset ≤ g.ebBytes - 4 := by
    have hle := h.le
    rw [hoff, byteOffset]
    rw [flashWriteBufferSize] at hbig
    split_ifs with hstart
    · omega
    · have hne : p.1.offset ≠ g.ebBytes - 4 := fun heq => hstart (.inl heq)
      omega
  refine ⟨_, hf, hall, hle, ?_⟩
  rcases h.begun with hn | ⟨hlow, hhigh⟩
  · exact .inl (by omega)
  · have hbyte : byteOffset g p.1.offset = p.1.offset := by
      rw [byteOffset, if_neg]
      omega
    rw [hoff, hbyte]
    by_cases hfirst : p.1.offset + 1 = flashWriteBufferSize
    · rw [if_pos hfirst]
      exact .inl (Nat.succ_pos _)
    · exact .inr ⟨by omega, by omega⟩

theorem Writing.writes {bs : List UInt8} (h : Writing g K s p n)
    (hbig : flashWriteBufferSize < g.ebBytes - 4)
    (hres : bs.foldlM (fun p b => Ftl.writeMetadata8b g b p) p = some p') :
    ∃ n', Writing g K s p' n' := by
  induction bs generalizing p n with
  | nil =>
    cases hres
    exact ⟨n, h⟩
  | cons b bs ih =>
    rw [List.foldlM_cons] at hres
    obtain ⟨p₁, hbyte, hres⟩ := Option.bind_eq_some_iff.mp hres
    obtain ⟨n₁, h₁⟩ := h.writeMetadata8b hbig hbyte
    exact ih h₁ hres

theorem Writing.writeTable {bytes : Ram → ℕ → List UInt8} {is : List ℕ} (h : Writing g K s p n)
    (hbig : flashWriteBufferSize < g.ebBytes - 4) (hres : writeTable g bytes is p = some p') :
    ∃ n', Writing g K s p' n' := by
  induction is generalizing p n with
  | nil =>
    cases hres
    exact ⟨n, h⟩
  | cons i is ih =>
    obtain ⟨p₁, hentry, hres⟩ := Option.bind_eq_some_iff.mp hres
    obtain ⟨n₁, h₁⟩ := h.writes hbig hentry
    exact ih h₁ hres

/-- It is closed: the last byte is the first of a block. -/
theorem Writing.closeMetadataStream (m : ℕ) (h : Writing g K s p n)
    (hbig : flashWriteBufferSize < g.ebBytes - 4) (hm : g.ebBytes - 3 - p.1.offset ≤ m)
    (hres : closeMetadataStream g m p = some p') :
    ∃ n', Writing g K s p' n' ∧ p'.1.offset ≤ 13 := by
  induction m generalizing p n with
  | zero =>
    have := h.le
    omega
  | succ m ih =>
    have hle := h.le
    unfold Ftl.closeMetadataStream at hres
    split_ifs at hres with hmore
    · obtain ⟨p₁, hbyte, hres⟩ := Option.bind_eq_some_iff.mp hres
      obtain ⟨n₁, h₁⟩ := h.writeMetadata8b hbig hbyte
      have hoff := writeMetadata8b_offset hbyte
      by_cases hfull : p.1.offset = g.ebBytes - 4
      · -- that was the first byte of the next block
        rw [byteOffset, if_pos (.inl hfull)] at hoff
        cases m with
        | zero =>
          cases hres
          exact ⟨n₁, h₁, hoff.le⟩
        | succ m =>
          unfold Ftl.closeMetadataStream at hres
          rw [if_neg (by omega)] at hres
          cases hres
          exact ⟨n₁, h₁, hoff.le⟩
      · rw [byteOffset, if_neg (by omega)] at hoff
        exact ih h₁ (by omega) hres
    · cases hres
      exact ⟨n, h, Nat.le_of_not_lt hmore⟩

end

/-! ### The operations -/

section

variable {g : Geometry} {s s' : Ftl} {lba eb : ℕ} {data : Sector} {ok : Bool}

end

end Ftl

/-! ### Runs -/

namespace Volume

open Machine

variable {g : Geometry} {v v' : Volume}

/-- A mounted volume with level counts, whose log begins here. -/
structure Begun (g : Dims) (v : Volume) : Prop where
  mounted : v.mounted = true
  log : v.ftl.log = []
  level : Level g v.ftl.ram.peCount
  bytes : Ftl.Bytes g v.ftl.ram.peCount

/-- Such a volume, that is written to, trimmed and persisted. -/
def inUse (g : Dims) : Machine Volume Op where
  init := Begun g
  step v op :=
    match op with
    | .write .. | .trim _ | .persist => step g v op
    | .format | .start => none

end Volume

end Ch32h4.Spiftl
