import Ch32h4.Spiftl.Equiv.Accounts
import Ch32h4.Spiftl.Loader

/-!
# What a load does

A reader is specified by the bytes that are still to come, `rest`: each byte it returns is the
first of them, and it fails exactly when there is none left (`readMetadata8b_cons`,
`readMetadata8b_nil`).  The blocks of an epoch are therefore read as one list of bytes,
`streamOf`, and what the load makes of them is a function of that list: `verdict` says whether it
is taken, turned down, or too short to be either, and `Loaded` which tables a copy that is taken
leaves (`loadCopy_spec`).
-/

namespace Ch32h4.Spiftl

open Flash

namespace Loader

/-- The part of the stream that a block holds. -/
def payload (g : Dims) (f : Cells) (eb : ℕ) : List UInt8 := readBytes f eb 12 (g.ebBytes - 16)

/-- The stream that a list of blocks holds. -/
def streamOf (g : Dims) (f : Cells) (ebs : List ℕ) : List UInt8 := ebs.flatMap (payload g f)

/-- The bytes that are still to come. -/
def rest (g : Dims) (f : Cells) (rd : Reader) : List UInt8 :=
  match rd.ebList with
  | [] => []
  | eb :: l =>
    readBytes f eb (max rd.offset 12) (g.ebBytes - 4 - max rd.offset 12) ++ streamOf g f l

/-- A reader with an open block. -/
structure ReaderOk (g : Dims) (rd : Reader) : Prop where
  ne_nil : rd.ebList ≠ []
  le : rd.offset ≤ g.ebBytes - 4

variable {g : Geometry} {f : Cells} {rd : Reader}

theorem ebBytes_large (g : Geometry) : 4096 ≤ g.ebBytes := by
  have h := g.eight_le
  have hbytes := g.ebBytes_eq
  rw [lbaBytes] at hbytes
  omega

/-- A block that is not used up gives its next byte. -/
theorem fetch (eb : ℕ) (l : List ℕ) {offset : ℕ} (h : offset < g.ebBytes - 4) :
    rest g.toDims f ⟨eb :: l, offset⟩ =
        readByte f eb (max offset 12) :: rest g.toDims f ⟨eb :: l, max offset 12 + 1⟩ ∧
      ReaderOk g.toDims ⟨eb :: l, max offset 12 + 1⟩ := by
  have hbig := ebBytes_large g
  have hlen : g.ebBytes - 4 - max offset 12 = (g.ebBytes - 4 - (max offset 12 + 1)) + 1 := by omega
  have hmax : max (max offset 12 + 1) 12 = max offset 12 + 1 := by omega
  refine ⟨?_, ⟨List.cons_ne_nil _ _, ?_⟩⟩
  · simp only [rest, hmax]
    rw [hlen, readBytes_succ, List.cons_append]
  · simp only
    omega

/-- A reader that has used up its block goes on with the next. -/
theorem rest_of_full {eb : ℕ} {l : List ℕ} {offset : ℕ} (h : g.ebBytes - 4 ≤ offset) :
    rest g.toDims f ⟨eb :: l, offset⟩ = streamOf g.toDims f l := by
  have hzero : g.ebBytes - 4 - max offset 12 = 0 := by omega
  simp only [rest, hzero]
  rfl

theorem rest_cons_zero (eb : ℕ) (l : List ℕ) :
    rest g.toDims f ⟨eb :: l, 0⟩ = streamOf g.toDims f (eb :: l) := by
  rw [streamOf, List.flatMap_cons, payload, rest]
  simp only [Nat.zero_max, streamOf]
  rw [Nat.sub_sub]

theorem readMetadata8b_nil (h : ReaderOk g.toDims rd) (hr : rest g.toDims f rd = []) :
    readMetadata8b g.toDims f rd = .error .frontOfEmpty := by
  obtain ⟨ebs, offset⟩ := rd
  obtain ⟨eb, l, rfl⟩ := List.exists_cons_of_ne_nil h.ne_nil
  rcases le_or_gt (g.ebBytes - 4) offset with hfull | hroom
  · rw [rest_of_full hfull] at hr
    obtain rfl : l = [] := by
      cases l with
      | nil => rfl
      | cons eb' l' =>
        have hbig := ebBytes_large g
        rw [← rest_cons_zero, (fetch _ _ (by omega)).1] at hr
        cases hr
    rw [readMetadata8b, if_pos hfull]
    rfl
  · rw [(fetch _ _ hroom).1] at hr
    cases hr

theorem readMetadata8b_cons (h : ReaderOk g.toDims rd) {b : UInt8} {bs : List UInt8}
    (hr : rest g.toDims f rd = b :: bs) :
    ∃ rd', readMetadata8b g.toDims f rd = .ok (b, rd') ∧ ReaderOk g.toDims rd' ∧
      rest g.toDims f rd' = bs := by
  have hbig := ebBytes_large g
  have hoff : ∀ n, (if n < 12 then 12 else n) = max n 12 := fun n => by split_ifs <;> omega
  obtain ⟨ebs, offset⟩ := rd
  obtain ⟨eb, l, rfl⟩ := List.exists_cons_of_ne_nil h.ne_nil
  rcases le_or_gt (g.ebBytes - 4) offset with hfull | hroom
  · rw [rest_of_full hfull] at hr
    cases l with
    | nil => cases hr
    | cons eb' l' =>
      have hzero : 0 < g.ebBytes - 4 := by omega
      obtain ⟨hrest, hok⟩ := fetch (f := f) eb' l' hzero
      rw [← rest_cons_zero, hrest, List.cons.injEq] at hr
      refine ⟨_, ?_, hok, hr.2⟩
      rw [readMetadata8b, if_pos hfull, ← hr.1, ← hoff]
      rfl
  · obtain ⟨hrest, hok⟩ := fetch (f := f) eb l hroom
    rw [hrest, List.cons.injEq] at hr
    refine ⟨_, ?_, hok, hr.2⟩
    rw [readMetadata8b, if_neg (not_le.mpr hroom), ← hr.1, ← hoff]
    rfl

theorem readMetadata_ok {n : ℕ} (h : ReaderOk g.toDims rd)
    (hn : n ≤ (rest g.toDims f rd).length) :
    ∃ rd', readMetadata g.toDims f n rd = .ok ((rest g.toDims f rd).take n, rd') ∧
      ReaderOk g.toDims rd' ∧ rest g.toDims f rd' = (rest g.toDims f rd).drop n := by
  induction n generalizing rd with
  | zero => exact ⟨rd, by rw [readMetadata, List.take_zero], h, rfl⟩
  | succ n ih =>
    rcases hr : rest g.toDims f rd with _ | ⟨b, bs⟩
    · rw [hr] at hn
      cases hn
    · rw [hr] at hn
      obtain ⟨rd₁, hbyte, hok₁, hrest₁⟩ := readMetadata8b_cons h hr
      obtain ⟨rd₂, hmore, hok₂, hrest₂⟩ := ih hok₁ (hrest₁ ▸ Nat.le_of_succ_le_succ hn)
      refine ⟨rd₂, ?_, hok₂, by rw [hrest₂, hrest₁]; rfl⟩
      rw [hrest₁] at hmore
      simp only [readMetadata, hbyte, hmore, bind, Except.bind, List.take_succ_cons]

theorem readMetadata_error {n : ℕ} (h : ReaderOk g.toDims rd)
    (hn : (rest g.toDims f rd).length < n) :
    readMetadata g.toDims f n rd = .error .frontOfEmpty := by
  induction n generalizing rd with
  | zero => cases hn
  | succ n ih =>
    rcases hr : rest g.toDims f rd with _ | ⟨b, bs⟩
    · simp only [readMetadata, readMetadata8b_nil h hr, bind, Except.bind]
    · rw [hr] at hn
      obtain ⟨rd₁, hbyte, hok₁, hrest₁⟩ := readMetadata8b_cons h hr
      have hmore := ih hok₁ (hrest₁ ▸ Nat.lt_of_succ_lt_succ hn)
      simp only [readMetadata, hbyte, hmore, bind, Except.bind]

/-! ### The tables -/

/-- The value of a byte of a list; a byte past its end counts as zero. -/
def byteAt (bs : List UInt8) (i : ℕ) : ℕ := (bs.getD i 0).toNat

theorem byteAt_lt (bs : List UInt8) (i : ℕ) : byteAt bs i < 256 := UInt8.toNat_lt _

theorem byteAt_zero_cons (b : UInt8) (bs : List UInt8) : byteAt (b :: bs) 0 = b.toNat := rfl

theorem byteAt_succ_cons (b : UInt8) (bs : List UInt8) (i : ℕ) :
    byteAt (b :: bs) (i + 1) = byteAt bs i := rfl

theorem byteAt_drop (bs : List UInt8) (k i : ℕ) : byteAt (bs.drop k) i = byteAt bs (k + i) := by
  simp [byteAt, List.getD_eq_getElem?_getD]

/-- The erase counts from `k` to `k + n` are the bytes `bs`, and the maximum covers them. -/
structure PELoaded (bs : List UInt8) (k n : ℕ) (r r' : Ram) : Prop where
  eq : ∃ pe highest, r' = { r with peCount := pe, highestPECount := highest }
  value : ∀ i < n, r'.peCount (k + i) = byteAt bs i
  below : ∀ i < k, r'.peCount i = r.peCount i
  mono : r.highestPECount ≤ r'.highestPECount
  le : ∀ i < n, (byteAt bs i : ℤ) ≤ r'.highestPECount
  attained : r'.highestPECount = r.highestPECount ∨ ∃ i < n, (byteAt bs i : ℤ) = r'.highestPECount

theorem loadPECount_ok {k n : ℕ} {r : Ram} (h : ReaderOk g.toDims rd)
    (hn : n ≤ (rest g.toDims f rd).length) :
    ∃ r' rd', loadPECount g.toDims f (List.range' k n) r rd = .ok (r', rd') ∧
      ReaderOk g.toDims rd' ∧ rest g.toDims f rd' = (rest g.toDims f rd).drop n ∧
      PELoaded (rest g.toDims f rd) k n r r' := by
  induction n generalizing k r rd with
  | zero =>
    exact ⟨r, rd, rfl, h, rfl, ⟨_, _, rfl⟩, fun _ hi => absurd hi (Nat.not_lt_zero _),
      fun _ _ => rfl, le_rfl, fun _ hi => absurd hi (Nat.not_lt_zero _), .inl rfl⟩
  | succ n ih =>
    rcases hr : rest g.toDims f rd with _ | ⟨b, bs⟩
    · rw [hr] at hn
      cases hn
    rw [hr] at hn
    obtain ⟨rd₁, hbyte, hok₁, hrest₁⟩ := readMetadata8b_cons h hr
    let r₁ : Ram := { r with peCount := Function.update r.peCount k b.toNat }
    let r₂ : Ram := if r₁.highestPECount < (b.toNat : ℤ) then
      { r₁ with highestPECount := b.toNat } else r₁
    have hhigh : r₂.highestPECount = max r.highestPECount b.toNat := by
      simp only [r₂, r₁]
      split_ifs with hlt
      · exact (max_eq_right hlt.le).symm
      · exact (max_eq_left (not_lt.mp hlt)).symm
    have hpe : r₂.peCount = Function.update r.peCount k b.toNat := by
      simp only [r₂, r₁]
      split_ifs <;> rfl
    have heq₂ : ∃ pe highest, r₂ = { r with peCount := pe, highestPECount := highest } := by
      simp only [r₂, r₁]
      split_ifs <;> exact ⟨_, _, rfl⟩
    obtain ⟨r', rd', hres, hok', hrest', ⟨pe, highest, heq⟩, hvalue, hbelow, hmono, hle, hatt⟩ :=
      ih (k := k + 1) (r := r₂) hok₁ (hrest₁ ▸ Nat.le_of_succ_le_succ hn)
    rw [hrest₁] at hvalue hle hatt
    refine ⟨r', rd', ?_, hok', by rw [hrest', hrest₁]; rfl, ?_, fun i hi => ?_, fun i hi => ?_,
      ?_, fun i hi => ?_, ?_⟩
    · rw [List.range'_succ]
      simp only [loadPECount, hbyte, bind, Except.bind]
      exact hres
    · obtain ⟨_, _, heq₂⟩ := heq₂
      exact ⟨pe, highest, by rw [heq, heq₂]⟩
    · rcases i with _ | i
      · rw [Nat.add_zero, hbelow k (Nat.lt_succ_self k), hpe, Function.update_self,
          byteAt_zero_cons]
      · rw [byteAt_succ_cons, ← hvalue i (Nat.lt_of_succ_lt_succ hi), Nat.add_assoc, Nat.add_comm 1]
    · rw [hbelow i (by omega), hpe, Function.update_of_ne (by omega)]
    · exact (hhigh ▸ le_max_left _ _).trans hmono
    · rcases i with _ | i
      · exact (hhigh ▸ le_max_right _ _ : (b.toNat : ℤ) ≤ r₂.highestPECount).trans hmono
      · exact hle i (Nat.lt_of_succ_lt_succ hi)
    · rcases hatt with hatt | ⟨i, hi, hatt⟩
      · rcases le_total (b.toNat : ℤ) r.highestPECount with hmax | hmax
        · exact .inl (by rw [hatt, hhigh, max_eq_left hmax])
        · exact .inr ⟨0, Nat.succ_pos _, by rw [hatt, hhigh, max_eq_right hmax]; rfl⟩
      · exact .inr ⟨i + 1, Nat.succ_lt_succ hi, hatt⟩

theorem loadPECount_error {k n : ℕ} {r : Ram} (h : ReaderOk g.toDims rd)
    (hn : (rest g.toDims f rd).length < n) :
    loadPECount g.toDims f (List.range' k n) r rd = .error .frontOfEmpty := by
  induction n generalizing k r rd with
  | zero => cases hn
  | succ n ih =>
    rw [List.range'_succ]
    rcases hr : rest g.toDims f rd with _ | ⟨b, bs⟩
    · simp only [loadPECount, readMetadata8b_nil h hr, bind, Except.bind]
    · rw [hr] at hn
      obtain ⟨rd₁, hbyte, hok₁, hrest₁⟩ := readMetadata8b_cons h hr
      simp only [loadPECount, hbyte, bind, Except.bind]
      exact ih hok₁ (hrest₁ ▸ Nat.lt_of_succ_lt_succ hn)

/-- The blocks below `k` whose state, in the bytes `bs`, is the sentinel. -/
def metasBelow (bs : List UInt8) (k : ℕ) : List ℕ :=
  (List.range k).filter fun i => byteAt bs i = ebMeta

theorem metasBelow_succ (bs : List UInt8) (k : ℕ) :
    metasBelow bs (k + 1) =
      metasBelow bs k ++ if byteAt bs k = ebMeta then [k] else [] := by
  rw [metasBelow, List.range_succ, List.filter_append, metasBelow]
  congr 1
  by_cases hm : byteAt bs k = ebMeta <;> simp [hm]

theorem metasBelow_mono (bs : List UInt8) {k k' : ℕ} (h : k ≤ k') :
    (metasBelow bs k).length ≤ (metasBelow bs k').length := by
  obtain ⟨n, rfl⟩ := Nat.exists_eq_add_of_le h
  rw [metasBelow, metasBelow, List.range_add, List.filter_append, List.length_append]
  exact Nat.le_add_right _ _

/-- The states below `k` have been loaded from the bytes `bs`. -/
structure StatesLoaded (g : Dims) (bs : List UInt8) (k : ℕ) (r r' : Ram) : Prop where
  eq : ∃ st l n, r' = { r with ebState := st, metaEBList := l, emptyEBs := n }
  state : ∀ i < k, r'.ebState i = byteAt bs i
  le : (metasBelow bs k).length ≤ g.metaEBs
  metas : r'.metaEBList = (metasBelow bs k).map some ++
    List.replicate (g.metaEBs - (metasBelow bs k).length) none
  empties : r'.emptyEBs = tally (Finset.range k) (byteAt bs) (· = 0)

/-- One state that does not turn the copy down. -/
theorem StatesLoaded.succ {bs : List UInt8} {k : ℕ} {r r' : Ram}
    (h : StatesLoaded g.toDims bs k r r') :
    (byteAt bs k ≠ ebMeta → StatesLoaded g.toDims bs (k + 1) r
      (if (r'.setEBState k (byteAt bs k)).ebState k = 0 then
        { r'.setEBState k (byteAt bs k) with
          emptyEBs := (r'.setEBState k (byteAt bs k)).emptyEBs + 1 }
        else r'.setEBState k (byteAt bs k))) ∧
    (byteAt bs k = ebMeta → (metasBelow bs k).length < g.metaEBs →
      StatesLoaded g.toDims bs (k + 1) r
        { r'.setEBState k (byteAt bs k) with
          metaEBList := (r'.setEBState k (byteAt bs k)).metaEBList.set
            (metasBelow bs k).length (some k) }) := by
  obtain ⟨⟨st, l, n, heq⟩, hstate, hle, hmetas, hempties⟩ := h
  have hset : (r'.setEBState k (byteAt bs k)).ebState =
      Function.update r'.ebState k (byteAt bs k) := r'.setEBState_ebState (byteAt_lt bs k)
  have hstate' : ∀ i < k + 1, (r'.setEBState k (byteAt bs k)).ebState i = byteAt bs i := by
    intro i hi
    rw [hset]
    rcases eq_or_ne i k with rfl | hne
    · rw [Function.update_self]
    · rw [Function.update_of_ne hne, hstate i (by omega)]
  have hsetL : (r'.setEBState k (byteAt bs k)).metaEBList = r'.metaEBList := rfl
  have hsetN : (r'.setEBState k (byteAt bs k)).emptyEBs = r'.emptyEBs := rfl
  refine ⟨fun hmeta => ?_, fun hmeta hlt => ?_⟩
  · have hnext : metasBelow bs (k + 1) = metasBelow bs k := by
      rw [metasBelow_succ, if_neg hmeta, List.append_nil]
    have hzero : (r'.setEBState k (byteAt bs k)).ebState k = byteAt bs k :=
      hstate' k (Nat.lt_succ_self k)
    rw [hzero]
    split_ifs with hz
    · refine ⟨⟨_, _, _, by rw [heq]; rfl⟩, hstate', hnext ▸ hle, by rw [hnext, ← hmetas]; rfl, ?_⟩
      rw [tally_range_succ, if_pos hz]
      push_cast
      rw [← hempties]
      rfl
    · refine ⟨⟨_, _, _, by rw [heq]; rfl⟩, hstate', hnext ▸ hle, by rw [hnext, ← hmetas]; rfl, ?_⟩
      rw [tally_range_succ, if_neg hz, Nat.add_zero, hsetN, hempties]
  · have hnext : metasBelow bs (k + 1) = metasBelow bs k ++ [k] := by
      rw [metasBelow_succ, if_pos hmeta]
    have hlen : (metasBelow bs (k + 1)).length = (metasBelow bs k).length + 1 := by
      rw [hnext, List.length_append, List.length_singleton]
    refine ⟨⟨_, _, _, by rw [heq]; rfl⟩, hstate', by omega, ?_, ?_⟩
    · obtain ⟨m, hm⟩ := Nat.exists_eq_add_of_lt hlt
      have hrep : g.metaEBs - (metasBelow bs k).length = m + 1 := by omega
      have hrep' : g.metaEBs - (metasBelow bs (k + 1)).length = m := by omega
      rw [hrep', hnext, List.map_append]
      simp only [hsetL, hmetas, hrep]
      rw [List.replicate_succ, List.set_append_right _ _ (by simp)]
      simp
    · have hz : byteAt bs k ≠ 0 := by rw [hmeta]; decide
      simp only [hsetN]
      rw [tally_range_succ, if_neg hz, Nat.add_zero, hempties]

/-- The loop over `ebState` on the bytes `bs`, from block `k` on: it turns the copy down when it
comes to more metadata blocks than there may be, and else needs a byte for each block. -/
theorem loadEBState_spec {bs : List UInt8} {k n : ℕ} {r r₀ : Ram} (h : ReaderOk g.toDims rd)
    (hrest : rest g.toDims f rd = bs.drop k) (hk : k ≤ bs.length)
    (hr : StatesLoaded g.toDims bs k r₀ r) :
    (g.metaEBs < (metasBelow bs (min (k + n) bs.length)).length ∧
      ∃ r' rd', loadEBState g.toDims f (List.range' k n) (metasBelow bs k).length r rd =
          .ok (false, r', rd') ∧
        (∃ st l n, r' = { r₀ with ebState := st, metaEBList := l, emptyEBs := n }) ∧
        r'.metaEBList.length = g.metaEBs) ∨
    ((metasBelow bs (min (k + n) bs.length)).length ≤ g.metaEBs ∧ bs.length < k + n ∧
      loadEBState g.toDims f (List.range' k n) (metasBelow bs k).length r rd =
        .error .frontOfEmpty) ∨
    ((metasBelow bs (min (k + n) bs.length)).length ≤ g.metaEBs ∧ k + n ≤ bs.length ∧
      ∃ r' rd', loadEBState g.toDims f (List.range' k n) (metasBelow bs k).length r rd =
          .ok (true, r', rd') ∧
        ReaderOk g.toDims rd' ∧ rest g.toDims f rd' = bs.drop (k + n) ∧
        StatesLoaded g.toDims bs (k + n) r₀ r') := by
  induction n generalizing k r rd with
  | zero =>
    refine .inr (.inr ⟨?_, hk, r, rd, rfl, h, hrest, hr⟩)
    rw [Nat.add_zero, Nat.min_eq_left hk]
    exact hr.le
  | succ n ih =>
    rw [List.range'_succ]
    rcases Nat.eq_or_lt_of_le hk with rfl | hlt
    · -- the bytes have run out
      rw [List.drop_length] at hrest
      refine .inr (.inl ⟨?_, by omega, ?_⟩)
      · rw [Nat.min_eq_right (by omega)]
        exact hr.le
      · simp only [loadEBState, readMetadata8b_nil h hrest, bind, Except.bind]
    · have hcons : rest g.toDims f rd = bs[k] :: bs.drop (k + 1) := by
        rw [hrest, List.drop_eq_getElem_cons hlt]
      have hval : bs[k].toNat = byteAt bs k := by
        rw [byteAt, List.getD_eq_getElem _ _ hlt]
      obtain ⟨rd₁, hbyte, hok₁, hrest₁⟩ := readMetadata8b_cons h hcons
      have hsucc : k + (n + 1) = k + 1 + n := by omega
      have hisMeta : (r.setEBState k (byteAt bs k)).ebIsMeta k = decide (byteAt bs k = ebMeta) := by
        rw [Ram.ebIsMeta, r.setEBState_ebState (byteAt_lt bs k), Function.update_self]
        rfl
      simp only [loadEBState, hbyte, bind, Except.bind, hval, hisMeta, decide_eq_true_eq]
      by_cases hmeta : byteAt bs k = ebMeta
      · have hlen : (metasBelow bs (k + 1)).length = (metasBelow bs k).length + 1 := by
          rw [metasBelow_succ, if_pos hmeta, List.length_append, List.length_singleton]
        rw [if_pos hmeta]
        by_cases hmany : g.metaEBs ≤ (metasBelow bs k).length
        · rw [if_pos hmany]
          refine .inl ⟨?_, _, _, rfl, ?_, ?_⟩
          · have hle : k + 1 ≤ min (k + (n + 1)) bs.length := by omega
            have := metasBelow_mono bs hle
            omega
          · obtain ⟨st, l, n, heq⟩ := hr.eq
            exact ⟨_, _, _, by rw [heq]; rfl⟩
          · have hlist := congrArg List.length hr.metas
            have := hr.le
            rw [List.length_append, List.length_map, List.length_replicate] at hlist
            change r.metaEBList.length = _
            omega
        · rw [if_neg hmany, hsucc]
          have hnext := hr.succ.2 hmeta (by omega)
          rw [← hlen]
          exact ih hok₁ hrest₁ hlt hnext
      · have hlen : (metasBelow bs (k + 1)).length = (metasBelow bs k).length := by
          rw [metasBelow_succ, if_neg hmeta, List.append_nil]
        rw [if_neg hmeta, hsucc, ← hlen]
        exact ih hok₁ hrest₁ hlt (hr.succ.1 hmeta)

/-- The entry of `l2p` that the bytes hold for a sector. -/
def entryAt (bs : List UInt8) (lba : ℕ) : ℕ := byteAt bs (2 * lba) * 2 ^ 8 + byteAt bs (2 * lba + 1)

/-- The entries below `k` have been loaded from the bytes `bs`. -/
structure EntriesLoaded (bs : List UInt8) (k : ℕ) (r r' : Ram) : Prop where
  eq : ∃ t v, r' = { r with l2p := t, validLBAs := v }
  entry : ∀ lba < k, r'.l2p lba = entryAt bs lba
  valid : r'.validLBAs = tally (Finset.range k) (entryAt bs) fun e => l2pVal e = true

theorem valueBE_take_two {bs : List UInt8} (h : 2 ≤ bs.length) :
    valueBE (bs.take 2) = entryAt bs 0 := by
  match bs, h with
  | b₀ :: b₁ :: bs, _ => simp [valueBE, entryAt, byteAt]

theorem entryAt_drop (bs : List UInt8) (k lba : ℕ) :
    entryAt (bs.drop (2 * k)) lba = entryAt bs (k + lba) := by
  rw [entryAt, entryAt, byteAt_drop, byteAt_drop, Nat.mul_add, Nat.add_assoc]

theorem loadL2P_ok {bs : List UInt8} {k n : ℕ} {r r₀ : Ram} (h : ReaderOk g.toDims rd)
    (hrest : rest g.toDims f rd = bs.drop (2 * k)) (hn : 2 * (k + n) ≤ bs.length)
    (hr : EntriesLoaded bs k r₀ r) :
    ∃ r' rd', loadL2P g.toDims f (List.range' k n) r rd = .ok (r', rd') ∧ ReaderOk g.toDims rd' ∧
      rest g.toDims f rd' = bs.drop (2 * (k + n)) ∧ EntriesLoaded bs (k + n) r₀ r' := by
  induction n generalizing k r rd with
  | zero => exact ⟨r, rd, rfl, h, hrest, hr⟩
  | succ n ih =>
    have hlen : 2 ≤ (rest g.toDims f rd).length := by
      rw [hrest, List.length_drop]
      omega
    obtain ⟨rd₁, hread, hok₁, hrest₁⟩ := readMetadata_ok h hlen
    have hval : valueBE ((rest g.toDims f rd).take 2) = entryAt bs k := by
      rw [valueBE_take_two hlen, hrest, entryAt_drop, Nat.add_zero]
    have hsucc : k + (n + 1) = k + 1 + n := by omega
    have hnext : EntriesLoaded bs (k + 1) r₀
        (if l2pVal (Function.update r.l2p k (entryAt bs k) k) = true then
          { r with l2p := Function.update r.l2p k (entryAt bs k), validLBAs := r.validLBAs + 1 }
        else { r with l2p := Function.update r.l2p k (entryAt bs k) }) := by
      obtain ⟨⟨t, v, heq⟩, hentry, hvalid⟩ := hr
      have hentry' : ∀ lba < k + 1, Function.update r.l2p k (entryAt bs k) lba = entryAt bs lba := by
        intro lba hlba
        rcases eq_or_ne lba k with rfl | hne
        · rw [Function.update_self]
        · rw [Function.update_of_ne hne, hentry lba (by omega)]
      rw [Function.update_self]
      split_ifs with hv
      · refine ⟨⟨_, _, by rw [heq]⟩, hentry', ?_⟩
        rw [tally_range_succ, if_pos hv]
        push_cast
        rw [← hvalid]
      · refine ⟨⟨_, _, by rw [heq]⟩, hentry', ?_⟩
        rw [tally_range_succ, if_neg hv, Nat.add_zero, ← hvalid]
    rw [List.range'_succ]
    simp only [loadL2P, hread, bind, Except.bind, hval]
    rw [hsucc] at hn ⊢
    refine ih hok₁ ?_ hn hnext
    rw [hrest₁, hrest, List.drop_drop]
    congr 1

theorem loadL2P_error {bs : List UInt8} {k n : ℕ} {r : Ram} (h : ReaderOk g.toDims rd)
    (hrest : rest g.toDims f rd = bs.drop (2 * k)) (hk : 2 * k ≤ bs.length)
    (hn : bs.length < 2 * (k + n)) :
    loadL2P g.toDims f (List.range' k n) r rd = .error .frontOfEmpty := by
  induction n generalizing k r rd with
  | zero => omega
  | succ n ih =>
    rw [List.range'_succ]
    rcases lt_or_ge (rest g.toDims f rd).length 2 with hshort | hlen
    · simp only [loadL2P, readMetadata_error h hshort, bind, Except.bind]
    · obtain ⟨rd₁, hread, hok₁, hrest₁⟩ := readMetadata_ok h hlen
      simp only [loadL2P, hread, bind, Except.bind]
      rw [hrest, List.length_drop] at hlen
      refine ih hok₁ ?_ (by omega) (by omega)
      rw [hrest₁, hrest, List.drop_drop]
      congr 1

/-! ### A copy -/

/-- The part of the stream after the record and the erase counts. -/
def statesOf (g : Dims) (bs : List UInt8) : List UInt8 := bs.drop (12 + g.eraseBlocks)

/-- The part of the stream that holds `l2p`. -/
def entriesOf (g : Dims) (bs : List UInt8) : List UInt8 :=
  bs.drop (12 + g.eraseBlocks + g.eraseBlocks)

/-- The bytes a load reads to its end. -/
def streamLength (g : Dims) : ℕ := 12 + g.eraseBlocks + g.eraseBlocks + 2 * g.flashLBAs + 4

/-- What a load makes of a stream: it takes it or turns it down, or the stream ends before that is
decided. -/
def verdict (g : Dims) (bs : List UInt8) : Option Bool :=
  if bs.length < 12 then none
  else if bs.take 12 ≠ ftlInfo g then some false
  else if g.metaEBs <
      (metasBelow (statesOf g bs) (min g.eraseBlocks (statesOf g bs).length)).length then
    some false
  else if bs.length < streamLength g then none
  else some true

/-- Where the sectors are according to a stream. -/
def copyPlaces (g : Dims) (bs : List UInt8) : Places := fun lba =>
  let entry := entryAt (entriesOf g bs) lba
  if l2pVal entry then some (g.l2pEb entry, g.l2pIdx entry) else none

/-- The tables `ebState` and `l2p` of a stream agree. -/
def Agrees (g : Dims) (bs : List UInt8) : Prop :=
  Placed g (copyPlaces g bs) (byteAt (statesOf g bs))

/-- The tables after a copy has been taken. -/
structure Loaded (g : Dims) (bs : List UInt8) (epoch : ℕ) (r r' : Ram) : Prop where
  state : ∀ eb < g.eraseBlocks, r'.ebState eb = byteAt (statesOf g bs) eb
  entry : ∀ lba < g.flashLBAs, r'.l2p lba = entryAt (entriesOf g bs) lba
  count : ∀ eb < g.eraseBlocks, r'.peCount eb = byteAt (bs.drop 12) eb
  wear : WearOk g r'.peCount r'.highestPECount
  list : r'.metaEBList = (metasBelow (statesOf g bs) g.eraseBlocks).map some ++
    List.replicate (g.metaEBs - (metasBelow (statesOf g bs) g.eraseBlocks).length) none
  metas : MetaList g r'.ebState r'.metaEBList
  empties : r'.emptyEBs = emptyCount g r'.ebState
  valid : r'.validLBAs = tally (Finset.range g.flashLBAs) r'.l2p fun e => l2pVal e = true
  offset : r'.peCountOffset =
    valueBE ((bs.drop (12 + g.eraseBlocks + g.eraseBlocks + 2 * g.flashLBAs)).take 4)
  metadataEpoch : r'.metadataEpoch = epoch
  openEB : r'.openEB = r.openEB
  openEBNextIndex : r'.openEBNextIndex = r.openEBNextIndex
  gcEB : r'.gcEB = r.gcEB

/-- What a load leaves alone, whatever becomes of it. -/
structure Untouched (g : Dims) (r r' : Ram) : Prop where
  metaEBList : r'.metaEBList.length = g.metaEBs
  openEB : r'.openEB = r.openEB
  openEBNextIndex : r'.openEBNextIndex = r.openEBNextIndex
  gcEB : r'.gcEB = r.gcEB
  validLBAs : r'.validLBAs = r.validLBAs
  metadataEpoch : r'.metadataEpoch = r.metadataEpoch

theorem ftlInfo_length (g : Dims) : (ftlInfo g).length = 12 := rfl

theorem reader_openFront {ebs : List ℕ} (hne : ebs ≠ []) :
    openMetadataStreamForRead ebs = .ok ⟨ebs, 0⟩ ∧ ReaderOk g.toDims ⟨ebs, 0⟩ ∧
      rest g.toDims f ⟨ebs, 0⟩ = streamOf g.toDims f ebs := by
  obtain ⟨eb, l, rfl⟩ := List.exists_cons_of_ne_nil hne
  exact ⟨rfl, ⟨hne, Nat.zero_le _⟩, rest_cons_zero eb l⟩

/-- The list of metadata blocks that a copy leaves. -/
theorem metaList_of_states {bs : List UInt8} {r r' : Ram}
    (h : StatesLoaded g.toDims bs g.eraseBlocks r r') :
    MetaList g.toDims r'.ebState r'.metaEBList := by
  have hle := h.le
  have hmem : ∀ eb, some eb ∈ r'.metaEBList → eb ∈ metasBelow bs g.eraseBlocks := by
    intro eb heb
    rw [h.metas, List.mem_append] at heb
    rcases heb with heb | heb
    · simpa using heb
    · simp at heb
  refine ⟨?_, fun eb heb => ?_, fun eb heb => ?_⟩
  · rw [h.metas, List.length_append, List.length_map, List.length_replicate]
    omega
  · exact List.mem_range.mp (List.mem_filter.mp (hmem eb heb)).1
  · have hcount : r'.metaEBList.count (some eb) = (metasBelow bs g.eraseBlocks).count eb := by
      rw [h.metas, List.count_append, List.count_map_of_injective _ _ (Option.some_injective _)]
      simp [List.count_replicate]
    rw [hcount, h.state eb heb]
    have hnodup : (metasBelow bs g.eraseBlocks).Nodup := List.nodup_range.filter _
    split_ifs with hm
    · refine List.count_eq_one_of_mem hnodup (List.mem_filter.mpr ⟨List.mem_range.mpr heb, ?_⟩)
      exact decide_eq_true hm
    · refine List.count_eq_zero.mpr fun hin => hm ?_
      exact of_decide_eq_true (List.mem_filter.mp hin).2

/-- **What a load makes of the blocks of an epoch.** -/
theorem loadCopy_spec (epoch : ℕ) (ebs : List ℕ) (r : Ram)
    (hr : r.metaEBList.length = g.metaEBs) :
    (verdict g.toDims (streamOf g.toDims f ebs) = none ∧
      loadCopy g.toDims f epoch ebs r = .error .frontOfEmpty) ∨
    (verdict g.toDims (streamOf g.toDims f ebs) = some false ∧
      ∃ r', loadCopy g.toDims f epoch ebs r = .ok (false, r') ∧ Untouched g.toDims r r') ∨
    (verdict g.toDims (streamOf g.toDims f ebs) = some true ∧
      ∃ r', loadCopy g.toDims f epoch ebs r = .ok (true, r') ∧
        Loaded g.toDims (streamOf g.toDims f ebs) epoch r r') := by
  by_cases hne : ebs = []
  · subst hne
    exact .inl ⟨rfl, rfl⟩
  obtain ⟨hopen, hok₀, hrest₀⟩ := reader_openFront (g := g) (f := f) hne
  generalize hbs : streamOf g.toDims f ebs = bs at hrest₀ ⊢
  have hcopy : loadCopy g.toDims f epoch ebs r =
      (readMetadata g.toDims f 12 ⟨ebs, 0⟩).bind fun p =>
        if ftlInfo g.toDims ≠ p.1 then .ok (false, r)
        else (loadPECount g.toDims f (List.range' 0 g.eraseBlocks)
          { r with highestPECount := 0 } p.2).bind fun q =>
          (loadEBState g.toDims f (List.range' 0 g.eraseBlocks) 0
            { q.1 with metaEBList := List.replicate g.metaEBs none, emptyEBs := 0 } q.2).bind
            fun t =>
              if !t.1 then .ok (false, t.2.1)
              else (loadL2P g.toDims f (List.range' 0 g.flashLBAs)
                { t.2.1 with validLBAs := 0 } t.2.2).bind fun u =>
                (readMetadata g.toDims f 4 u.2).bind fun v =>
                  .ok (true, { u.1 with peCountOffset := valueBE v.1, metadataEpoch := epoch }) := by
    rw [loadCopy, hopen, List.range_eq_range', List.range_eq_range']
    rfl
  rw [hcopy]
  rcases lt_or_ge bs.length 12 with hshort | hinfo
  · rw [readMetadata_error hok₀ (hrest₀ ▸ hshort)]
    exact .inl ⟨by rw [verdict, if_pos hshort], rfl⟩
  obtain ⟨rd₁, hread₁, hok₁, hrest₁⟩ := readMetadata_ok hok₀ (hrest₀ ▸ hinfo)
  rw [hread₁, Except.bind, hrest₀]
  rw [hrest₀] at hrest₁
  by_cases hmatch : ftlInfo g.toDims = bs.take 12
  swap
  · refine .inr (.inl ⟨?_, r, ?_, ⟨hr, rfl, rfl, rfl, rfl, rfl⟩⟩)
    · rw [verdict, if_neg (not_lt.mpr hinfo), if_pos (Ne.symm hmatch)]
    · simp only
      rw [if_pos hmatch]
  simp only
  rw [if_neg (not_not.mpr hmatch)]
  have hverdict : verdict g.toDims bs = if g.metaEBs < (metasBelow (statesOf g.toDims bs)
      (min g.eraseBlocks (statesOf g.toDims bs).length)).length then some false
      else if bs.length < streamLength g.toDims then none else some true := by
    rw [verdict, if_neg (not_lt.mpr hinfo), if_neg (not_not.mpr hmatch.symm)]
  have hN := g.eraseBlocks_pos
  rcases lt_or_ge (rest g.toDims f rd₁).length g.eraseBlocks with hshort | hpe
  · rw [loadPECount_error hok₁ hshort, Except.bind]
    refine .inl ⟨?_, rfl⟩
    rw [hrest₁, List.length_drop] at hshort
    have hnone : (statesOf g.toDims bs).length = 0 := by
      rw [statesOf, List.length_drop]
      omega
    have hnotMany : ¬ g.metaEBs < (metasBelow (statesOf g.toDims bs) 0).length :=
      Nat.not_lt_zero _
    rw [hverdict, hnone, Nat.min_zero, if_neg hnotMany, if_pos]
    rw [streamLength]
    omega
  obtain ⟨r₂, rd₂, hload₂, hok₂, hrest₂, hpe₂⟩ := loadPECount_ok (k := 0)
    (r := { r with highestPECount := 0 }) hok₁ hpe
  rw [hload₂, Except.bind]
  simp only
  have hstates : rest g.toDims f rd₂ = (statesOf g.toDims bs).drop 0 := by
    rw [hrest₂, hrest₁, List.drop_drop, List.drop_zero, statesOf]
  have hinit : StatesLoaded g.toDims (statesOf g.toDims bs) 0 r₂
      { r₂ with metaEBList := List.replicate g.metaEBs none, emptyEBs := 0 } :=
    ⟨⟨_, _, _, rfl⟩, fun _ hi => absurd hi (Nat.not_lt_zero _), Nat.zero_le _, rfl, rfl⟩
  have hstateLen : (statesOf g.toDims bs).length = bs.length - (12 + g.eraseBlocks) := by
    rw [statesOf, List.length_drop]
  obtain ⟨pe, highest, heq₂⟩ := hpe₂.eq
  rcases loadEBState_spec (n := g.eraseBlocks) hok₂ hstates (Nat.zero_le _) hinit with
    ⟨hmany, r₃, rd₃, hload₃, ⟨st, l, n, heq₃⟩, hlen₃⟩ | ⟨hfew, hshort, hload₃⟩ |
    ⟨hfew, hlong, r₃, rd₃, hload₃, hok₃, hrest₃, hstates₃⟩
  · rw [show (metasBelow (statesOf g.toDims bs) 0).length = 0 from rfl] at hload₃
    rw [Nat.zero_add] at hmany
    refine .inr (.inl ⟨by rw [hverdict, if_pos hmany], r₃, ?_, hlen₃, ?_, ?_, ?_, ?_, ?_⟩)
    · rw [hload₃, Except.bind]
      rfl
    all_goals rw [heq₃, heq₂]
  · rw [show (metasBelow (statesOf g.toDims bs) 0).length = 0 from rfl] at hload₃
    rw [Nat.zero_add] at hfew hshort
    rw [hload₃, Except.bind]
    refine .inl ⟨?_, rfl⟩
    rw [hverdict, if_neg (not_lt.mpr hfew), if_pos]
    rw [streamLength]
    omega
  rw [show (metasBelow (statesOf g.toDims bs) 0).length = 0 from rfl] at hload₃
  rw [Nat.zero_add] at hfew hlong hrest₃ hstates₃
  rw [hload₃, Except.bind]
  simp only [Bool.not_true, Bool.false_eq_true, if_false]
  have hentryLen : (entriesOf g.toDims bs).length =
      bs.length - (12 + g.eraseBlocks + g.eraseBlocks) := by rw [entriesOf, List.length_drop]
  have hentries : rest g.toDims f rd₃ = (entriesOf g.toDims bs).drop (2 * 0) := by
    rw [hrest₃, statesOf, List.drop_drop, Nat.mul_zero, List.drop_zero, entriesOf]
  rcases lt_or_ge (entriesOf g.toDims bs).length (2 * g.flashLBAs) with hshort | hl2p
  · rw [loadL2P_error hok₃ hentries (Nat.zero_le _) (by rwa [Nat.zero_add]), Except.bind]
    refine .inl ⟨?_, rfl⟩
    rw [hverdict, if_neg (not_lt.mpr hfew), if_pos]
    rw [streamLength]
    omega
  have hinit₃ : EntriesLoaded (entriesOf g.toDims bs) 0 r₃ { r₃ with validLBAs := 0 } :=
    ⟨⟨_, _, rfl⟩, fun _ hi => absurd hi (Nat.not_lt_zero _), rfl⟩
  obtain ⟨r₄, rd₄, hload₄, hok₄, hrest₄, hentry₄⟩ := loadL2P_ok (n := g.flashLBAs) hok₃ hentries
    (by rwa [Nat.zero_add]) hinit₃
  rw [hload₄, Except.bind]
  simp only
  rw [Nat.zero_add] at hrest₄ hentry₄
  have hdrop : rest g.toDims f rd₄ =
      bs.drop (12 + g.eraseBlocks + g.eraseBlocks + 2 * g.flashLBAs) := by
    rw [hrest₄, entriesOf, List.drop_drop]
  rcases lt_or_ge (rest g.toDims f rd₄).length 4 with hshort | hoff
  · rw [readMetadata_error hok₄ hshort, Except.bind]
    rw [hdrop, List.length_drop] at hshort
    refine .inl ⟨?_, rfl⟩
    rw [hverdict, if_neg (not_lt.mpr hfew), if_pos]
    rw [streamLength]
    omega
  obtain ⟨rd₅, hload₅, -, -⟩ := readMetadata_ok hok₄ hoff
  rw [hload₅, Except.bind, hdrop]
  rw [hdrop, List.length_drop] at hoff
  obtain ⟨st, l, n, heq₃⟩ := hstates₃.eq
  obtain ⟨t, v, heq₄⟩ := hentry₄.eq
  have hstate₄ : r₄.ebState = r₃.ebState := by rw [heq₄]
  have hmetas₄ : r₄.metaEBList = r₃.metaEBList := by rw [heq₄]
  have hpe₄ : r₄.peCount = r₂.peCount := by rw [heq₄, heq₃]
  have hhigh₄ : r₄.highestPECount = r₂.highestPECount := by rw [heq₄, heq₃]
  have hempty₄ : r₄.emptyEBs = r₃.emptyEBs := by rw [heq₄]
  have hvalue : ∀ i < g.eraseBlocks, r₂.peCount i = byteAt (rest g.toDims f rd₁) i := by
    intro i hi
    have := hpe₂.value i hi
    rwa [Nat.zero_add] at this
  refine .inr (.inr ⟨?_, _, rfl, fun eb heb => ?_, fun lba hlba => hentry₄.entry lba hlba,
    fun eb heb => ?_, ?_, ?_, ?_, ?_, ?_, rfl, rfl, ?_, ?_, ?_⟩)
  · rw [hverdict, if_neg (not_lt.mpr hfew), if_neg]
    rw [streamLength]
    omega
  · exact (congrFun hstate₄ eb).trans (hstates₃.state eb heb)
  · exact (congrFun hpe₄ eb).trans (hrest₁ ▸ hvalue eb heb)
  · -- the maximum is attained, at zero if all the counts are
    simp only [hpe₄, hhigh₄]
    refine ⟨fun i hi => hvalue i hi ▸ byteAt_lt _ _, fun i hi => hvalue i hi ▸ hpe₂.le i hi, ?_⟩
    rcases hpe₂.attained with hzero | ⟨i, hi, hatt⟩
    · refine ⟨0, hN, le_antisymm (hvalue 0 hN ▸ hpe₂.le 0 hN) ?_⟩
      rw [hzero]
      exact Int.natCast_nonneg _
    · exact ⟨i, hi, hvalue i hi ▸ hatt⟩
  · exact hmetas₄.trans hstates₃.metas
  · simp only [hstate₄, hmetas₄]
    exact metaList_of_states hstates₃
  · simp only [hstate₄, hempty₄]
    rw [hstates₃.empties, emptyCount]
    refine congrArg Nat.cast (tally_congr fun i hi => ?_)
    rw [hstates₃.state i (Finset.mem_range.mp hi)]
  · refine hentry₄.valid.trans (congrArg Nat.cast (tally_congr fun lba hlba => ?_))
    simp only [hentry₄.entry lba (Finset.mem_range.mp hlba)]
  all_goals
    simp only
    rw [heq₄, heq₃, heq₂]

end Loader

end Ch32h4.Spiftl
