import Ch32h4.Eth.Filter
import Mathlib.Tactic.IntervalCases

/-!
# The multicast filter lets in the groups that are joined

The bin of a group is the bit that the MAC looks at for its frames (`groupBin_htonl`): `eth_crc32`
holds the mirror image of the register of the code, so its result is turned around before the upper
six bits are taken.  With that, the count of a bin is the number of the joined groups that map to it,
repeated joins included (`Counts`), and a bit of the table is set where the count is not zero.
-/

namespace Ch32h4.Eth

open Machine

variable {f : HashFilter} {n : BitVec 32} {groups : List (BitVec 32)} {b : ℕ}

/-! ### The CRC is that of the wire -/

theorem and_one_eq_one_iff (crc : BitVec 32) : crc &&& 1#32 = 1#32 ↔ crc.getLsbD 0 = true := by
  constructor
  · intro h
    have hbit := congrArg (fun x => BitVec.getLsbD x 0) h
    simpa using hbit
  · intro h
    apply BitVec.eq_of_getLsbD_eq
    intro i hi
    by_cases h0 : i = 0
    · simp [h0, h]
    · simp [BitVec.getLsbD_one, h0]

/-- The inner loop of `eth_crc32` shifts the register of the code. -/
theorem shift_eq_feedLow (crc : BitVec 32) :
    (if crc &&& 1#32 = 1#32 then (crc >>> 1) ^^^ 0xEDB88320#32 else crc >>> 1) =
      Cyclic.feedLow 0xEDB88320#32 crc false := by
  rw [Cyclic.feedLow, Bool.xor_false]
  simp only [and_one_eq_one_iff]

/-- The bits of some octets, of each the lowest first. -/
def octetBits (data : List (BitVec 8)) : List Bool :=
  data.flatMap fun octet => (List.range 8).map octet.getLsbD

theorem crc32_eq (data : List (BitVec 8)) :
    crc32 data = ~~~ (octetBits data).foldl (Cyclic.feedLow 0xEDB88320#32) 0xFFFFFFFF#32 := by
  rw [crc32, octetBits, List.foldl_flatMap]
  congr 2
  funext crc octet
  simp only [shift_eq_feedLow]
  rw [Cyclic.iterate_feedLow_xor]
  · refine congrArg (List.foldl _ crc) (List.map_congr_left fun i hi => ?_)
    rw [BitVec.getLsbD_setWidth, decide_eq_true (by have := List.mem_range.mp hi; omega)]
    exact Bool.true_and _
  · intro i hi
    simp [hi]

/-- The low bits are shifted out of the word one by one, and into the other from below. -/
theorem getLsbD_turn (rev crc : BitVec 32) (k j : ℕ) (hj : j < 32) :
    ((rev <<< 1) ||| ((crc >>> k) &&& 1#32)).getLsbD j =
      if j = 0 then crc.getLsbD k else rev.getLsbD (j - 1) := by
  by_cases h0 : j = 0
  · simp [h0]
  · have h1 : ¬ j < 1 := by omega
    have h2 : j - 1 < 32 := by omega
    simp [h0, h1, hj, BitVec.getLsbD_eq_getElem h2]

theorem reversed_eq (crc : BitVec 32) : reversed crc = crc.reverse := by
  have hloop : ∀ k j, j < 32 →
      ((List.range k).foldl (fun (rev : BitVec 32) i => (rev <<< 1) ||| ((crc >>> i) &&& 1#32))
        0#32).getLsbD j = (decide (j < k) && crc.getLsbD (k - 1 - j)) := by
    intro k
    induction k with
    | zero => intro j _; simp
    | succ k ih =>
      intro j hj
      rw [List.range_succ, List.foldl_append, List.foldl_cons, List.foldl_nil,
        getLsbD_turn _ _ _ _ hj]
      cases j with
      | zero => simp
      | succ j =>
        rw [if_neg (Nat.succ_ne_zero j), Nat.add_sub_cancel, ih j (by omega), Nat.add_sub_cancel,
          Nat.sub_sub, Nat.add_comm 1 j]
        simp
  apply BitVec.eq_of_getLsbD_eq
  intro i hi
  rw [reversed, hloop 32 i hi, BitVec.getLsbD_reverse, BitVec.getMsbD]

/-- The six octets of an address. -/
def octets (mac : BitVec 48) : List (BitVec 8) :=
  (List.range 6).map fun k => mac.extractLsb' (8 * (5 - k)) 8

/-! ### The address -/

theorem getLsbD_htonl (n : BitVec 32) {k i : ℕ} (hk : k < 4) (hi : i < 8) :
    (htonl n).getLsbD (8 * k + i) = n.getLsbD (8 * (3 - k) + i) := by
  change BitVec.getLsbD (w := 8 + 8 + 8 + 8) (n.extractLsb' 0 8 ++ n.extractLsb' 8 8 ++
    n.extractLsb' 16 8 ++ n.extractLsb' 24 8) _ = _
  simp only [BitVec.getLsbD_append, BitVec.getLsbD_extractLsb']
  interval_cases k <;> grind

theorem getLsbD_multicastAddress (n : BitVec 32) (i : ℕ) : (multicastAddress n).getLsbD i =
    if i < 23 then n.getLsbD i else if i < 24 then false else (0x01005E#24).getLsbD (i - 24) := by
  change BitVec.getLsbD (w := 24 + (1 + 23)) (0x01005E#24 ++ (0#1 ++ n.setWidth 23)) i = _
  simp only [BitVec.getLsbD_append, BitVec.getLsbD_setWidth, BitVec.getLsbD_zero]
  grind

/-- An octet that is taken out of a word, under a mask. -/
theorem getLsbD_octet (x mask : BitVec 32) (k : ℕ) {i : ℕ} (hi : i < 8) :
    (((x >>> k) &&& mask).setWidth 8).getLsbD i = (x.getLsbD (k + i) && mask.getLsbD i) := by
  rw [BitVec.getLsbD_setWidth, BitVec.getLsbD_and, BitVec.getLsbD_ushiftRight, decide_eq_true hi,
    Bool.true_and]

theorem multicastMac_htonl (n : BitVec 32) : multicastMac (htonl n) = octets (multicastAddress n) := by
  -- of the second octet of the group the highest bit is lost
  have h2 : ((htonl n >>> 8) &&& 0x7F#32).setWidth 8 = (multicastAddress n).extractLsb' 16 8 := by
    apply BitVec.eq_of_getLsbD_eq
    intro i hi
    have hn : (htonl n).getLsbD (8 + i) = n.getLsbD (16 + i) := getLsbD_htonl n (k := 1) (by decide) hi
    rw [getLsbD_octet _ _ _ hi, hn, BitVec.getLsbD_extractLsb', decide_eq_true hi, Bool.true_and,
      getLsbD_multicastAddress]
    by_cases h7 : i = 7
    · subst h7
      simp
    · have hmask : (0x7F#32).getLsbD i = true := by interval_cases i <;> first | rfl | exact absurd rfl h7
      rw [hmask, Bool.and_true, if_pos (by omega)]
  have hmask : ∀ i < 8, (0xFF#32).getLsbD i = true := by decide
  have h1 : ((htonl n >>> 16) &&& 0xFF#32).setWidth 8 = (multicastAddress n).extractLsb' 8 8 := by
    apply BitVec.eq_of_getLsbD_eq
    intro i hi
    have hn : (htonl n).getLsbD (16 + i) = n.getLsbD (8 + i) := getLsbD_htonl n (k := 2) (by decide) hi
    rw [getLsbD_octet _ _ _ hi, hn, BitVec.getLsbD_extractLsb', decide_eq_true hi, Bool.true_and,
      getLsbD_multicastAddress, if_pos (by omega), hmask i hi, Bool.and_true]
  have h0 : ((htonl n >>> 24) &&& 0xFF#32).setWidth 8 = (multicastAddress n).extractLsb' 0 8 := by
    apply BitVec.eq_of_getLsbD_eq
    intro i hi
    have hn : (htonl n).getLsbD (24 + i) = n.getLsbD (0 + i) := getLsbD_htonl n (k := 3) (by decide) hi
    rw [getLsbD_octet _ _ _ hi, hn, BitVec.getLsbD_extractLsb', decide_eq_true hi, Bool.true_and,
      getLsbD_multicastAddress, if_pos (by omega), hmask i hi, Bool.and_true]
  -- the prefix does not depend on the group
  have hpre : ∀ k < 3, (multicastAddress n).extractLsb' (8 * k + 24) 8 =
      (0x01005E#24).extractLsb' (8 * k) 8 := by
    intro k hk
    apply BitVec.eq_of_getLsbD_eq
    intro i hi
    rw [BitVec.getLsbD_extractLsb', BitVec.getLsbD_extractLsb', getLsbD_multicastAddress,
      if_neg (by omega), if_neg (by omega)]
    congr 2
    omega
  rw [multicastMac, h0, h1, h2]
  have p0 := hpre 0 (by decide)
  have p1 := hpre 1 (by decide)
  have p2 := hpre 2 (by decide)
  simp [octets, List.range_succ, p0, p1, p2]

/-- **The bin of the driver is the bit that the MAC looks at.** -/
theorem groupBin_htonl (n : BitVec 32) : groupBin (htonl n) = hashBin n := by
  have hbits : octetBits (octets (multicastAddress n)) = wireBits (multicastAddress n) := by
    rw [octetBits, octets, List.flatMap_map, wireBits]
  have hpoly : (0xEDB88320#32).reverse = 0x04C11DB7#32 := by decide +kernel
  have hones : (0xFFFFFFFF#32).reverse = 0xFFFFFFFF#32 := by decide +kernel
  have hcheck : reversed (crc32 (multicastMac (htonl n))) =
      frameCheck (wireBits (multicastAddress n)) := by
    rw [reversed_eq, crc32_eq, multicastMac_htonl, hbits, Cyclic.reverse_not,
      Cyclic.reverse_foldl_feedLow, hpoly, hones, frameCheck]
  have hlt : (frameCheck (wireBits (multicastAddress n))).toNat < 2 ^ 32 := BitVec.isLt _
  rw [groupBin, hcheck, hashBin, BitVec.toNat_and, BitVec.toNat_ushiftRight,
    Nat.shiftRight_eq_div_pow]
  exact (Nat.and_two_pow_sub_one_eq_mod _ 6).trans (Nat.mod_eq_of_lt (by omega))

/-- The group of mDNS. -/
example : hashBin 0xE00000FB#32 = 48 := by decide +kernel

/-! ### The table -/

theorem getLsbD_one_shiftLeft {k b : ℕ} (hb : b < 32) :
    (1#32 <<< k).getLsbD b = decide (b = k) := by
  rw [BitVec.getLsbD_shiftLeft, BitVec.getLsbD_one, decide_eq_true hb, Bool.true_and]
  by_cases hk : b < k
  · simp [hk, hk.ne]
  · have hiff : b - k = 0 ↔ b = k := by omega
    simp [hk, hiff]

/-- The two words of the table after the first `k` bins. -/
theorem getLsbD_words (count : ℕ → ℕ) (k : ℕ) : ∀ b < 32,
    let words := (List.range k).foldl (fun (words : BitVec 32 × BitVec 32) i =>
      if count i = 0 then words
      else if i < 32 then (words.1 ||| (1#32 <<< i), words.2)
      else (words.1, words.2 ||| (1#32 <<< (i - 32)))) (0#32, 0#32)
    words.1.getLsbD b = decide (b < k ∧ count b ≠ 0) ∧
      words.2.getLsbD b = decide (b + 32 < k ∧ count (b + 32) ≠ 0) := by
  intro b hb
  induction k with
  | zero => simp
  | succ k ih =>
    dsimp only at ih ⊢
    rw [List.range_succ, List.foldl_append, List.foldl_cons, List.foldl_nil]
    generalize (List.range k).foldl _ _ = words at ih ⊢
    obtain ⟨hlow, hhigh⟩ := ih
    by_cases hcount : count k = 0
    · rw [if_pos hcount, hlow, hhigh]
      constructor
      · refine decide_eq_decide.mpr (and_congr_left fun hb' => ?_)
        have hne : b ≠ k := fun h => hb' (h ▸ hcount)
        omega
      · refine decide_eq_decide.mpr (and_congr_left fun hb' => ?_)
        have hne : b + 32 ≠ k := fun h => hb' (h ▸ hcount)
        omega
    · rw [if_neg hcount]
      by_cases hk : k < 32
      · rw [if_pos hk, BitVec.getLsbD_or, hlow, hhigh, getLsbD_one_shiftLeft hb]
        constructor
        · by_cases hbk : b = k
          · simp [hbk, hcount]
          · have hiff : b < k + 1 ↔ b < k := by omega
            simp [hbk, hiff]
        · have hno : ¬ b + 32 < k ∧ ¬ b + 32 < k + 1 := by omega
          simp [hno]
      · rw [if_neg hk, BitVec.getLsbD_or, hlow, hhigh, getLsbD_one_shiftLeft hb]
        constructor
        · have hin : b < k ∧ b < k + 1 := by omega
          simp [hin]
        · by_cases hbk : b + 32 = k
          · have heq : b = k - 32 := by omega
            simp [← heq, hbk, hcount]
          · have hne : b ≠ k - 32 := by omega
            have hiff : b + 32 < k + 1 ↔ b + 32 < k := by omega
            simp [hne, hiff]

theorem bit_apply (f : HashFilter) (hb : b < 64) : f.apply.bit b = decide (f.hash_count b ≠ 0) := by
  rw [HashFilter.bit, HashFilter.apply]
  split
  · next hlow =>
    rw [(getLsbD_words f.hash_count 64 b hlow).1]
    simp [hb]
  · next hhigh =>
    rw [(getLsbD_words f.hash_count 64 (b - 32) (by omega)).2, Nat.sub_add_cancel (by omega)]
    simp [hb]

/-! ### Every run -/

/-- The count of a bin is that of the joined groups which map to it, and the table is up to date. -/
structure Counts (s : HashFilter × List (BitVec 32)) : Prop where
  count : ∀ b, s.1.hash_count b = s.2.countP (hashBin · = b)
  bit : ∀ b < 64, s.1.bit b = decide (s.1.hash_count b ≠ 0)

theorem counts_clear : Counts (.clear, []) where
  count _ := rfl
  bit b _ := by simp [HashFilter.bit, HashFilter.clear]

theorem Counts.join (h : Counts (f, groups)) (hroom : groups.countP (hashBin · = hashBin n) < 255) :
    Counts ((f.igmpFilter (htonl n) .add).1, n :: groups) := by
  simp only [HashFilter.igmpFilter, groupBin_htonl]
  rw [if_pos (by rw [h.count]; exact hroom)]
  refine ⟨fun b => ?_, fun b hb => bit_apply _ hb⟩
  change (if b = hashBin n then f.hash_count (hashBin n) + 1 else f.hash_count b) =
    (n :: groups).countP (hashBin · = b)
  rw [List.countP_cons, h.count, h.count]
  by_cases hb : b = hashBin n
  · rw [if_pos hb, hb, if_pos (by simp)]
  · rw [if_neg hb, if_neg (by simpa using Ne.symm hb), Nat.add_zero]

theorem Counts.leave (h : Counts (f, groups)) (hin : n ∈ groups) :
    Counts ((f.igmpFilter (htonl n) .del).1, groups.erase n) := by
  have hpos : 0 < groups.countP (hashBin · = hashBin n) :=
    List.countP_pos_iff.mpr ⟨n, hin, by simp⟩
  simp only [HashFilter.igmpFilter, groupBin_htonl]
  rw [if_pos (by rw [h.count]; exact hpos)]
  refine ⟨fun b => ?_, fun b hb => bit_apply _ hb⟩
  change (if b = hashBin n then f.hash_count (hashBin n) - 1 else f.hash_count b) =
    (groups.erase n).countP (hashBin · = b)
  have hperm := (List.perm_cons_erase hin).countP_eq (hashBin · = b)
  rw [List.countP_cons] at hperm
  rw [h.count, h.count]
  by_cases hb : b = hashBin n
  · rw [if_pos (by simpa using hb.symm)] at hperm
    rw [if_pos hb, ← hb, hperm, Nat.add_sub_cancel]
  · rw [if_neg (by simpa using Ne.symm hb), Nat.add_zero] at hperm
    rw [if_neg hb, hperm]

theorem Counts.step {s s' : HashFilter × List (BitVec 32)} (h : Counts s) {a : Membership}
    (hcounted : Counted s a) (hstep : noted.step s a = some s') : Counts s' := by
  obtain ⟨f, groups⟩ := s
  obtain ⟨f', groups'⟩ := s'
  obtain ⟨hf, rfl⟩ := observed_step.mp hstep
  cases a with
  | join n =>
    obtain rfl := Option.some.inj hf
    exact h.join hcounted
  | leave n =>
    obtain rfl := Option.some.inj hf
    exact h.leave hcounted

/-- **A bit of the table is set if and only if a joined group maps to it.** -/
theorem bit_of_reachable {s : HashFilter × List (BitVec 32)} (h : noted.Reachable Counted s) :
    ∀ b < 64, s.1.bit b = true ↔ ∃ n ∈ s.2, hashBin n = b := by
  have hcounts : Counts s := by
    refine invariant (fun s hs => ?_) (fun s a s' hs hc hstep => hs.step hc hstep) h
    obtain ⟨h1, h2⟩ := hs
    rw [← Prod.mk.eta (p := s), h1, h2]
    exact counts_clear
  intro b hb
  rw [hcounts.bit b hb, decide_eq_true_iff, hcounts.count, ← Nat.pos_iff_ne_zero,
    List.countP_pos_iff]
  simp

theorem noted_init : noted.init (.clear, []) := ⟨rfl, rfl⟩

/-- Two groups that differ in the bit that the address loses share a bin, which stays set when the
first of them goes. -/
theorem bit_shared_bin : ∃ s, noted.run Counted (.clear, [])
      [.join 0xE00000FB#32, .join 0xE08000FB#32, .leave 0xE00000FB#32] = some s ∧
    ∀ b < 64, s.1.bit b = true ↔ ∃ n ∈ s.2, hashBin n = b := by
  have hrun : ((noted.run Counted (.clear, [])
      [.join 0xE00000FB#32, .join 0xE08000FB#32, .leave 0xE00000FB#32]).map
      fun s => s.1.bit 48) = some true := by
    decide +kernel
  obtain ⟨s, hs, -⟩ := Option.map_eq_some_iff.mp hrun
  exact ⟨s, hs, bit_of_reachable (reachable_of_run (.init noted_init) hs)⟩

end Ch32h4.Eth
