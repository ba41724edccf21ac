import Ch32h4.Address.IPAddress
import Mathlib.Algebra.Order.Ring.Nat

/-!
# Addresses come back from their texts

**`fromString_printTo`**: both texts of an address, of either kind, are read as that address,
whatever the object held before.

The proof follows the fields of an address rather than its bytes (`word`).  Reading a text of a
field leaves its value in `acc` (`Spells`), whichever way it is written; a row of fields with their
colons is copied into the bytes (`loop6_fields`); and what stands behind a double colon is moved to
the end (`word_clear_move`).
-/

namespace Ch32h4.Address

open Text

/-! ### Bytes and fields -/

variable {a b : Bytes} {i j f w : ℕ} {x : UInt8}

theorem get_put (b : Bytes) (x : UInt8) (hi : i < 16) (j : ℕ) :
    (b.put i x).get j = if i = j then x else b.get j := by
  unfold Bytes.get Bytes.put
  rw [Vector.getElem?_setIfInBounds]
  split <;> rfl

/-- The value of a field. -/
def Bytes.word (b : Bytes) (f : ℕ) : ℕ := (b.get (f * 2)).toNat * 256 + (b.get (f * 2 + 1)).toNat

theorem word_lt (b : Bytes) (f : ℕ) : b.word f < 65536 := by
  have h1 := (b.get (f * 2)).toNat_lt
  have h2 := (b.get (f * 2 + 1)).toNat_lt
  unfold Bytes.word
  omega

theorem word_eq_zero_iff : b.word f = 0 ↔ b.zeroField f := by
  unfold Bytes.word Bytes.zeroField
  rw [← UInt8.toNat_inj, ← UInt8.toNat_inj, UInt8.toNat_zero]
  omega

theorem eq_of_get (h : ∀ i < 16, a.get i = b.get i) : a = b := by
  apply Vector.ext
  intro i hi
  have := h i hi
  unfold Bytes.get at this
  rw [Vector.getElem?_eq_getElem hi, Vector.getElem?_eq_getElem hi] at this
  exact this

/-- An address is its fields. -/
theorem eq_of_word (h : ∀ f < 8, a.word f = b.word f) : a = b := by
  apply eq_of_get
  intro i hi
  have hw := h (i / 2) (by omega)
  unfold Bytes.word at hw
  have h1 := (a.get (i / 2 * 2 + 1)).toNat_lt
  have h2 := (b.get (i / 2 * 2 + 1)).toNat_lt
  rw [← UInt8.toNat_inj]
  rcases Nat.mod_two_eq_zero_or_one i with h0 | h0
  · rw [show i / 2 * 2 = i by omega] at hw h1 h2
    omega
  · rw [show i / 2 * 2 + 1 = i by omega] at hw h1 h2
    omega

theorem word_putField (b : Bytes) (hf : f < 8) (hw : w < 65536) (j : ℕ) :
    (b.putField f w).word j = if f = j then w else b.word j := by
  unfold Bytes.word Bytes.putField
  simp only [get_put _ _ (show f * 2 < 16 by omega), get_put _ _ (show f * 2 + 1 < 16 by omega)]
  by_cases h : f = j
  · subst h
    rw [if_neg (by omega), if_pos rfl, if_pos rfl, if_pos rfl, UInt8.toNat_ofNat',
      UInt8.toNat_ofNat']
    omega
  · rw [if_neg (by omega), if_neg (by omega), if_neg (by omega), if_neg (by omega), if_neg h]

/-! ### Texts of a field -/

/-- The text is read as the value of a field. -/
structure Spells (t : List UInt8) (w : ℕ) : Prop where
  ne_nil : t ≠ []
  head : t.head? ≠ some 58
  loop : ∀ rest colons dc b, loop6 (t ++ rest) 0 colons dc b = loop6 rest w colons dc b

theorem digit_spec : ∀ d < 16, isHex (tolower (digit d)) = true ∧ hexDigit (tolower (digit d)) = d ∧
    digit d ≠ 58 := by decide

theorem le_foldl (ds : List ℕ) (acc : ℕ) : acc ≤ ds.foldl (fun v d => v * 16 + d) acc := by
  induction ds generalizing acc with
  | nil => exact Nat.le_refl _
  | cons d ds ih => exact Nat.le_trans (by omega) (ih (acc * 16 + d))

theorem loop6_hex {c : UInt8} (hc : isHex (tolower c) = true) (address : List UInt8)
    (acc colons : ℕ) (dc : Option ℕ) (b : Bytes) :
    loop6 (c :: address) acc colons dc b =
      if acc * 16 + hexDigit (tolower c) > 65535 then (b, none)
      else loop6 address (acc * 16 + hexDigit (tolower c)) colons dc b := by
  rw [loop6.eq_def]
  exact if_pos hc

theorem loop6_digits (ds : List ℕ) (hds : ∀ d ∈ ds, d < 16) (rest : List UInt8) (colons : ℕ)
    (dc : Option ℕ) (b : Bytes) :
    ∀ acc, ds.foldl (fun v d => v * 16 + d) acc ≤ 65535 →
      loop6 (ds.map digit ++ rest) acc colons dc b =
        loop6 rest (ds.foldl (fun v d => v * 16 + d) acc) colons dc b := by
  induction ds with
  | nil =>
    intro acc _
    rfl
  | cons d ds ih =>
    intro acc h
    have ⟨hd, hds⟩ := List.forall_mem_cons.mp hds
    obtain ⟨h1, h2, -⟩ := digit_spec d hd
    rw [List.foldl_cons] at h ⊢
    have hle := le_foldl ds (acc * 16 + d)
    rw [List.map_cons, List.cons_append, loop6_hex h1, h2, if_neg (by omega), ih hds _ h]

theorem spells_digits (ds : List ℕ) (hds : ∀ d ∈ ds, d < 16) (hne : ds ≠ [])
    (h : ds.foldl (fun v d => v * 16 + d) 0 = w) (hw : w < 65536) : Spells (ds.map digit) w where
  ne_nil := by simpa using hne
  head := by
    obtain ⟨d, ds, rfl⟩ := List.exists_cons_of_ne_nil hne
    have := (digit_spec d (hds d List.mem_cons_self)).2.2
    simpa using this
  loop rest colons dc b := by rw [loop6_digits ds hds rest colons dc b 0 (by omega), h]

/-- The field with all its digits. -/
theorem spells_hex2 (b : Bytes) (f : ℕ) :
    Spells (hex2 (b.get (f * 2)) ++ hex2 (b.get (f * 2 + 1))) (b.word f) := by
  have h1 := (b.get (f * 2)).toNat_lt
  have h2 := (b.get (f * 2 + 1)).toNat_lt
  apply spells_digits [(b.get (f * 2)).toNat / 16, (b.get (f * 2)).toNat % 16,
    (b.get (f * 2 + 1)).toNat / 16, (b.get (f * 2 + 1)).toNat % 16]
  · simp only [List.mem_cons, List.not_mem_nil, or_false, forall_eq_or_imp, forall_eq]
    omega
  · simp
  · simp only [List.foldl_cons, List.foldl_nil, Bytes.word]
    omega
  · exact word_lt b f

/-- The field without the zeros in front. -/
theorem spells_printField (b : Bytes) (f : ℕ) : Spells (b.printField f) (b.word f) := by
  have h1 := (b.get (f * 2)).toNat_lt
  have h2 := (b.get (f * 2 + 1)).toNat_lt
  have hw := word_lt b f
  unfold Bytes.printField
  dsimp only
  generalize hx : (b.get (f * 2)).toNat = x at *
  generalize hy : (b.get (f * 2 + 1)).toNat = y at *
  have hword : b.word f = x * 256 + y := by rw [Bytes.word, hx, hy]
  by_cases hc1 : x / 16 > 0
  · rw [if_pos hc1, if_pos (Or.inl hc1), if_pos (Or.inl hc1)]
    apply spells_digits [x / 16, x % 16, y / 16, y % 16] _ (by simp) _ hw
    · simp only [List.mem_cons, List.not_mem_nil, or_false, forall_eq_or_imp, forall_eq]
      omega
    · simp only [List.foldl_cons, List.foldl_nil]
      omega
  rw [if_neg hc1]
  by_cases hc2 : x % 16 > 0
  · rw [if_pos (Or.inr hc2), if_pos (Or.inr (Or.inl hc2))]
    apply spells_digits [x % 16, y / 16, y % 16] _ (by simp) _ hw
    · simp only [List.mem_cons, List.not_mem_nil, or_false, forall_eq_or_imp, forall_eq]
      omega
    · simp only [List.foldl_cons, List.foldl_nil]
      omega
  rw [if_neg (by omega)]
  by_cases hc3 : y / 16 > 0
  · rw [if_pos (Or.inr (Or.inr hc3))]
    apply spells_digits [y / 16, y % 16] _ (by simp) _ hw
    · simp only [List.mem_cons, List.not_mem_nil, or_false, forall_eq_or_imp, forall_eq]
      omega
    · simp only [List.foldl_cons, List.foldl_nil]
      omega
  · rw [if_neg (by omega)]
    apply spells_digits [y % 16] _ (by simp) _ hw
    · simp only [List.mem_cons, List.not_mem_nil, or_false, forall_eq]
      omega
    · simp only [List.foldl_cons, List.foldl_nil]
      omega

/-! ### Rows of fields -/

/-- Fields of one address, from `k` on, put into another from `c` on. -/
def copyFields (a : Bytes) : Bytes → ℕ → ℕ → ℕ → Bytes
  | b, _, _, 0 => b
  | b, c, k, n + 1 => copyFields a (b.putField c (a.word k)) (c + 1) (k + 1) n

theorem word_copyFields (a : Bytes) (n : ℕ) :
    ∀ (b : Bytes) (c k : ℕ), c + n ≤ 8 → ∀ f,
      (copyFields a b c k n).word f =
        if c ≤ f ∧ f < c + n then a.word (k + (f - c)) else b.word f := by
  induction n with
  | zero =>
    intro b c k h f
    rw [if_neg (by omega)]
    rfl
  | succ n ih =>
    intro b c k h f
    rw [copyFields, ih _ _ _ (by omega), word_putField _ (by omega) (word_lt a k)]
    by_cases h1 : c + 1 ≤ f ∧ f < c + 1 + n
    · rw [if_pos h1, if_pos (by omega)]
      congr 1
      omega
    · rw [if_neg h1]
      by_cases h2 : c = f
      · rw [if_pos h2, if_pos (by omega)]
        congr 1
        omega
      · rw [if_neg h2, if_neg (by omega)]

variable {t : ℕ → List UInt8} {rest : List UInt8}

/-- A colon with another character behind it ends a field. -/
theorem loop6_colon (hne : rest ≠ []) (hh : rest.head? ≠ some 58) {colons : ℕ} (hc : colons ≠ 7)
    (acc : ℕ) (dc : Option ℕ) (b : Bytes) :
    loop6 (58 :: rest) acc colons dc b = loop6 rest 0 (colons + 1) dc (b.putField colons acc) := by
  obtain ⟨d, rest, rfl⟩ := List.exists_cons_of_ne_nil hne
  have hd : d ≠ 58 := by simpa using hh
  rw [loop6, if_neg (by decide), if_pos rfl]
  exact (if_neg hd).trans (if_neg hc)

theorem loop6_fields (ht : ∀ f, Spells (t f) (a.word f)) (hne : rest ≠ [])
    (hh : rest.head? ≠ some 58) (dc : Option ℕ) (n : ℕ) :
    ∀ (b : Bytes) (c k : ℕ), c + n ≤ 7 →
      loop6 ((List.range' k n).flatMap (fun f => t f ++ [58]) ++ rest) 0 c dc b =
        loop6 rest 0 (c + n) dc (copyFields a b c k n) := by
  induction n with
  | zero =>
    intro b c k h
    rfl
  | succ n ih =>
    intro b c k h
    have htail : (List.range' (k + 1) n).flatMap (fun f => t f ++ [58]) ++ rest ≠ [] := by
      simp [hne]
    have hhead :
        ((List.range' (k + 1) n).flatMap (fun f => t f ++ [58]) ++ rest).head? ≠ some 58 := by
      cases n with
      | zero => exact hh
      | succ n =>
        rw [List.range'_succ, List.flatMap_cons, List.append_assoc, List.append_assoc,
          List.head?_append_of_ne_nil _ (ht (k + 1)).ne_nil]
        exact (ht (k + 1)).head
    rw [List.range'_succ, List.flatMap_cons, List.append_assoc, List.append_assoc, (ht k).loop,
      List.singleton_append, loop6_colon htail hhead (by omega), ih _ _ _ (by omega), copyFields]
    congr 1
    omega

/-- A double colon, the first one. -/
theorem loop6_double (hh : rest.head? ≠ some 58) {colons : ℕ} (hc : colons ≠ 7) (acc : ℕ)
    (b : Bytes) :
    loop6 (58 :: 58 :: rest) acc colons none b =
      loop6 rest 0 (colons + 1) (some (colons + if acc = 0 then 0 else 1))
        (b.putField colons acc) := by
  rw [loop6, if_neg (by decide), if_pos rfl]
  exact (if_pos rfl).trans ((if_neg (by simp)).trans ((if_neg hh).trans (if_neg hc)))

/-! ### Behind a double colon -/

theorem get_moveLoop {n d : ℕ} (hn : n ≤ 8) (hd : d ≤ n) (m : ℕ) :
    m ≤ n * 2 - d * 2 → ∀ (b : Bytes) (j : ℕ),
      (moveLoop n d m b).get j =
        if 16 - n * 2 + d * 2 ≤ j ∧ j < 16 - n * 2 + d * 2 + m then b.get (j - (16 - n * 2))
        else b.get j := by
  induction m with
  | zero =>
    intro _ b j
    rw [if_neg (by omega)]
    rfl
  | succ m ih =>
    intro hm b j
    rw [moveLoop, ih (by omega)]
    -- What is read later lies below what has been written.
    simp only [get_put _ _ (show 16 - n * 2 + d * 2 + m < 16 by omega)]
    by_cases h1 : 16 - n * 2 + d * 2 ≤ j ∧ j < 16 - n * 2 + d * 2 + m
    · rw [if_pos h1, if_neg (by omega), if_pos (by omega)]
    · rw [if_neg h1]
      by_cases h2 : 16 - n * 2 + d * 2 + m = j
      · rw [if_pos h2, if_pos (by omega)]
        congr 1
        omega
      · rw [if_neg h2, if_neg (by omega)]

theorem get_clearLoop (count : ℕ) :
    ∀ (b : Bytes) (first : ℕ), first + count ≤ 16 → ∀ j,
      (clearLoop b first count).get j = if first ≤ j ∧ j < first + count then 0 else b.get j := by
  induction count with
  | zero =>
    intro b first h j
    rw [if_neg (by omega)]
    rfl
  | succ count ih =>
    intro b first h j
    have hstep : clearLoop b first (count + 1) = clearLoop (b.put first 0) (first + 1) count := by
      rw [clearLoop, List.range'_succ, List.foldl_cons]
      rfl
    rw [hstep, ih _ _ (by omega), get_put _ _ (by omega)]
    by_cases h1 : first + 1 ≤ j ∧ j < first + 1 + count
    · rw [if_pos h1, if_pos (by omega)]
    · rw [if_neg h1]
      by_cases h2 : first = j
      · rw [if_pos h2, if_pos (by omega)]
      · rw [if_neg h2, if_neg (by omega)]

theorem get_clear_move {n d : ℕ} (hn : n ≤ 8) (hd : d ≤ n) (b : Bytes) (hj : j < 16) :
    (clearLoop (moveLoop n d (n * 2 - d * 2) b) (d * 2) (16 - n * 2)).get j =
      if j < d * 2 then b.get j
      else if j < 16 - n * 2 + d * 2 then 0 else b.get (j - (16 - n * 2)) := by
  rw [get_clearLoop _ _ _ (by omega), get_moveLoop hn hd _ (Nat.le_refl _)]
  split_ifs <;> first | rfl | (exfalso; omega)

/-- The fields from `d` on, of `n` that have been read, are moved to the end. -/
theorem word_clear_move {n d : ℕ} (hn : n ≤ 8) (hd : d ≤ n) (b : Bytes) (hf : f < 8) :
    (clearLoop (moveLoop n d (n * 2 - d * 2) b) (d * 2) (16 - n * 2)).word f =
      if f < d then b.word f else if f < 8 - n + d then 0 else b.word (f - (8 - n)) := by
  have hget : ∀ k < 2,
      (clearLoop (moveLoop n d (n * 2 - d * 2) b) (d * 2) (16 - n * 2)).get (f * 2 + k) =
        if f < d then b.get (f * 2 + k)
        else if f < 8 - n + d then 0 else b.get ((f - (8 - n)) * 2 + k) := by
    intro k hk
    rw [get_clear_move hn hd b (by omega)]
    split_ifs <;> first | rfl | (exfalso; omega) | (congr 1; omega)
  have h0 := hget 0 (by omega)
  have h1 := hget 1 (by omega)
  rw [Nat.add_zero, Nat.add_zero] at h0
  by_cases h : f < d
  · rw [if_pos h] at h0 h1 ⊢
    rw [Bytes.word, h0, h1, Bytes.word]
  · rw [if_neg h] at h0 h1 ⊢
    by_cases h' : f < 8 - n + d
    · rw [if_pos h'] at h0 h1 ⊢
      rw [Bytes.word, h0, h1]
      rfl
    · rw [if_neg h'] at h0 h1 ⊢
      rw [Bytes.word, h0, h1, Bytes.word]

/-! ### Reading a whole text -/

/-- All fields. -/
def fullText (t : ℕ → List UInt8) : List UInt8 :=
  (List.range' 0 7).flatMap (fun f => t f ++ [58]) ++ t 7

theorem fromString6_fullText (ht : ∀ f, Spells (t f) (a.word f)) (o : IPAddress) :
    o.fromString6 (fullText t) = (true, ⟨.IPv6, a⟩) := by
  have hloop : loop6 (fullText t) 0 0 none o.bytes =
      (copyFields a o.bytes 0 0 7, some (a.word 7, 7, none)) := by
    rw [fullText, loop6_fields ht (ht 7).ne_nil (ht 7).head none 7 _ _ _ (Nat.le_refl _)]
    have := (ht 7).loop [] 7 none (copyFields a o.bytes 0 0 7)
    rw [List.append_nil] at this
    exact this
  have hbytes : (copyFields a o.bytes 0 0 7).putField 7 (a.word 7) = a := by
    apply eq_of_word
    intro f hf
    rw [word_putField _ (by omega) (word_lt a 7), word_copyFields _ _ _ _ _ (by omega)]
    split
    · rename_i h
      rw [h]
    · rw [if_pos (by omega)]
      congr 1
      omega
  rw [IPAddress.fromString6, hloop]
  dsimp only
  rw [if_neg (by simp), if_neg (by simp), hbytes]

/-- The fields with `l` of them, from `s` on, left out. -/
def shortText (t : ℕ → List UInt8) (s l : ℕ) : List UInt8 :=
  (if s = 0 then [] else (List.range' 0 (s - 1)).flatMap (fun f => t f ++ [58]) ++ t (s - 1)) ++
    58 :: 58 :: (if s + l = 8 then []
      else (List.range' (s + l) (7 - (s + l))).flatMap (fun f => t f ++ [58]) ++ t 7)

theorem head?_append_text (ht : ∀ f, Spells (t f) (a.word f)) (f : ℕ) (rest : List UInt8) :
    (t f ++ rest).head? ≠ some 58 := by
  rw [List.head?_append_of_ne_nil _ (ht f).ne_nil]
  exact (ht f).head

/-- Up to the double colon: `c` fields are read, and those from `d` on are to be moved. -/
theorem loop6_before (ht : ∀ f, Spells (t f) (a.word f)) {s : ℕ} (hs : s ≤ 6)
    {post : List UInt8} (hpost : post.head? ≠ some 58) (b₀ : Bytes) :
    ∃ d b, loop6 ((if s = 0 then []
          else (List.range' 0 (s - 1)).flatMap (fun f => t f ++ [58]) ++ t (s - 1)) ++
        58 :: 58 :: post) 0 0 none b₀ = loop6 post 0 (max s 1) (some d) b ∧ d ≤ s ∧
      (∀ f < d, b.word f = a.word f) ∧ (∀ f, d ≤ f → f < s → a.word f = 0) ∧
      ∀ f, d ≤ f → f < max s 1 → b.word f = 0 := by
  by_cases h0 : s = 0
  · refine ⟨0, b₀.putField 0 0, ?_, by omega, by omega, by omega, ?_⟩
    · rw [if_pos h0, List.nil_append, loop6_double hpost (by omega), h0]
      rfl
    · intro f _ hf
      obtain rfl : f = 0 := by omega
      rw [word_putField _ (by omega) (by omega), if_pos rfl]
  · have hword := fun f => word_copyFields a (s - 1) b₀ 0 0 (by omega) f
    refine ⟨s - 1 + if a.word (s - 1) = 0 then 0 else 1,
      (copyFields a b₀ 0 0 (s - 1)).putField (s - 1) (a.word (s - 1)), ?_, ?_, ?_, ?_, ?_⟩
    · rw [if_neg h0, List.append_assoc, loop6_fields ht (by simp) (head?_append_text ht _ _) none
        (s - 1) b₀ 0 0 (by omega), (ht (s - 1)).loop, loop6_double hpost (by omega), Nat.zero_add]
      congr 1
      omega
    · split <;> omega
    · intro f hf
      rw [word_putField _ (by omega) (word_lt a _), hword]
      by_cases h1 : s - 1 = f
      · rw [if_pos h1, h1]
      · rw [if_neg h1, if_pos (by split at hf <;> omega)]
        congr 1
        omega
    · intro f hd hf
      split at hd
      · rename_i hz
        rwa [show f = s - 1 by omega]
      · omega
    · intro f hd hf
      split at hd
      · rename_i hz
        obtain rfl : s - 1 = f := by omega
        rw [word_putField _ (by omega) (word_lt a _), if_pos rfl, hz]
      · omega

/-- Behind the double colon: `n` fields are there when the last one is put. -/
theorem loop6_after (ht : ∀ f, Spells (t f) (a.word f)) {c d k : ℕ} (hk : k ≤ 8) (hck : c < k)
    (hc : 1 ≤ c) (hz : k = 8 → a.word 7 = 0) (b : Bytes) :
    ∃ acc n b', loop6 (if k = 8 then []
          else (List.range' k (7 - k)).flatMap (fun f => t f ++ [58]) ++ t 7) 0 c (some d) b =
        (b', some (acc, n, some d)) ∧ n = (if k = 8 then c else c + (7 - k)) ∧
      ∀ f, (b'.putField n acc).word f =
        if c ≤ f ∧ f < n + 1 then a.word (7 - n + f) else b.word f := by
  by_cases h8 : k = 8
  · refine ⟨0, c, b, by rw [if_pos h8]; rfl, (if_pos h8).symm, ?_⟩
    intro f
    rw [word_putField _ (by omega) (by omega)]
    by_cases hf : c = f
    · rw [if_pos hf, if_pos (by omega), show 7 - c + f = 7 by omega, hz h8]
    · rw [if_neg hf, if_neg (by omega)]
  · refine ⟨a.word 7, c + (7 - k), copyFields a b c k (7 - k), ?_, (if_neg h8).symm, ?_⟩
    · rw [if_neg h8, loop6_fields ht (ht 7).ne_nil (ht 7).head _ _ _ _ _ (by omega)]
      have := (ht 7).loop [] (c + (7 - k)) (some d) (copyFields a b c k (7 - k))
      rw [List.append_nil] at this
      exact this
    · intro f
      rw [word_putField _ (by omega) (word_lt a 7), word_copyFields _ _ _ _ _ (by omega)]
      by_cases h1 : c + (7 - k) = f
      · rw [if_pos h1, if_pos (by omega)]
        congr 1
        omega
      · rw [if_neg h1]
        by_cases h2 : c ≤ f ∧ f < c + (7 - k)
        · rw [if_pos h2, if_pos (by omega)]
          congr 1
          omega
        · rw [if_neg h2, if_neg (by omega)]

theorem fromString6_shortText (ht : ∀ f, Spells (t f) (a.word f)) {s l : ℕ} (hl : 2 ≤ l)
    (hsl : s + l ≤ 8) (hz : ∀ f, s ≤ f → f < s + l → a.word f = 0) (o : IPAddress) :
    o.fromString6 (shortText t s l) = (true, ⟨.IPv6, a⟩) := by
  have hpost : (if s + l = 8 then [] else (List.range' (s + l) (7 - (s + l))).flatMap
      (fun f => t f ++ [58]) ++ t 7).head? ≠ some 58 := by
    split
    · simp
    · cases hm : 7 - (s + l) with
      | zero => exact (ht 7).head
      | succ m =>
        rw [List.range'_succ, List.flatMap_cons, List.append_assoc, List.append_assoc]
        exact head?_append_text ht _ _
  obtain ⟨d, b, hbefore, hds, hcopied, hsame, hzero⟩ :=
    loop6_before ht (show s ≤ 6 by omega) hpost o.bytes
  have hlt : max s 1 < s + l := by omega
  have h8 : s + l = 8 → a.word 7 = 0 := fun h => hz 7 (by omega) (by omega)
  obtain ⟨acc, n, b', hafter, hn, hword⟩ :=
    loop6_after (d := d) ht hsl hlt (Nat.le_max_right s 1) h8 b
  have hn6 : n ≤ 6 ∧ max s 1 ≤ n ∧ 8 - (n + 1) + max s 1 ≤ s + l := by
    split at hn <;> omega
  clear hn
  have hbytes : clearLoop (moveLoop (n + 1) d ((n + 1) * 2 - d * 2) (b'.putField n acc)) (d * 2)
      (16 - (n + 1) * 2) = a := by
    apply eq_of_word
    intro f hf
    rw [word_clear_move (by omega) (by omega) _ hf]
    by_cases h1 : f < d
    · rw [if_pos h1, hword, if_neg (by omega), hcopied f h1]
    rw [if_neg h1]
    -- A field that is zero in both.
    have hzf : f < s + l → a.word f = 0 := by
      intro h
      by_cases hfs : f < s
      · exact hsame f (by omega) hfs
      · exact hz f (by omega) h
    by_cases h2 : f < 8 - (n + 1) + d
    · rw [if_pos h2, hzf (by omega)]
    rw [if_neg h2, hword]
    by_cases h3 : max s 1 ≤ f - (8 - (n + 1)) ∧ f - (8 - (n + 1)) < n + 1
    · rw [if_pos h3]
      congr 1
      omega
    · rw [if_neg h3, hzero _ (by omega) (by omega), hzf (by omega)]
  rw [IPAddress.fromString6, shortText, hbefore, hafter]
  dsimp only
  rw [if_neg (by simp), if_neg (by omega), hbytes]

/-! ### The run that is left out -/

/-- After the fields below `k` the runs are runs of zero fields, and the longest has two or more. -/
structure RunsSpec (b : Bytes) (k : ℕ) (r : Runs) : Prop where
  current : ∀ s, r.currentStart = some s →
    s + r.currentLength = k ∧ ∀ f, s ≤ f → f < k → b.zeroField f
  longest : ∀ s, r.longestStart = some s → 2 ≤ r.longestLength ∧ s + r.longestLength ≤ k ∧
    ∀ f, s ≤ f → f < s + r.longestLength → b.zeroField f
  pos : 1 ≤ r.longestLength

theorem RunsSpec.look {k : ℕ} {r : Runs} (h : RunsSpec b k r) :
    RunsSpec b (k + 1) (r.look b k) := by
  have hlongest : ∀ s, r.longestStart = some s → 2 ≤ r.longestLength ∧
      s + r.longestLength ≤ k + 1 ∧ ∀ f, s ≤ f → f < s + r.longestLength → b.zeroField f := by
    intro s hs
    have ⟨h1, h2, h3⟩ := h.longest s hs
    exact ⟨h1, by omega, h3⟩
  unfold Runs.look
  by_cases hz : b.zeroField k
  · rw [if_pos hz]
    -- The run that `k` is the last field of.
    have hrun : ∀ s n, s + n = k + 1 → (∀ f, s ≤ f → f < k → b.zeroField f) →
        RunsSpec b (k + 1) (if n > r.longestLength then ⟨some s, n, some s, n⟩
          else ⟨r.longestStart, r.longestLength, some s, n⟩) := by
      intro s n hn hs
      have hall : ∀ f, s ≤ f → f < k + 1 → b.zeroField f := by
        intro f h1 h2
        by_cases hf : f = k
        · exact hf ▸ hz
        · exact hs f h1 (by omega)
      have hpos := h.pos
      split
      · refine ⟨?_, ?_, by dsimp only; omega⟩
        · rintro _ ⟨⟩
          exact ⟨hn, hall⟩
        · rintro _ ⟨⟩
          exact ⟨by dsimp only; omega, by dsimp only; omega, fun f h1 h2 => hall f h1 (by
            dsimp only at h2; omega)⟩
      · refine ⟨?_, hlongest, hpos⟩
        rintro _ ⟨⟩
        exact ⟨hn, hall⟩
    cases hc : r.currentStart with
    | none => exact hrun k 1 rfl (fun f h1 h2 => absurd h1 (by omega))
    | some s =>
      have ⟨h1, h2⟩ := h.current s hc
      exact hrun s (r.currentLength + 1) (by omega) h2
  · rw [if_neg hz]
    exact ⟨(fun s hs => nomatch hs), hlongest, h.pos⟩

theorem runsSpec (b : Bytes) : RunsSpec b 8 b.runs := by
  have h : ∀ k, RunsSpec b k ((List.range k).foldl (Runs.look b) ⟨none, 1, none, 0⟩) := by
    intro k
    induction k with
    | zero => exact ⟨(fun s hs => nomatch hs), (fun s hs => nomatch hs), Nat.le_refl 1⟩
    | succ k ih =>
      rw [List.range_succ, List.foldl_append]
      exact ih.look
  exact h 8

/-! ### Printing -/

theorem flatMap_range (t : ℕ → List UInt8) :
    (List.range 8).flatMap (fun f => t f ++ if f < 7 then [58] else []) = fullText t := by
  simp [fullText, List.range_succ, List.range'_succ]

theorem flatMap_printTurn_none (h : b.runs.longestStart = none) :
    (List.range 8).flatMap (b.printTurn b.runs) = fullText b.printField := by
  rw [← flatMap_range]
  congr 1
  funext f
  rw [Bytes.printTurn, h]

/-- The fields in front of a run, the two colons for it, and the fields behind it. -/
theorem flatMap_short {t g : ℕ → List UInt8} {s l : ℕ} (hl : 1 ≤ l) (hsl : s + l ≤ 8)
    (hbefore : ∀ f < s, g f = t f ++ [58]) (hrun : g s = (if s = 0 then [58] else []) ++ [58])
    (hin : ∀ f, s < f → f < s + l → g f = [])
    (hafter : ∀ f, s + l ≤ f → g f = t f ++ if f < 7 then [58] else []) :
    (List.range 8).flatMap g = shortText t s l := by
  have hsplit : List.range 8 = List.range' 0 s ++ (s :: List.range' (s + 1) (l - 1) ++
      List.range' (s + l) (8 - (s + l))) := by
    rw [← List.range'_succ, show l - 1 + 1 = l by omega, List.range_eq_range']
    have h1 := @List.range'_append_1 s l (8 - (s + l))
    have h2 := @List.range'_append_1 0 s (8 - s)
    rw [Nat.zero_add] at h2
    rw [h1, show l + (8 - (s + l)) = 8 - s by omega, h2]
    congr 1
    omega
  have hfront : (List.range' 0 s).flatMap g = (List.range' 0 s).flatMap (fun f => t f ++ [58]) := by
    apply List.flatMap_congr
    intro f hf
    exact hbefore f (by rw [List.mem_range'_1] at hf; omega)
  have hmid : (List.range' (s + 1) (l - 1)).flatMap g = [] := by
    rw [List.flatMap_eq_nil_iff]
    intro f hf
    rw [List.mem_range'_1] at hf
    exact hin f (by omega) (by omega)
  have hback : (List.range' (s + l) (8 - (s + l))).flatMap g = if s + l = 8 then []
      else (List.range' (s + l) (7 - (s + l))).flatMap (fun f => t f ++ [58]) ++ t 7 := by
    split
    · rename_i h
      rw [h]
      rfl
    · have hlast :
          List.range' (s + l) (8 - (s + l)) = List.range' (s + l) (7 - (s + l)) ++ [7] := by
        rw [show 8 - (s + l) = 7 - (s + l) + 1 by omega, List.range'_concat]
        congr 2
        omega
      rw [hlast, List.flatMap_append, List.flatMap_singleton, hafter 7 (by omega),
        if_neg (by omega), List.append_nil]
      congr 1
      apply List.flatMap_congr
      intro f hf
      rw [List.mem_range'_1] at hf
      rw [hafter f (by omega), if_pos (by omega)]
  rw [hsplit, List.flatMap_append, List.flatMap_append, List.flatMap_cons, hfront, hmid, hback,
    hrun, shortText]
  by_cases h0 : s = 0
  · subst h0
    simp
  · have hconcat : List.range' 0 s = List.range' 0 (s - 1) ++ [s - 1] := by
      conv_lhs => rw [show s = s - 1 + 1 by omega]
      rw [List.range'_concat]
      simp
    rw [hconcat]
    simp [h0, List.flatMap_append]

theorem flatMap_printTurn_some {s : ℕ} (h : b.runs.longestStart = some s)
    (hl : 2 ≤ b.runs.longestLength) (hsl : s + b.runs.longestLength ≤ 8) :
    (List.range 8).flatMap (b.printTurn b.runs) =
      shortText b.printField s b.runs.longestLength := by
  apply flatMap_short (by omega) hsl
  · intro f hf
    rw [Bytes.printTurn, h]
    dsimp only
    rw [if_pos (Or.inl hf), if_pos (by omega)]
  · rw [Bytes.printTurn, h]
    dsimp only
    rw [if_neg (by omega), if_pos rfl]
  · intro f h1 h2
    rw [Bytes.printTurn, h]
    dsimp only
    rw [if_neg (by omega), if_neg (by omega)]
  · intro f hf
    rw [Bytes.printTurn, h]
    dsimp only
    rw [if_pos (Or.inr hf)]

/-! ### IPv4 -/

theorem decimal_digit_spec : ∀ d < 10, (48 ≤ digit d ∧ digit d ≤ 57) ∧
    (digit d).toNat - 48 = d := by decide

theorem le_foldl_ten (ds : List ℕ) (acc : ℕ) : acc ≤ ds.foldl (fun v d => v * 10 + d) acc := by
  induction ds generalizing acc with
  | nil => exact Nat.le_refl _
  | cons d ds ih => exact Nat.le_trans (by omega) (ih (acc * 10 + d))

theorem loop4_digits (ds : List ℕ) (hds : ∀ d ∈ ds, d < 10) (rest : List UInt8) (dots : ℕ)
    (b : Bytes) :
    ∀ acc, ds.foldl (fun v d => v * 10 + d) acc ≤ 255 →
      loop4 (ds.map digit ++ rest) (some acc) dots b =
        loop4 rest (some (ds.foldl (fun v d => v * 10 + d) acc)) dots b := by
  induction ds with
  | nil =>
    intro acc _
    rfl
  | cons d ds ih =>
    intro acc h
    have ⟨hd, hds⟩ := List.forall_mem_cons.mp hds
    have ⟨h1, h2⟩ := decimal_digit_spec d hd
    rw [List.foldl_cons] at h ⊢
    have hle := le_foldl_ten ds (acc * 10 + d)
    rw [List.map_cons, List.cons_append, loop4, if_pos h1, h2]
    dsimp only
    rw [if_neg (by omega), ih hds _ h]

/-- The first digit of a number. -/
theorem loop4_first {d : ℕ} (hd : d < 10) (rest : List UInt8) (dots : ℕ) (b : Bytes) :
    loop4 (digit d :: rest) none dots b = loop4 rest (some d) dots b := by
  have ⟨h1, h2⟩ := decimal_digit_spec d hd
  rw [loop4, if_pos h1, h2]
  exact if_neg (by omega)

theorem loop4_decimal (x : UInt8) (rest : List UInt8) (dots : ℕ) (b : Bytes) :
    loop4 (decimal x ++ rest) none dots b = loop4 rest (some x.toNat) dots b := by
  have hx := x.toNat_lt
  unfold decimal
  generalize x.toNat = n at *
  by_cases h100 : 100 ≤ n
  · rw [if_pos h100, if_pos (by omega)]
    have := loop4_digits [n / 10 % 10, n % 10] (by simp; omega) rest dots b (n / 100)
      (by simp only [List.foldl_cons, List.foldl_nil]; omega)
    refine (loop4_first (by omega) _ dots b).trans (this.trans ?_)
    simp only [List.foldl_cons, List.foldl_nil]
    congr 2
    omega
  rw [if_neg h100]
  by_cases h10 : 10 ≤ n
  · rw [if_pos h10]
    have := loop4_digits [n % 10] (by simp; omega) rest dots b (n / 10 % 10)
      (by simp only [List.foldl_cons, List.foldl_nil]; omega)
    refine (loop4_first (by omega) _ dots b).trans (this.trans ?_)
    simp only [List.foldl_cons, List.foldl_nil]
    congr 2
    omega
  · rw [if_neg h10]
    refine (loop4_first (by omega) _ dots b).trans ?_
    rw [Nat.mod_eq_of_lt (by omega)]
    rfl

theorem loop4_dot {acc dots : ℕ} (hd : dots ≠ 3) (rest : List UInt8) (b : Bytes) :
    loop4 (46 :: rest) (some acc) dots b =
      loop4 rest none (dots + 1) (b.put (v4Index + dots) (UInt8.ofNat acc)) := by
  rw [loop4, if_neg (by decide), if_pos rfl, if_neg hd]

/-- A colon is not part of an IPv4 address. -/
theorem loop4_colon (text : List UInt8) (h : 58 ∈ text) :
    ∀ acc dots b, (loop4 text acc dots b).2 = none := by
  induction text with
  | nil => exact absurd h List.not_mem_nil
  | cons c text ih =>
    intro acc dots b
    rw [loop4.eq_def]
    dsimp only
    by_cases hd : 48 ≤ c ∧ c ≤ 57
    · have hmem : 58 ∈ text := by
        rcases List.mem_cons.mp h with rfl | h
        · exact absurd hd (by decide)
        · exact h
      rw [if_pos hd]
      split <;> (split; rfl; exact ih hmem _ _ _)
    · rw [if_neg hd]
      by_cases hdot : c = 46
      · have hmem : 58 ∈ text := by
          rcases List.mem_cons.mp h with rfl | h
          · exact absurd hdot (by decide)
          · exact h
        rw [if_pos hdot]
        split
        · rfl
        · split
          · rfl
          · exact ih hmem _ _ _
      · rw [if_neg hdot]

/-! ### Addresses -/

/-- The bytes that an IPv4 address does not use are zero, as every constructor leaves them. -/
def IPAddress.Proper (a : IPAddress) : Prop := a.type = .IPv4 → ∀ i < v4Index, a.bytes.get i = 0

theorem fromString4_toString4 (o a : IPAddress) (ht : a.type = .IPv4) (ha : a.Proper) :
    o.fromString4 a.toString4 = (true, a) := by
  have hloop : loop4 a.toString4 none 0 Bytes.zero =
      (((Bytes.zero.put v4Index (a.bytes.get v4Index)).put (v4Index + 1)
        (a.bytes.get (v4Index + 1))).put (v4Index + 2) (a.bytes.get (v4Index + 2)),
        some (some (a.bytes.get (v4Index + 3)).toNat, 3)) := by
    have h3 := loop4_decimal (a.bytes.get (v4Index + 3)) [] 3
    simp only [List.append_nil] at h3
    simp only [IPAddress.toString4, List.append_assoc, List.cons_append, List.nil_append]
    rw [loop4_decimal, loop4_dot (by omega), loop4_decimal, loop4_dot (by omega), loop4_decimal,
      loop4_dot (by omega), h3]
    simp only [UInt8.ofNat_toNat]
    rfl
  have hbytes : (((Bytes.zero.put v4Index (a.bytes.get v4Index)).put (v4Index + 1)
      (a.bytes.get (v4Index + 1))).put (v4Index + 2) (a.bytes.get (v4Index + 2))).put (v4Index + 3)
      (a.bytes.get (v4Index + 3)) = a.bytes := by
    apply eq_of_get
    intro i hi
    rw [get_put _ _ (by decide), get_put _ _ (by decide), get_put _ _ (by decide),
      get_put _ _ (by decide)]
    by_cases h3 : v4Index + 3 = i
    · rw [if_pos h3, h3]
    by_cases h2 : v4Index + 2 = i
    · rw [if_neg h3, if_pos h2, h2]
    by_cases h1 : v4Index + 1 = i
    · rw [if_neg h3, if_neg h2, if_pos h1, h1]
    by_cases h0 : v4Index = i
    · rw [if_neg h3, if_neg h2, if_neg h1, if_pos h0, h0]
    have hlt : i < v4Index := by
      unfold v4Index at *
      omega
    have hzero : Bytes.zero.get i = 0 := by
      rw [Bytes.get, Bytes.zero, Vector.getElem?_replicate, if_pos hi]
      rfl
    rw [if_neg h3, if_neg h2, if_neg h1, if_neg h0, ha ht i hlt, hzero]
  rw [IPAddress.fromString4, hloop]
  dsimp only
  rw [if_neg (by simp), UInt8.ofNat_toNat, hbytes, ← ht]

/-- A text with a colon in it is read as an IPv6 address. -/
theorem fromString_of_colon {text : List UInt8} (h : 58 ∈ text)
    (hread : ∀ o : IPAddress, o.fromString6 text = (true, ⟨.IPv6, a⟩)) (o : IPAddress) :
    o.fromString text = (true, ⟨.IPv6, a⟩) := by
  have h4 := loop4_colon text h none 0 Bytes.zero
  rw [IPAddress.fromString, IPAddress.fromString4]
  cases hl : loop4 text none 0 Bytes.zero with
  | mk b r =>
    rw [hl] at h4
    obtain rfl : r = none := h4
    exact hread _

theorem colon_mem_fullText (t : ℕ → List UInt8) : 58 ∈ fullText t := by
  apply List.mem_append_left
  rw [List.mem_flatMap]
  exact ⟨0, by simp, by simp⟩

theorem colon_mem_shortText (t : ℕ → List UInt8) (s l : ℕ) : 58 ∈ shortText t s l :=
  List.mem_append_right _ List.mem_cons_self

/-- **An address comes back from its texts**, whatever the object held that reads them. -/
theorem fromString_printTo (a : IPAddress) (ha : a.Proper) (o : IPAddress) :
    o.fromString a.printTo = (true, a) ∧ o.fromString a.toString = (true, a) := by
  obtain ⟨type, bytes⟩ := a
  cases type with
  | IPv4 =>
    have h : o.fromString (IPAddress.toString4 ⟨.IPv4, bytes⟩) = (true, ⟨.IPv4, bytes⟩) := by
      rw [IPAddress.fromString, fromString4_toString4 o _ rfl ha]
    exact ⟨h, h⟩
  | IPv6 =>
    constructor
    · rw [IPAddress.printTo]
      cases hr : bytes.runs.longestStart with
      | none =>
        dsimp only
        rw [flatMap_printTurn_none hr]
        exact fromString_of_colon (colon_mem_fullText _)
          (fromString6_fullText (spells_printField bytes)) o
      | some s =>
        obtain ⟨hl, hsl, hz⟩ := (runsSpec bytes).longest s hr
        dsimp only
        rw [flatMap_printTurn_some hr hl hsl]
        exact fromString_of_colon (colon_mem_shortText _ _ _) (fromString6_shortText
          (spells_printField bytes) hl hsl (fun f h1 h2 => word_eq_zero_iff.mpr (hz f h1 h2))) o
    · have htext : IPAddress.toString ⟨.IPv6, bytes⟩ =
          fullText (fun f => hex2 (bytes.get (f * 2)) ++ hex2 (bytes.get (f * 2 + 1))) :=
        flatMap_range (fun f => hex2 (bytes.get (f * 2)) ++ hex2 (bytes.get (f * 2 + 1)))
      rw [htext]
      exact fromString_of_colon (colon_mem_fullText _)
        (fromString6_fullText (spells_hex2 bytes)) o

/-- `fe80::1`. -/
theorem fromString_printTo_fe80 :
    (⟨.IPv4, Bytes.zero⟩ : IPAddress).fromString
      (IPAddress.printTo ⟨.IPv6, (Bytes.zero.putField 0 0xfe80).putField 7 1⟩) =
      (true, ⟨.IPv6, (Bytes.zero.putField 0 0xfe80).putField 7 1⟩) :=
  (fromString_printTo _ (by intro h; cases h) _).1

end Ch32h4.Address
