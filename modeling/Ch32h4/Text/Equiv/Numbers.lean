import Ch32h4.Text.Equiv.Chunks
import Mathlib.Data.List.Basic

/-!
# Numbers that are read where they were written

`parseInt` adds the character of a digit before it takes the `'0'` away again, and a `long` has no
room for that near its largest values.  So a number that `print` writes comes back exactly if it is
below `2^31 - 48` in size, and what happens with the others is not defined
(`parseInts_printAll`).  `toInt` gives back whatever `String(long)` writes.
-/

namespace Ch32h4.Text

variable {ignore : UInt8} {rest junk : List UInt8} {n : ℤ}

/-- The character of a decimal digit. -/
def digitChar (d : ℕ) : UInt8 := UInt8.ofNat (48 + d)

theorem digitChar_spec : ∀ d < 10, isDigit (digitChar d) = true ∧ (digitChar d).toNat = 48 + d ∧
    upperDigit d = digitChar d ∧ lowerDigit d = digitChar d := by
  decide

theorem map_upperDigit {ds : List ℕ} (h : ∀ d ∈ ds, d < 10) :
    ds.map upperDigit = ds.map digitChar :=
  List.map_congr_left fun d hd => (digitChar_spec d (h d hd)).2.2.1

theorem map_lowerDigit {ds : List ℕ} (h : ∀ d ∈ ds, d < 10) :
    ds.map lowerDigit = ds.map digitChar :=
  List.map_congr_left fun d hd => (digitChar_spec d (h d hd)).2.2.2

theorem digit_spec : ∀ i : Fin 256, isDigit (UInt8.ofFin i) = true → UInt8.ofFin i ≠ 45 ∧
    UInt8.ofFin i ≠ 43 ∧ UInt8.ofFin i ≠ 0 ∧ isspace (UInt8.ofFin i) = false := by
  decide +kernel

theorem ne_of_isDigit {c : UInt8} (hc : isDigit c = true) :
    c ≠ 45 ∧ c ≠ 43 ∧ c ≠ 0 ∧ isspace c = false :=
  digit_spec c.toFin hc

/-- The value of digits after those that have made up `v`. -/
def value (v : ℕ) (ds : List ℕ) : ℕ := ds.foldl (fun v d => v * 10 + d) v

theorem le_value (v : ℕ) (ds : List ℕ) : v ≤ value v ds := by
  induction ds generalizing v with
  | nil => exact le_rfl
  | cons d ds ih =>
    refine le_trans ?_ (ih (v * 10 + d))
    omega

theorem value_digitsOf (n : ℕ) : value 0 (digitsOf 10 n) = n := by
  rw [value, digitsOf]
  split
  · rename_i hn
    rw [hn]
    rfl
  · rw [List.foldl_reverse]
    have h := Nat.ofDigits_digits 10 n
    rw [Nat.ofDigits_eq_foldr] at h
    refine Eq.trans ?_ h
    congr 1
    funext d v
    rw [Nat.cast_id]
    ring

theorem digitsOf_ne_nil (b n : ℕ) : digitsOf b n ≠ [] := by
  rw [digitsOf]
  split
  · simp
  · rename_i hn
    rw [ne_eq, List.reverse_eq_nil_iff]
    exact Nat.digits_ne_nil_iff_ne_zero.mpr hn

theorem lt_ten_of_mem {n d : ℕ} (h : d ∈ digitsOf 10 n) : d < 10 :=
  lt_of_mem_digitsOf (by norm_num) h

/-! ### Reading the digits -/

/-- The number ends where `rest` begins. -/
structure Stops (ignore : UInt8) (rest : List UInt8) : Prop where
  digit : isDigit ignore = false
  minus : ignore ≠ 45
  timeout : rest = [] → ignore ≠ 255
  head : ∀ c ∈ rest.head?, isDigit c = false ∧ c ≠ ignore

theorem long_eq (h : -2 ^ 31 ≤ n ∧ n < 2 ^ 31) : long n = some n := if_pos h

theorem long_eq_none (h : 2 ^ 31 ≤ n) : long n = none := if_neg (by omega)

theorem parseChar_digit {d : ℕ} (hd : d < 10) (hignore : isDigit ignore = false) (neg : Bool)
    (v : ℕ) : parseChar ignore (digitChar d) neg v =
      if v * 10 + d + 48 < 2 ^ 31 then some (neg, ((v * 10 + d : ℕ) : ℤ)) else none := by
  obtain ⟨hdigit, hnat, -⟩ := digitChar_spec d hd
  have hne : digitChar d ≠ ignore := by
    rintro rfl
    rw [hdigit] at hignore
    exact Bool.noConfusion hignore
  rw [parseChar, if_neg hne, if_neg (ne_of_isDigit hdigit).1, if_pos hdigit, hnat]
  split
  · rw [long_eq (by omega), Option.bind_eq_bind, Option.bind_some, long_eq (by push_cast; omega),
      Option.bind_some, long_eq (by push_cast; omega), Option.bind_some]
    congr 2
    push_cast
    ring
  · -- the product has no room, or the sum with the character
    by_cases h10 : v * 10 < 2 ^ 31
    · rw [long_eq (by omega), Option.bind_eq_bind, Option.bind_some,
        long_eq_none (by push_cast; omega)]
      rfl
    · rw [long_eq_none (by omega)]
      rfl

theorem Stops.goesOn (hstop : Stops ignore rest) : goesOn ignore rest = false := by
  cases rest with
  | nil => exact decide_eq_false (hstop.timeout rfl)
  | cons c rest =>
    obtain ⟨hc, hci⟩ := hstop.head c rfl
    rw [Text.goesOn, hc]
    simpa using hci

theorem goesOn_digit {d : ℕ} (hd : d < 10) (bytes : List UInt8) :
    goesOn ignore (digitChar d :: bytes) = true := by
  rw [goesOn, (digitChar_spec d hd).1]
  simp

theorem parseLoop_digits (ds : List ℕ) (hds : ∀ d ∈ ds, d < 10) (hne : ds ≠ [])
    (hstop : Stops ignore rest) (neg : Bool) (v : ℕ) :
    parseLoop ignore (ds.map digitChar ++ rest) neg v =
      if value v ds + 48 < 2 ^ 31 then
        some (if neg then -(value v ds : ℤ) else value v ds, rest) else none := by
  induction ds generalizing v with
  | nil => exact absurd rfl hne
  | cons d ds ih =>
    have hle : v * 10 + d ≤ value v (d :: ds) := le_value (v * 10 + d) ds
    rw [List.map_cons, List.cons_append, parseLoop,
      parseChar_digit (hds d List.mem_cons_self) hstop.digit]
    by_cases hfit : v * 10 + d + 48 < 2 ^ 31
    · rw [if_pos hfit, Option.bind_eq_bind, Option.bind_some]
      cases ds with
      | nil =>
        have hv : value v [d] = v * 10 + d := rfl
        rw [List.map_nil, List.nil_append, hv, if_pos hfit]
        dsimp only
        rw [hstop.goesOn, if_neg Bool.false_ne_true]
        cases neg with
        | false => rfl
        | true =>
          rw [if_pos rfl, if_pos rfl, long_eq (by omega)]
          rfl
      | cons e ds =>
        rw [List.map_cons, List.cons_append]
        dsimp only
        rw [goesOn_digit (hds e (by simp)), if_pos rfl]
        exact ih (fun x hx => hds x (List.mem_cons_of_mem _ hx)) (by simp) (v * 10 + d)
    · rw [if_neg hfit, if_neg (by omega)]
      rfl

/-- A character that does not belong to a number. -/
def Foreign (c : UInt8) : Prop := c ≠ 45 ∧ isDigit c = false

theorem peekNextDigit_skip (hjunk : ∀ c ∈ junk, Foreign c) {c : UInt8} (hc : c = 45 ∨ isDigit c)
    (bytes : List UInt8) :
    peekNextDigit .skipAll (junk ++ c :: bytes) = (true, c :: bytes) := by
  induction junk with
  | nil => rw [List.nil_append, peekNextDigit, if_pos hc]
  | cons x junk ih =>
    obtain ⟨hm, hd⟩ := hjunk x List.mem_cons_self
    rw [List.cons_append, peekNextDigit, if_neg (by rw [hd]; simpa using hm)]
    exact ih fun y hy => hjunk y (List.mem_cons_of_mem _ hy)

/-! ### The texts of the numbers -/

/-- The decimal text of a number. -/
def decimal (n : ℤ) : List UInt8 :=
  (if n < 0 then [45] else []) ++ (digitsOf 10 n.natAbs).map digitChar

theorem printNumber_ten {n : ℕ} (hn : n < 2 ^ 31) :
    printNumber n 10 = some ((digitsOf 10 n).map digitChar) := by
  rw [printNumber, if_neg (by norm_num), digitLoop_eq (by norm_num) (by norm_num) (by omega),
    List.append_nil, Option.map_some, cstr_map_upperDigit, map_upperDigit]
  · exact fun d hd => lt_ten_of_mem hd
  · exact fun d hd => (lt_ten_of_mem hd).trans (by norm_num)

theorem printLong_ten (hlo : -2 ^ 31 < n) (hhi : n < 2 ^ 31) :
    printLong n 10 = some (decimal n) := by
  rw [printLong, if_neg (by norm_num), if_pos rfl, decimal]
  split
  · rename_i hneg
    have habs : (-n).toNat = n.natAbs := by omega
    rw [long_eq (by omega), Option.bind_eq_bind, Option.bind_some, habs,
      printNumber_ten (by omega)]
    rfl
  · rename_i hneg
    have habs : n.toNat = n.natAbs := by omega
    rw [habs, printNumber_ten (by omega), List.nil_append]

theorem parseInt_decimal (hjunk : ∀ c ∈ junk, Foreign c) (hstop : Stops ignore rest) (n : ℤ) :
    parseInt .skipAll ignore (junk ++ (decimal n ++ rest)) =
      if n.natAbs + 48 < 2 ^ 31 then some (n, rest) else none := by
  have hds : ∀ d ∈ digitsOf 10 n.natAbs, d < 10 := fun d hd => lt_ten_of_mem hd
  have hvalue := value_digitsOf n.natAbs
  obtain ⟨d, ds, hd⟩ := List.exists_cons_of_ne_nil (digitsOf_ne_nil 10 n.natAbs)
  rw [hd] at hds hvalue
  have hdigit := (digitChar_spec d (hds d List.mem_cons_self)).1
  have hloop := fun neg => parseLoop_digits (d :: ds) hds (by simp) hstop neg 0
  rw [hvalue, List.map_cons, List.cons_append] at hloop
  rw [decimal, hd, List.map_cons]
  by_cases hneg : n < 0
  · have hval : -(n.natAbs : ℤ) = n := by omega
    rw [if_pos hneg, List.singleton_append, List.cons_append, List.cons_append, parseInt,
      peekNextDigit_skip hjunk (.inl rfl)]
    dsimp only
    rw [parseLoop, parseChar, if_neg hstop.minus.symm, if_pos rfl, Option.bind_eq_bind,
      Option.bind_some]
    dsimp only
    rw [goesOn_digit (hds d List.mem_cons_self), if_pos rfl, ← Nat.cast_zero, hloop true,
      if_pos rfl, hval]
  · have hval : (n.natAbs : ℤ) = n := by omega
    rw [if_neg hneg, List.nil_append, List.cons_append, parseInt,
      peekNextDigit_skip hjunk (.inr hdigit)]
    dsimp only
    rw [← Nat.cast_zero, hloop false, if_neg Bool.false_ne_true, hval]

/-! ### Many numbers in a stream -/

/-- Numbers that are printed, each with what is printed behind it. -/
def printAll : List (ℤ × List UInt8) → Option (List UInt8)
  | [] => some []
  | (n, sep) :: ns => do
    let text ← printLong n 10
    let texts ← printAll ns
    some (text ++ (sep ++ texts))

/-- `count` calls of `parseInt`: the numbers, and what has not been read. -/
def parseInts (ignore : UInt8) : ℕ → List UInt8 → Option (List ℤ × List UInt8)
  | 0, bytes => some ([], bytes)
  | count + 1, bytes => do
    let (n, bytes) ← parseInt .skipAll ignore bytes
    let (ns, bytes) ← parseInts ignore count bytes
    some (n :: ns, bytes)

/-- What stands behind a number does not go on with it. -/
def Separates (ignore : UInt8) (sep : List UInt8) : Prop :=
  sep ≠ [] ∧ ∀ c ∈ sep, Foreign c ∧ c ≠ ignore

theorem stops_of_separates (hignore : Foreign ignore) {sep : List UInt8}
    (hsep : Separates ignore sep) (rest : List UInt8) : Stops ignore (sep ++ rest) := by
  obtain ⟨c, sep, rfl⟩ := List.exists_cons_of_ne_nil hsep.1
  refine ⟨hignore.2, hignore.1, by simp, ?_⟩
  rintro _ ⟨⟩
  have := hsep.2 c List.mem_cons_self
  exact ⟨this.1.2, this.2⟩

theorem parseInts_append (hignore : Foreign ignore) (ns : List (ℤ × List UInt8))
    (hrange : ∀ p ∈ ns, -2 ^ 31 < p.1 ∧ p.1 < 2 ^ 31) (hsep : ∀ p ∈ ns, Separates ignore p.2)
    (hjunk : ∀ c ∈ junk, Foreign c) :
    ∃ text, printAll ns = some text ∧ parseInts ignore ns.length (junk ++ text) =
      if ∀ p ∈ ns, p.1.natAbs + 48 < 2 ^ 31 then
        some (ns.map (·.1), (ns.getLast?.map (·.2)).getD junk) else none := by
  induction ns generalizing junk with
  | nil => exact ⟨[], rfl, by simp [parseInts]⟩
  | cons p ns ih =>
    obtain ⟨n, sep⟩ := p
    obtain ⟨hlo, hhi⟩ := hrange (n, sep) List.mem_cons_self
    have hs := hsep (n, sep) List.mem_cons_self
    obtain ⟨texts, htexts, hparse⟩ := ih (fun p hp => hrange p (List.mem_cons_of_mem _ hp))
      (fun p hp => hsep p (List.mem_cons_of_mem _ hp)) (fun c hc => (hs.2 c hc).1)
    refine ⟨decimal n ++ (sep ++ texts), ?_, ?_⟩
    · rw [printAll, printLong_ten hlo hhi, htexts]
      rfl
    · rw [List.length_cons, parseInts,
        parseInt_decimal hjunk (stops_of_separates hignore hs texts) n]
      by_cases hn : n.natAbs + 48 < 2 ^ 31
      · rw [if_pos hn, Option.bind_eq_bind, Option.bind_some]
        dsimp only
        rw [hparse]
        simp only [List.forall_mem_cons, hn, true_and]
        split
        · rw [List.getLast?_cons]
          cases hlast : ns.getLast? with
          | none => rfl
          | some q => rfl
        · rfl
      · rw [if_neg hn, if_neg (fun hall => hn (hall (n, sep) List.mem_cons_self))]
        rfl

/-- **Printed numbers are read back**, up to the last separator, if and only if none of them is
within 48 of the end of the range. -/
theorem parseInts_printAll (hignore : Foreign ignore) (ns : List (ℤ × List UInt8))
    (hrange : ∀ p ∈ ns, -2 ^ 31 < p.1 ∧ p.1 < 2 ^ 31) (hsep : ∀ p ∈ ns, Separates ignore p.2) :
    ∃ text, printAll ns = some text ∧ parseInts ignore ns.length text =
      if ∀ p ∈ ns, p.1.natAbs + 48 < 2 ^ 31 then
        some (ns.map (·.1), (ns.getLast?.map (·.2)).getD []) else none :=
  parseInts_append hignore ns hrange hsep (fun _ hc => absurd hc List.not_mem_nil)

/-- `-120\r\n` and `7,` with `NO_IGNORE_CHAR`. -/
theorem parseInts_printAll_lines :
    ∃ text, printAll [(-120, [13, 10]), (7, [44])] = some text ∧
      parseInts noIgnoreChar 2 text =
        if ∀ p ∈ [((-120 : ℤ), ([13, 10] : List UInt8)), (7, [44])], p.1.natAbs + 48 < 2 ^ 31 then
          some ([-120, 7], [44]) else none :=
  parseInts_printAll ⟨by decide, by decide⟩ [(-120, [13, 10]), (7, [44])]
    (by simp) (by simp [Separates, Foreign, noIgnoreChar, isDigit])

/-! ### `String(long)` and `toInt` -/

theorem utoaCommon_ten {n : ℕ} (hn : n < 2 ^ 32) :
    utoaCommon n 10 = some ((digitsOf 10 n).map digitChar) := by
  rw [utoaCommon, digitLoop_eq (by norm_num) (by norm_num) hn, List.append_nil, map_lowerDigit]
  exact fun d hd => lt_ten_of_mem hd

theorem ltoa_ten (hlo : -2 ^ 31 ≤ n) (hhi : n < 2 ^ 31) : ltoa n 10 = some (decimal n) := by
  rw [ltoa, if_neg (by norm_num), decimal]
  by_cases hneg : n < 0
  · have habs : (-n).toNat = n.natAbs := by omega
    rw [if_pos ⟨rfl, hneg⟩, if_pos hneg, habs, utoaCommon_ten (by omega)]
    rfl
  · have habs : (n % 2 ^ 32).toNat = n.natAbs := by omega
    rw [if_neg (fun h => hneg h.2), if_neg hneg, habs, utoaCommon_ten (by omega), List.nil_append]

theorem not_mem_digits {ds : List ℕ} (h : ∀ d ∈ ds, d < 10) : 0 ∉ ds.map digitChar := by
  intro hmem
  obtain ⟨d, hd, h0⟩ := List.mem_map.mp hmem
  exact (ne_of_isDigit (digitChar_spec d (h d hd)).1).2.2.1 h0

theorem cstr_decimal (n : ℤ) : cstr (decimal n) = decimal n := by
  apply cstr_eq_self
  rw [decimal, List.mem_append]
  rintro (h | h)
  · split at h
    · simp at h
    · exact absurd h List.not_mem_nil
  · exact not_mem_digits (fun d hd => lt_ten_of_mem hd) h

/-- The loop of `atol` over the digits of a number. -/
theorem foldl_digits {ds : List ℕ} (h : ∀ d ∈ ds, d < 10) (v : ℕ) :
    ((ds.map digitChar).takeWhile isDigit).foldl (fun v c => v * 10 + (c.toNat - 48)) v =
      value v ds := by
  have hall : (ds.map digitChar).takeWhile isDigit = ds.map digitChar := by
    rw [List.takeWhile_eq_self_iff]
    intro c hc
    obtain ⟨d, hd, rfl⟩ := List.mem_map.mp hc
    exact (digitChar_spec d (h d hd)).1
  rw [hall, value, List.foldl_map]
  apply List.foldl_ext
  intro v d hd
  rw [(digitChar_spec d (h d hd)).2.1, Nat.add_sub_cancel_left]

theorem atol_decimal (hlo : -2 ^ 31 ≤ n) (hhi : n < 2 ^ 31) : atol (decimal n) = n := by
  have hds : ∀ d ∈ digitsOf 10 n.natAbs, d < 10 := fun d hd => lt_ten_of_mem hd
  have hfold := foldl_digits hds 0
  rw [value_digitsOf] at hfold
  rw [atol, cstr_decimal, decimal]
  by_cases hneg : n < 0
  · have hspace : isspace 45 = false := by decide
    rw [if_pos hneg, List.singleton_append, List.dropWhile_cons_of_neg (by rw [hspace]; simp)]
    rw [List.head?_cons, if_pos rfl, if_pos (.inl rfl), List.drop_one, List.tail_cons, hfold,
      max_eq_right (by omega)]
    omega
  · obtain ⟨d, ds, hd⟩ := List.exists_cons_of_ne_nil (digitsOf_ne_nil 10 n.natAbs)
    rw [hd] at hds hfold
    obtain ⟨h45, h43, -, hspace⟩ := ne_of_isDigit (digitChar_spec d (hds d List.mem_cons_self)).1
    rw [List.map_cons] at hfold
    rw [if_neg hneg, List.nil_append, hd, List.map_cons,
      List.dropWhile_cons_of_neg (by rw [hspace]; simp)]
    rw [List.head?_cons, if_neg (by simpa using h45), if_neg (by simp [h45, h43]), hfold,
      min_eq_right (by omega)]
    omega

theorem length_decimal_le (hlo : -2 ^ 31 ≤ n) (hhi : n < 2 ^ 31) : (decimal n).length ≤ 33 := by
  have hdigits : (digitsOf 10 n.natAbs).length ≤ 32 := by
    rw [digitsOf]
    split
    · simp
    · rw [List.length_reverse]
      exact length_digits_le (by norm_num) (by omega)
  rw [decimal, List.length_append, List.length_map]
  split
  · rw [List.length_singleton]
    omega
  · rw [List.length_nil]
    omega

/-- **`String(long)` and `toInt` are inverse** on the whole range, and the buffer of the one is
large enough for every text and its zero. -/
theorem atol_ltoa (hlo : -2 ^ 31 ≤ n) (hhi : n < 2 ^ 31) :
    ∃ text, ltoa n 10 = some text ∧ text.length < 2 + 8 * 4 ∧ atol text = n :=
  ⟨decimal n, ltoa_ten hlo hhi, by have := length_decimal_le hlo hhi; omega, atol_decimal hlo hhi⟩

/-- The smallest `long`, which has no opposite. -/
theorem atol_ltoa_min :
    ∃ text, ltoa (-2 ^ 31) 10 = some text ∧ text.length < 2 + 8 * 4 ∧ atol text = -2 ^ 31 :=
  atol_ltoa le_rfl (by norm_num)

end Ch32h4.Text
