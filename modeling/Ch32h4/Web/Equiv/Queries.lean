import Ch32h4.Web.Arguments
import Mathlib.Data.List.ReduceOption
import Mathlib.Data.List.Forall2

/-!
# The arguments of a request are its pairs

`parseArguments` goes over the string with two indices.  The arguments are the parts between the
ampersands that have an equals sign, each cut at the first one and decoded (`parseArguments_eq`).
**`parseArguments_query`**: so the pairs of a query come back, whatever is escaped in it.
-/

namespace Ch32h4.Web

open Text

/-! ### One part -/

/-- The argument that a part between ampersands is. -/
def argument (part : List UInt8) : Option RequestArgument :=
  if 61 ∈ part then
    some ⟨urlDecode (part.takeWhile (· ≠ 61)), urlDecode ((part.dropWhile (· ≠ 61)).drop 1)⟩
  else none

theorem argument_append {key value : List UInt8} (h : 61 ∉ key) :
    argument (key ++ 61 :: value) = some ⟨urlDecode key, urlDecode value⟩ := by
  have hpos : ∀ x ∈ key, decide (x ≠ 61) = true := by
    intro x hx
    simpa using ne_of_mem_of_not_mem hx h
  rw [argument, if_pos (by simp), List.takeWhile_append_of_pos hpos,
    List.dropWhile_append_of_pos hpos, List.takeWhile_cons_of_neg (by simp),
    List.dropWhile_cons_of_neg (by simp), List.append_nil]
  rfl

theorem argument_eq_none {part : List UInt8} (h : 61 ∉ part) : argument part = none := if_neg h

/-! ### All parts -/

variable {pre mid post part rest data : List UInt8} {c : UInt8}

theorem substring_mid (pre mid post : List UInt8) :
    substring (pre ++ (mid ++ post)) pre.length (pre.length + mid.length) = mid := by
  rw [substring_of_le (by omega), ← List.append_assoc, ← List.length_append, List.take_left,
    List.drop_left]

/-- A substring with a bound that is too large goes to the end. -/
theorem substring_end (pre mid : List UInt8) {n : ℕ} (h : (pre ++ mid).length ≤ n) :
    substring (pre ++ mid) pre.length n = mid := by
  rw [List.length_append] at h
  rw [substring_of_le (by omega), List.take_of_length_le (by rw [List.length_append]; omega),
    List.drop_left]

theorem indexOf_mid (hm : c ∉ mid) (h0 : 0 ∉ mid) (hc : c ≠ 0) :
    indexOf (pre ++ (mid ++ c :: post)) c pre.length = some (pre.length + mid.length) := by
  rw [indexOf_drop, List.drop_left, indexOf_append hm h0 hc]
  rfl

theorem indexOf_mid_eq_none (h : c ∉ mid) : indexOf (pre ++ mid) c pre.length = none := by
  rw [indexOf_drop, List.drop_left, indexOf_eq_none h]
  rfl

/-- What is not in the part is found behind the ampersand. -/
theorem lt_of_indexOf {i : ℕ} (h : 61 ∉ part)
    (hi : indexOf (pre ++ (part ++ 38 :: rest)) 61 pre.length = some i) :
    pre.length + part.length < i := by
  rw [indexOf_drop, List.drop_left, Option.map_eq_some_iff] at hi
  obtain ⟨j, hj, rfl⟩ := hi
  have hget := getElem?_of_indexOf hj
  by_contra hle
  by_cases hlt : j < part.length
  · rw [List.getElem?_append_left hlt] at hget
    exact h (List.mem_of_getElem? hget)
  · obtain rfl : j = part.length := by omega
    rw [List.getElem?_append_right (Nat.le_refl _), Nat.sub_self] at hget
    simp at hget

theorem splitOn_append_cons (h : c ∉ part) (rest : List UInt8) :
    (part ++ c :: rest).splitOn c = part :: rest.splitOn c := by
  rw [List.splitOn_eq_splitOnP, List.splitOn_eq_splitOnP]
  apply List.splitOnP_append_cons_of_forall_mem
  · intro x hx
    simpa using ne_of_mem_of_not_mem hx h
  · simp

theorem splitOn_eq_singleton (h : c ∉ part) : part.splitOn c = [part] := by
  rw [List.splitOn_eq_splitOnP]
  apply List.splitOnP_eq_singleton
  intro x hx
  simpa using ne_of_mem_of_not_mem hx h

theorem countArgs_eq (hc : 0 ∉ rest) :
    ∀ fuel, rest.length ≤ fuel → ∀ (pre : List UInt8) (count : ℕ),
      countArgs (pre ++ rest) fuel pre.length count + 1 = count + (rest.splitOn 38).length := by
  intro fuel
  induction fuel generalizing rest with
  | zero =>
    intro hf pre count
    obtain rfl : rest = [] := List.length_eq_zero_iff.mp (by omega)
    rfl
  | succ fuel ih =>
    intro hf pre count
    by_cases hmem : 38 ∈ rest
    · obtain ⟨part, rest', rfl, hpart⟩ := List.eq_append_cons_of_mem hmem
      have h0 : 0 ∉ part := fun hm => hc (List.mem_append_left _ hm)
      have h0' : 0 ∉ rest' := fun hm => hc (List.mem_append_right _ (List.mem_cons_of_mem _ hm))
      rw [countArgs, if_pos (by simp only [List.length_append, List.length_cons]; omega),
        indexOf_mid hpart h0 (by decide)]
      have := ih h0' (by simp at hf; omega) (pre ++ part ++ [38]) (count + 1)
      rw [splitOn_append_cons hpart, List.length_cons]
      simp only [List.append_assoc, List.singleton_append, List.length_append,
        List.length_singleton, ← Nat.add_assoc] at this
      dsimp only
      omega
    · have hcount : countArgs (pre ++ rest) (fuel + 1) pre.length count = count := by
        rw [countArgs, indexOf_mid_eq_none hmem]
        split <;> rfl
      rw [hcount, splitOn_eq_singleton hmem]
      rfl

/-- The loop takes the parts in turn. -/
theorem argsLoop_eq (h0 : 0 ∉ rest) :
    ∀ fuel, rest.length < fuel → ∀ (pre : List UInt8), (pre ++ rest).length < 2 ^ 32 →
      ∀ (count : ℕ) (args : List RequestArgument), args.length + (rest.splitOn 38).length ≤ count →
      argsLoop (pre ++ rest) count fuel pre.length args =
        args ++ (rest.splitOn 38).filterMap argument := by
  intro fuel
  induction fuel generalizing rest with
  | zero => intro hf; omega
  | succ fuel ih =>
    intro hf pre hlen count args hcount
    by_cases hmem : 38 ∈ rest
    · obtain ⟨part, rest', rfl, hpart⟩ := List.eq_append_cons_of_mem hmem
      have h0p : 0 ∉ part := fun hm => h0 (List.mem_append_left _ hm)
      have h0' : 0 ∉ rest' := fun hm => h0 (List.mem_append_right _ (List.mem_cons_of_mem _ hm))
      rw [splitOn_append_cons hpart, List.length_cons] at hcount
      -- The loop goes on behind the ampersand.
      have hnext : ∀ args' : List RequestArgument,
          args'.length + (rest'.splitOn 38).length ≤ count →
          argsLoop (pre ++ (part ++ 38 :: rest')) count fuel (pre.length + part.length + 1) args' =
            args' ++ (rest'.splitOn 38).filterMap argument := by
        intro args' hc'
        have := ih h0' (by simp at hf; omega) (pre ++ part ++ [38]) (by simpa using hlen) count
          args' hc'
        simpa [List.append_assoc, Nat.add_assoc] using this
      rw [argsLoop, if_pos (by omega), indexOf_mid hpart h0p (by decide), splitOn_append_cons hpart,
        List.filterMap_cons]
      by_cases heq : 61 ∈ part
      · obtain ⟨key, value, rfl, hkey⟩ := List.eq_append_cons_of_mem heq
        have hkey0 : 0 ∉ key := fun hm => h0p (List.mem_append_left _ hm)
        have hshape : pre ++ (key ++ 61 :: value ++ 38 :: rest') =
            pre ++ (key ++ 61 :: (value ++ 38 :: rest')) := by simp
        have hi : indexOf (pre ++ (key ++ 61 :: value ++ 38 :: rest')) 61 pre.length =
            some (pre.length + key.length) := by
          rw [hshape]
          exact indexOf_mid hkey hkey0 (by decide)
        have hk : substring (pre ++ (key ++ 61 :: value ++ 38 :: rest')) pre.length
            (pre.length + key.length) = key := by
          rw [hshape]
          exact substring_mid _ _ _
        have hv : substring (pre ++ (key ++ 61 :: value ++ 38 :: rest'))
            (pre.length + key.length + 1) (pre.length + (key ++ 61 :: value).length) = value := by
          have := substring_mid (pre ++ key ++ [61]) value (38 :: rest')
          simpa [List.append_assoc, Nat.add_assoc, Nat.add_comm, Nat.add_left_comm] using this
        rw [hi, argument_append hkey]
        dsimp only
        rw [if_neg (by simp), toUnsigned, hk, hv]
        have := hnext (args ++ [⟨urlDecode key, urlDecode value⟩])
          (by rw [List.length_append, List.length_singleton]; omega)
        rw [this, List.append_assoc]
        rfl
      · rw [argument_eq_none heq]
        have hgo := hnext args (by omega)
        cases hi : indexOf (pre ++ (part ++ 38 :: rest')) 61 pre.length with
        | none => exact hgo
        | some i =>
          -- The equals sign found belongs to a later part.
          have hlt := lt_of_indexOf heq hi
          dsimp only
          rw [if_pos (by simpa using hlt)]
          exact hgo
    · rw [splitOn_eq_singleton hmem, List.length_singleton] at hcount
      rw [argsLoop, if_pos (by omega), indexOf_mid_eq_none hmem, splitOn_eq_singleton hmem]
      by_cases heq : 61 ∈ rest
      · obtain ⟨key, value, rfl, hkey⟩ := List.eq_append_cons_of_mem heq
        have hkey0 : 0 ∉ key := fun hm => h0 (List.mem_append_left _ hm)
        have hv : substring (pre ++ (key ++ 61 :: value)) (pre.length + key.length + 1)
            (2 ^ 32 - 1) = value := by
          have := substring_end (pre ++ key ++ [61]) value (n := 2 ^ 32 - 1)
            (by simpa [List.append_assoc] using Nat.le_sub_one_of_lt hlen)
          simpa [List.append_assoc, Nat.add_assoc] using this
        rw [indexOf_mid hkey hkey0 (by decide)]
        dsimp only
        rw [if_neg (by simp), toUnsigned, substring_mid, hv, List.filterMap_cons,
          argument_append hkey]
        rfl
      · rw [indexOf_mid_eq_none heq, List.filterMap_cons, argument_eq_none heq]
        simp

/-- The arguments are the parts between the ampersands that have an equals sign. -/
theorem parseArguments_eq (h0 : 0 ∉ data) (hlen : data.length < 2 ^ 32) :
    parseArguments data = (data.splitOn 38).filterMap argument := by
  unfold parseArguments
  split
  · rename_i hl
    obtain rfl := List.length_eq_zero_iff.mp hl
    rfl
  · have hcount := countArgs_eq h0 data.length (Nat.le_refl _) [] 1
    have hargs := argsLoop_eq h0 (data.length + 1) (Nat.lt_succ_self _) [] hlen
      (countArgs data data.length 0 1) [] (by
        rw [List.nil_append, List.length_nil] at hcount
        rw [List.length_nil]
        omega)
    simpa using hargs

/-! ### Escapes -/

/-- A text stands for a string: its characters stand for themselves but for those with a meaning in
a query, a plus sign stands for a space, and any character may be escaped with two digits of either
case. -/
inductive Encodes : List UInt8 → List UInt8 → Prop
  | nil : Encodes [] []
  | plain {c : UInt8} {s t : List UInt8} (hc : c ∉ [0, 37, 38, 43, 61]) (h : Encodes s t) :
    Encodes (c :: s) (c :: t)
  | plus {s t : List UInt8} (h : Encodes s t) : Encodes (32 :: s) (43 :: t)
  | escape {a b x y : UInt8} {s t : List UInt8} (ha : hexDigit a = some x)
    (hb : hexDigit b = some y) (h : Encodes s t) : Encodes ((16 * x + y) :: s) (37 :: a :: b :: t)

theorem urlDecode_cons (h : c ≠ 37) (text : List UInt8) :
    urlDecode (c :: text) = (if c = 43 then 32 else c) :: urlDecode text := by
  rcases text with _ | ⟨a, _ | ⟨b, text⟩⟩
  · rfl
  · rfl
  · rw [urlDecode, if_neg h]

theorem urlDecode_of_encodes {s t : List UInt8} (h : Encodes s t) : urlDecode t = s := by
  induction h with
  | nil => rfl
  | @plain c s t hc h ih =>
    have h37 : c ≠ 37 := by rintro rfl; exact hc (by decide)
    have h43 : c ≠ 43 := by rintro rfl; exact hc (by decide)
    rw [urlDecode_cons h37, if_neg h43, ih]
  | plus h ih => rw [urlDecode_cons (by decide), if_pos rfl, ih]
  | escape ha hb h ih => rw [urlDecode, if_pos rfl, strtolHex, ha, hb, ih]

theorem hexDigit_ne {a x : UInt8} (h : hexDigit a = some x) : a ≠ 0 ∧ a ≠ 38 ∧ a ≠ 61 := by
  have h0 : hexDigit 0 = none := by decide
  have h38 : hexDigit 38 = none := by decide
  have h61 : hexDigit 61 = none := by decide
  refine ⟨?_, ?_, ?_⟩ <;> rintro rfl <;> simp_all

/-- What separates parts, keys and values does not occur in what they are encoded as. -/
theorem Encodes.not_mem {s t : List UInt8} (h : Encodes s t) : 0 ∉ t ∧ 38 ∉ t ∧ 61 ∉ t := by
  induction h with
  | nil => exact ⟨List.not_mem_nil, List.not_mem_nil, List.not_mem_nil⟩
  | @plain c s t hc h ih =>
    simp only [List.mem_cons, not_or] at hc ⊢
    exact ⟨⟨Ne.symm hc.1, ih.1⟩, ⟨Ne.symm hc.2.2.1, ih.2.1⟩, ⟨Ne.symm hc.2.2.2.2.1, ih.2.2⟩⟩
  | plus h ih =>
    simp only [List.mem_cons, not_or]
    exact ⟨⟨by decide, ih.1⟩, ⟨by decide, ih.2.1⟩, ⟨by decide, ih.2.2⟩⟩
  | escape ha hb h ih =>
    have ⟨ha0, ha1, ha2⟩ := hexDigit_ne ha
    have ⟨hb0, hb1, hb2⟩ := hexDigit_ne hb
    simp only [List.mem_cons, not_or]
    exact ⟨⟨by decide, ha0.symm, hb0.symm, ih.1⟩, ⟨by decide, ha1.symm, hb1.symm, ih.2.1⟩,
      ⟨by decide, ha2.symm, hb2.symm, ih.2.2⟩⟩

/-! ### Queries -/

/-- A part of a query: a pair, or something without an equals sign that is passed over. -/
inductive ReadsAs : Option RequestArgument → List UInt8 → Prop
  | pair {key value k v : List UInt8} (hk : Encodes key k) (hv : Encodes value v) :
    ReadsAs (some ⟨key, value⟩) (k ++ 61 :: v)
  | noise {part : List UInt8} (h : 0 ∉ part ∧ 38 ∉ part ∧ 61 ∉ part) : ReadsAs none part

theorem ReadsAs.not_mem {o : Option RequestArgument} (h : ReadsAs o part) :
    0 ∉ part ∧ 38 ∉ part := by
  cases h with
  | pair hk hv =>
    simp only [List.mem_append, List.mem_cons, not_or]
    exact ⟨⟨hk.not_mem.1, by decide, hv.not_mem.1⟩, hk.not_mem.2.1, by decide, hv.not_mem.2.1⟩
  | noise h => exact ⟨h.1, h.2.1⟩

theorem ReadsAs.argument_eq {o : Option RequestArgument} (h : ReadsAs o part) :
    argument part = o := by
  cases h with
  | pair hk hv =>
    rw [argument_append hk.not_mem.2.2, urlDecode_of_encodes hk, urlDecode_of_encodes hv]
  | noise h => exact argument_eq_none h.2.2

theorem not_mem_of_reads {args : List (Option RequestArgument)} {parts : List (List UInt8)}
    (h : List.Forall₂ ReadsAs args parts) : ∀ part ∈ parts, 0 ∉ part ∧ 38 ∉ part := by
  induction h with
  | nil => exact fun part hp => absurd hp List.not_mem_nil
  | cons ho h ih => exact List.forall_mem_cons.mpr ⟨ho.not_mem, ih⟩

theorem filterMap_of_reads {args : List (Option RequestArgument)} {parts : List (List UInt8)}
    (h : List.Forall₂ ReadsAs args parts) : parts.filterMap argument = args.reduceOption := by
  induction h with
  | nil => rfl
  | @cons o part args parts ho h ih =>
    rw [List.filterMap_cons, ho.argument_eq, ih]
    cases o with
    | none => exact (List.reduceOption_cons_of_none args).symm
    | some a => exact (List.reduceOption_cons_of_some a args).symm

/-- **The pairs of a query come back**, in their order, however their characters are escaped and
whatever else stands between the ampersands. -/
theorem parseArguments_query (args : List (Option RequestArgument)) (parts : List (List UInt8))
    (h : List.Forall₂ ReadsAs args parts)
    (hlen : (List.intercalate [38] parts).length < 2 ^ 32) :
    parseArguments (List.intercalate [38] parts) = args.reduceOption := by
  have hmem := not_mem_of_reads h
  have hread := filterMap_of_reads h
  by_cases hnil : parts = []
  · obtain rfl := hnil
    rw [← hread]
    rfl
  · rw [parseArguments_eq (not_mem_intercalate (by decide) (fun l hl => (hmem l hl).1)) hlen,
      List.splitOn_intercalate 38 (fun l hl => (hmem l hl).2) hnil, hread]

/-- `a=%3d+&&b=`. -/
theorem parseArguments_query_escaped :
    parseArguments (List.intercalate [38] [[97, 61, 37, 51, 100, 43], [], [98, 61]]) =
      [some ⟨[97], [61, 32]⟩, none, some ⟨[98], []⟩].reduceOption :=
  parseArguments_query _ _
    (.cons (.pair (.plain (by decide) .nil) (.escape (x := 3) (y := 13) rfl rfl (.plus .nil)))
      (.cons (.noise (by decide)) (.cons (.pair (.plain (by decide) .nil) .nil) .nil)))
    (by decide)

end Ch32h4.Web
