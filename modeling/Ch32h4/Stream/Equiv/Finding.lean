import Ch32h4.Matching
import Ch32h4.Stream.Find

/-!
# Searching a stream finds the first occurrence

`findMulti` keeps one number for each target and none of the text.  **`findMulti_first`**: it
returns as if it had kept the text and had looked, behind every byte, for a target that the text
ends with.

The invariant is `Matching.Matched`: behind every byte the number is the longest beginning of the
target that the text ends with.  `walkBack` finds it because it asks for exactly what
`Matching.Matched.concat_of_ne` wants.
-/

namespace Ch32h4.Stream

open Matching

/-! ### Walking back -/

variable {str text bytes : List UInt8} {c : UInt8} {k n i : ℕ} {t : MultiTarget}
  {ts : List MultiTarget}

/-- What `walkBack` looks for at `j`. -/
def Recurs (str : List UInt8) (c : UInt8) (origIndex j : ℕ) : Prop :=
  str[j]? = some c ∧ ∀ i < j, str[i]? = str[i + (origIndex - j)]?

theorem walkBack_succ (str : List UInt8) (c : UInt8) (k n : ℕ) :
    (Recurs str c k n ∧ walkBack str c k (n + 1) = n + 1) ∨
      (¬ Recurs str c k n ∧ walkBack str c k (n + 1) = walkBack str c k n) := by
  rw [walkBack]
  by_cases h : str[n]? = some c
  · rw [if_neg (not_not.mpr h)]
    by_cases h0 : n = 0
    · -- A single character needs no comparison, and there is none to make.
      rw [if_pos h0]
      exact Or.inl ⟨⟨h, fun i hi => absurd hi (by omega)⟩, rfl⟩
    · rw [if_neg h0]
      by_cases hr : ∀ i < n, str[i]? = str[i + (k - n)]?
      · rw [if_pos hr]
        exact Or.inl ⟨⟨h, hr⟩, rfl⟩
      · rw [if_neg hr]
        exact Or.inr ⟨fun h' => hr h'.2, rfl⟩
  · rw [if_pos h]
    exact Or.inr ⟨fun h' => h h'.1, rfl⟩

theorem walkBack_le (n : ℕ) : walkBack str c k n ≤ n := by
  induction n with
  | zero => exact Nat.le_refl 0
  | succ n ih =>
    rcases walkBack_succ str c k n with ⟨-, h⟩ | ⟨-, h⟩ <;> omega

theorem recurs_of_walkBack (n : ℕ) : ∀ j, walkBack str c k n = j + 1 → Recurs str c k j := by
  induction n with
  | zero => intro j h; cases h
  | succ n ih =>
    intro j hj
    rcases walkBack_succ str c k n with ⟨hr, h⟩ | ⟨-, h⟩
    · obtain rfl : n = j := by omega
      exact hr
    · exact ih j (h ▸ hj)

theorem not_recurs_of_walkBack (n : ℕ) :
    ∀ j < n, walkBack str c k n < j + 1 → ¬ Recurs str c k j := by
  induction n with
  | zero => intro j hj; omega
  | succ n ih =>
    intro j hj hlt
    rcases walkBack_succ str c k n with ⟨-, h⟩ | ⟨hr, h⟩
    · omega
    · by_cases hjn : j = n
      · exact hjn ▸ hr
      · exact ih j (by omega) (by omega)

/-! ### One target, one character -/

/-- Every number tells what its target has matched of the text. -/
def Tracks (ts : List MultiTarget) (text : List UInt8) : Prop :=
  ∀ t ∈ ts, Matched t.str text t.index

@[simp] theorem mismatch_str : (t.mismatch c).str = t.str := by
  unfold MultiTarget.mismatch
  split <;> rfl

theorem matched_mismatch (h : Matched t.str text t.index) (hc : t.str[t.index]? ≠ some c) :
    Matched t.str (text ++ [c]) (t.mismatch c).index := by
  unfold MultiTarget.mismatch
  split
  · rename_i h0
    -- Nothing was matched, and nothing is.
    exact h.concat_of_ne hc (Nat.le_refl _) (fun j hj => by omega) (fun j hj => by omega)
  · exact h.concat_of_ne hc (walkBack_le _) (recurs_of_walkBack _)
      (fun j hj hlt he hr => not_recurs_of_walkBack _ j hj hlt ⟨he, hr⟩)

/-! ### All targets, one character -/

/-- The first of the targets that the text ends with. -/
def endsWith (targets : List (List UInt8)) (text : List UInt8) : Option ℕ :=
  targets.findIdx? (fun t => decide (t <:+ text))

theorem endsWith_eq_none {targets : List (List UInt8)} :
    endsWith targets text = none ↔ ∀ t ∈ targets, ¬ t <:+ text := by
  simp [endsWith]

/-- The loop over the targets reports the first one that ends, or else keeps track. -/
theorem feed_spec (h : Tracks ts text) (n : ℕ) :
    (∃ i, feed c n ts = .error (n + i) ∧ endsWith (ts.map (·.str)) (text ++ [c]) = some i) ∨
      (∃ ts', feed c n ts = .ok ts' ∧ ts'.map (·.str) = ts.map (·.str) ∧ Tracks ts' (text ++ [c]) ∧
        endsWith (ts.map (·.str)) (text ++ [c]) = none) := by
  induction ts generalizing n with
  | nil => exact Or.inr ⟨[], rfl, rfl, by simp [Tracks], rfl⟩
  | cons t ts ih =>
    have ht : Matched t.str text t.index := h t List.mem_cons_self
    have hends : t.str <:+ text ++ [c] ↔ t.index + 1 = t.str.length ∧ t.str[t.index]? = some c :=
      ht.suffix_concat_iff
    have hrest := ih (fun u hu => h u (List.mem_cons_of_mem _ hu)) (n + 1)
    -- What the rest reports is reported with this target in front, unless the text ends with it.
    have hnext : ∀ t' : MultiTarget, t'.str = t.str → Matched t.str (text ++ [c]) t'.index →
        ¬ t.str <:+ text ++ [c] →
        feed c n (t :: ts) = (do return t' :: (← feed c (n + 1) ts)) →
        (∃ i, feed c n (t :: ts) = .error (n + i) ∧
          endsWith ((t :: ts).map (·.str)) (text ++ [c]) = some i) ∨
        (∃ ts', feed c n (t :: ts) = .ok ts' ∧ ts'.map (·.str) = (t :: ts).map (·.str) ∧
          Tracks ts' (text ++ [c]) ∧ endsWith ((t :: ts).map (·.str)) (text ++ [c]) = none) := by
      intro t' hstr hm hne hf
      rcases hrest with ⟨i, hi, he⟩ | ⟨ts', hi, hs, htr, he⟩
      · refine Or.inl ⟨i + 1, ?_, ?_⟩
        · rw [hf, hi]
          simp only [bind, Except.bind]
          congr 1
          omega
        · rw [endsWith, List.map_cons, List.findIdx?_cons, if_neg (by simpa using hne)]
          rw [endsWith] at he
          rw [he]
          rfl
      · refine Or.inr ⟨t' :: ts', ?_, ?_, ?_, ?_⟩
        · rw [hf, hi]
          rfl
        · rw [List.map_cons, List.map_cons, hs, hstr]
        · intro u hu
          rcases List.mem_cons.mp hu with rfl | hu
          · exact hstr ▸ hm
          · exact htr u hu
        · rw [endsWith_eq_none] at he ⊢
          rw [List.map_cons, List.forall_mem_cons]
          exact ⟨hne, he⟩
    by_cases hc : t.str[t.index]? = some c
    · by_cases hl : t.index + 1 = t.str.length
      · -- The target is complete.
        refine Or.inl ⟨0, ?_, ?_⟩
        · rw [feed, if_pos hc, if_pos hl]
          rfl
        · have he := hends.mpr ⟨hl, hc⟩
          rw [endsWith, List.map_cons, List.findIdx?_cons, if_pos (by simpa using he)]
      · apply hnext { t with index := t.index + 1 } rfl
        · exact ht.concat_of_eq hc (by have := ht.lt; omega)
        · exact fun hs => hl (hends.mp hs).1
        · rw [feed, if_pos hc, if_neg hl]
    · apply hnext (t.mismatch c) mismatch_str (matched_mismatch ht hc)
      · exact fun hs => hc (hends.mp hs).2
      · rw [feed, if_neg hc]

/-! ### All characters -/

/-- `text` is read up to where a target ends in it for the first time, and the first such target is
number `i`. -/
structure EndsFirst (targets : List (List UInt8)) (text : List UInt8) (i : ℕ) : Prop where
  ends : endsWith targets text = some i
  earlier : ∀ s, s <+: text → s ≠ text → endsWith targets s = none

/-- The loop over the characters, entered behind `text` and left behind what it has read. -/
theorem findLoop_spec (bytes : List UInt8) (h : Tracks ts text) :
    (∃ i read rest, findLoop bytes ts = (some i, rest) ∧ bytes = read ++ rest ∧ read ≠ [] ∧
      endsWith (ts.map (·.str)) (text ++ read) = some i ∧
      ∀ s, s <+: read → s ≠ [] → s ≠ read → endsWith (ts.map (·.str)) (text ++ s) = none) ∨
    (findLoop bytes ts = (none, []) ∧
      ∀ s, s <+: bytes → s ≠ [] → endsWith (ts.map (·.str)) (text ++ s) = none) := by
  induction bytes generalizing ts text with
  | nil =>
    refine Or.inr ⟨rfl, ?_⟩
    intro s hs hne
    exact absurd (List.prefix_nil.mp hs) hne
  | cons c bytes ih =>
    rcases feed_spec (c := c) h 0 with ⟨i, hf, he⟩ | ⟨ts', hf, hstr, htr, he⟩
    · refine Or.inl ⟨i, [c], bytes, ?_, rfl, by simp, he, ?_⟩
      · rw [findLoop, hf, Nat.zero_add]
      · intro s hs hne hne'
        rcases List.prefix_cons_iff.mp hs with rfl | ⟨s', rfl, hs'⟩
        · exact absurd rfl hne
        · rw [List.prefix_nil.mp hs'] at hne'
          exact absurd rfl hne'
    · have hloop : findLoop (c :: bytes) ts = findLoop bytes ts' := by rw [findLoop, hf]
      have happ : ∀ s, text ++ c :: s = text ++ [c] ++ s := fun s => by simp
      -- The beginnings of what is read are this character, and it in front of those of the rest.
      have hcons : ∀ (P : List UInt8 → Prop) (r s : List UInt8), s <+: c :: r → s ≠ [] → P [c] →
          (∀ s, s <+: r → s ≠ [] → P (c :: s)) → P s := by
        intro P r s hs hne h1 h2
        rcases List.prefix_cons_iff.mp hs with rfl | ⟨s', rfl, hs'⟩
        · exact absurd rfl hne
        · by_cases hs0 : s' = []
          · exact hs0 ▸ h1
          · exact h2 s' hs' hs0
      rcases ih htr with ⟨i, read, rest, hl, hb, hr, hi, hmin⟩ | ⟨hl, hall⟩
      · refine Or.inl ⟨i, c :: read, rest, hloop.trans hl, ?_, by simp, ?_, ?_⟩
        · rw [hb, List.cons_append]
        · rw [happ, ← hstr]
          exact hi
        · intro s hs hne hne'
          revert hne'
          apply hcons (fun s => s ≠ c :: read →
            endsWith (ts.map (·.str)) (text ++ s) = none) read s hs hne
          · exact fun _ => he
          · intro s hs hs0 hne'
            rw [happ, ← hstr]
            exact hmin s hs hs0 (fun h => hne' (by rw [h]))
      · refine Or.inr ⟨hloop.trans hl, ?_⟩
        intro s hs hne
        apply hcons _ bytes s hs hne he
        intro s hs hs0
        rw [happ, ← hstr]
        exact hall s hs hs0

/-! ### The search -/

theorem EndsFirst.unique {targets : List (List UInt8)} {s s' rest rest' : List UInt8} {i i' : ℕ}
    (h : EndsFirst targets s i) (h' : EndsFirst targets s' i') (he : s ++ rest = s' ++ rest') :
    s = s' ∧ i = i' := by
  have hs : s = s' := by
    by_contra hne
    -- One of the two is a beginning of the other.
    rcases List.prefix_or_prefix_of_prefix (List.prefix_append s rest)
      (he ▸ List.prefix_append s' rest') with hp | hp
    · have := h'.earlier s hp hne
      rw [h.ends] at this
      cases this
    · have := h.earlier s' hp (Ne.symm hne)
      rw [h'.ends] at this
      cases this
  subst hs
  exact ⟨rfl, Option.some.inj (h.ends.symm.trans h'.ends)⟩

/-- The targets as they are handed to `findMulti`. -/
def multiTargets (targets : List (List UInt8)) : List MultiTarget := targets.map (⟨·, 0⟩)

theorem map_str_multiTargets (targets : List (List UInt8)) :
    (multiTargets targets).map (·.str) = targets := by
  rw [multiTargets, List.map_map]
  exact List.map_id targets

theorem tracks_multiTargets {targets : List (List UInt8)} (h : [] ∉ targets) :
    Tracks (multiTargets targets) [] := by
  intro t ht
  obtain ⟨s, hs, rfl⟩ := List.mem_map.mp ht
  exact Matched.nil (fun h0 => h (h0 ▸ hs))

/-- The loop of `findMulti` for empty targets. -/
theorem findIdx_multiTargets (targets : List (List UInt8)) :
    (multiTargets targets).findIdx? (·.str.length ≤ 0) = endsWith targets [] := by
  rw [multiTargets, endsWith, List.findIdx?_map]
  congr 1
  funext t
  simp

/-- What `findMulti` reports, and what of the stream it leaves, or that nothing was to be found. -/
theorem findMulti_spec (targets : List (List UInt8)) (bytes : List UInt8) :
    (∃ i read rest, findMulti (multiTargets targets) bytes = (some i, rest) ∧ bytes = read ++ rest ∧
      EndsFirst targets read i) ∨
    (findMulti (multiTargets targets) bytes = (none, []) ∧
      ∀ s, s <+: bytes → endsWith targets s = none) := by
  unfold findMulti
  rw [findIdx_multiTargets]
  cases h0 : endsWith targets [] with
  | some i =>
    refine Or.inl ⟨i, [], bytes, rfl, rfl, h0, ?_⟩
    intro s hs hne
    exact absurd (List.prefix_nil.mp hs) hne
  | none =>
    have hne : [] ∉ targets := fun h => endsWith_eq_none.mp h0 [] h List.nil_suffix
    have hl := findLoop_spec bytes (tracks_multiTargets hne)
    rw [map_str_multiTargets] at hl
    rcases hl with ⟨i, read, rest, hl, hb, -, hi, hmin⟩ | ⟨hl, hall⟩
    · refine Or.inl ⟨i, read, rest, hl, hb, hi, ?_⟩
      intro s hs hsr
      by_cases hs0 : s = []
      · exact hs0 ▸ h0
      · exact hmin s hs hs0 hsr
    · refine Or.inr ⟨hl, ?_⟩
      intro s hs
      by_cases hs0 : s = []
      · exact hs0 ▸ h0
      · exact hall s hs hs0

/-- **`findMulti` finds the occurrence that ends first.**  It returns `i` with `rest` left exactly
if what it has read is the shortest beginning of the stream that ends with a target, and the `i`th
is the first such target; it times out, with everything read, exactly if no target occurs in the
stream. -/
theorem findMulti_first (targets : List (List UInt8)) (bytes rest : List UInt8) :
    (∀ i, findMulti (multiTargets targets) bytes = (some i, rest) ↔
      ∃ read, bytes = read ++ rest ∧ EndsFirst targets read i) ∧
    (findMulti (multiTargets targets) bytes = (none, rest) ↔
      rest = [] ∧ ∀ t ∈ targets, ¬ t <:+: bytes) := by
  have hinfix : (∀ s, s <+: bytes → endsWith targets s = none) ↔ ∀ t ∈ targets, ¬ t <:+: bytes := by
    simp only [endsWith_eq_none, List.infix_iff_suffix_prefix]
    constructor
    · rintro h t ht ⟨s, hts, hs⟩
      exact h s hs t ht hts
    · intro h s hs t ht hts
      exact h t ht ⟨s, hts, hs⟩
  rcases findMulti_spec targets bytes with ⟨i, read, rest', hf, hb, he⟩ | ⟨hf, hall⟩
  · constructor
    · intro i'
      rw [hf]
      constructor
      · intro h
        obtain ⟨rfl, rfl⟩ : i = i' ∧ rest' = rest := by simpa using h
        exact ⟨read, hb, he⟩
      · rintro ⟨read', hb', he'⟩
        obtain ⟨rfl, rfl⟩ := he.unique he' (hb.symm.trans hb')
        rw [List.append_cancel_left (hb.symm.trans hb')]
    · rw [hf, ← hinfix]
      constructor
      · intro h
        cases h
      · rintro ⟨-, h⟩
        have := h read ⟨rest', hb.symm⟩
        rw [he.ends] at this
        cases this
  · constructor
    · intro i'
      rw [hf]
      constructor
      · intro h
        cases h
      · rintro ⟨read', hb', he'⟩
        have := hall read' ⟨rest, hb'.symm⟩
        rw [he'.ends] at this
        cases this
    · rw [hf, ← hinfix]
      constructor
      · intro h
        exact ⟨(Prod.mk.inj h).2.symm, hall⟩
      · rintro ⟨rfl, -⟩
        rfl

/-- A search with a terminator is true exactly if the target ends somewhere with no terminator that
has ended before. -/
theorem findUntil_iff (target terminator bytes : List UInt8) :
    (findUntil target (some terminator) bytes).1 = true ↔
      ∃ read, read <+: bytes ∧ target <:+ read ∧
        ∀ s, s <+: read → s ≠ read → ¬ terminator <:+ s := by
  have hfind : findUntil target (some terminator) bytes =
      (decide ((findMulti (multiTargets [target, terminator]) bytes).1 = some 0),
        (findMulti (multiTargets [target, terminator]) bytes).2) := rfl
  rw [hfind, decide_eq_true_eq]
  constructor
  · intro h
    have ⟨read, hb, he⟩ := ((findMulti_first [target, terminator] bytes
      (findMulti (multiTargets [target, terminator]) bytes).2).1 0).mp (Prod.ext h rfl)
    refine ⟨read, ⟨_, hb.symm⟩, ?_, ?_⟩
    · have := he.ends
      rw [endsWith, List.findIdx?_cons] at this
      by_contra hne
      rw [if_neg (by simpa using hne)] at this
      simp at this
    · intro s hs hne
      exact endsWith_eq_none.mp (he.earlier s hs hne) terminator (by simp)
  · rintro ⟨read, hr, ht, hterm⟩
    rcases findMulti_spec [target, terminator] bytes with ⟨i, read', rest, hf, hb, he⟩ | ⟨hf, hall⟩
    · rw [hf]
      -- The target ends at `read`, so one of the two ends there or earlier.
      have hle : read' <+: read := by
        rcases List.prefix_or_prefix_of_prefix ⟨rest, hb.symm⟩ hr with h | h
        · exact h
        · by_cases hrr : read = read'
          · exact hrr ▸ List.prefix_refl read
          · exact absurd ht (endsWith_eq_none.mp (he.earlier read h hrr) target (by simp))
      have htarget : target <:+ read' := by
        by_cases hrr : read' = read
        · exact hrr ▸ ht
        · have hsome : endsWith [target, terminator] read' ≠ none := by rw [he.ends]; simp
          by_contra hne
          apply hsome
          rw [endsWith_eq_none]
          simpa using ⟨hne, hterm read' hle hrr⟩
      have := he.ends
      rw [endsWith, List.findIdx?_cons, if_pos (by simpa using htarget)] at this
      exact this.symm
    · exact absurd ht (endsWith_eq_none.mp (hall read hr) target (by simp))

end Ch32h4.Stream
