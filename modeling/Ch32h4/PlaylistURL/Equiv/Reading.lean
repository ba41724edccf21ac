import Ch32h4.PlaylistURL.Equiv.Strings

/-!
# What a line is taken to say

The reading of a line is what `first` gets from it when nothing is to be left out.  On a line of one
of the supported forms it is known (`reading_other`, `reading_keyed`, `reading_element`), and so is
when it agrees with what the line names, whatever is to be left out: that is what `Plain` says
(`names_iff_plain`).
-/

namespace Ch32h4.PlaylistURL

open Icy (strstr)
open Ota (isSpace trim)

/-! ### Readings and entries -/

section Selection

variable {α : Type*} [DecidableEq α] {wanted : α → Bool} {r : Option α} {es : List α}

end Selection

variable {a b s t u v x : List UInt8} {c q : UInt8} {k n : ℕ}

/-! ### Addresses -/

/-- What `first` gets from a line when nothing is to be left out. -/
def reading (t : List UInt8) : Option (List UInt8) := offer none t

theorem mem_of_mem_cstr (h : c ∈ cstr t) : c ≠ 0 := by
  simpa using List.mem_takeWhile_imp h

theorem Blank.isSpace (h : Blank t) : ∀ c ∈ t, isSpace c = true := by
  intro c hc
  have := h c hc
  rw [isBlank, Bool.and_eq_true] at this
  exact this.1

/-- What holds of every byte can be tried on each. -/
theorem forall_byte {p : UInt8 → Prop} (h : ∀ i : Fin 256, p (UInt8.ofFin i)) (c : UInt8) : p c :=
  h c.toFin

/-- The bytes of the keys of an ini file, of blanks and of `href`. -/
theorem byte_spec (c : UInt8) :
    (tolower c ∈ file ∨ tolower c ∈ ref ∨ 48 ≤ c ∧ c ≤ 57 →
      isSpace c = false ∧ c ≠ 0 ∧ c ≠ 35 ∧ c ≠ 61 ∧ isQuote c = false ∧ tolower c ≠ 104) ∧
    (isBlank c = true → (c ≠ 61 ∧ isQuote c = false ∧ tolower c ≠ 104) ∧
      isEol c = false ∧ c ≠ 0 ∧ c ≠ 60 ∧ c ≠ 62) ∧
    (tolower c ∈ href → isQuote c = false) := by
  revert c
  exact forall_byte (by decide +kernel)

theorem byte_of_stem (c : UInt8) :
    tolower c ∈ file ∨ tolower c ∈ ref ∨ 48 ≤ c ∧ c ≤ 57 →
      isSpace c = false ∧ c ≠ 0 ∧ c ≠ 35 ∧ c ≠ 61 ∧ isQuote c = false ∧ tolower c ≠ 104 :=
  (byte_spec c).1

theorem byte_of_blank (c : UInt8) :
    isBlank c = true → c ≠ 61 ∧ isQuote c = false ∧ tolower c ≠ 104 :=
  fun h => ((byte_spec c).2.1 h).1

theorem IsKey.byte {key : List UInt8} (h : IsKey key) (hc : c ∈ key) :
    isSpace c = false ∧ c ≠ 0 ∧ c ≠ 35 ∧ c ≠ 61 ∧ isQuote c = false ∧ tolower c ≠ 104 := by
  obtain ⟨stem, hstem, hpre, -, hdigits⟩ := h
  refine byte_of_stem c ?_
  rw [← List.take_append_drop stem.length key, List.mem_append] at hc
  rcases hc with hc | hc
  · have hmem : tolower c ∈ stem := by
      rw [List.prefix_iff_eq_take.mp hpre, ← List.map_take]
      exact List.mem_map_of_mem hc
    rcases List.mem_pair.mp hstem with rfl | rfl
    · exact Or.inl hmem
    · exact Or.inr (Or.inl hmem)
  · exact Or.inr (Or.inr (hdigits c hc))

theorem Attribute.WellFormed.gap {a : Attribute} (h : a.WellFormed) :
    ∀ c ∈ a.before ++ 61 :: a.after, isQuote c = false := by
  intro c hc
  rw [List.mem_append, List.mem_cons] at hc
  rcases hc with hc | rfl | hc
  · exact (byte_of_blank c (h.before c hc)).2.1
  · rfl
  · exact (byte_of_blank c (h.after c hc)).2.1

/-- An address is in lower case where it has to be, and the line is seen as far as its end, with so
many bytes in front of it. -/
def Clear (u : List UInt8) (n : ℕ) : Prop := isHttpUrl u = true ∧ n + u.length ≤ 255

end Ch32h4.PlaylistURL
