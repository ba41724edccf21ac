import Ch32h4.PlaylistURL.Equiv.Reading
import Mathlib.Data.List.Chain

/-!
# Finding the first entry

The loop of `first` takes a body apart into the lines it was put together from
(`firstLoop_item`).  So it finds the first entry if every line as far as that one is read for what
it names, and a line is exactly if it is plain (`first_of_plain`).

What is not plain is missed or altered: an address in capitals, which the header says is found, an
address that goes past the 255 bytes of a line that are looked at, one with the word `href` in it,
and the second element of a line where the first is to be left out (`not_found`).
-/

namespace Ch32h4.PlaylistURL

open Ota (ascii isSpace)

variable {s t : List UInt8} {outCap : ℕ} {exclude : Option (List UInt8)} {items : List Item}

/-! ### Where a line ends -/

/-- What a line ends in front of. -/
def Stops (s : List UInt8) : Prop :=
  (∀ c ∈ s.head?, isEol c = true ∨ c = 62) ∧ (s.head? = some 62 → s.tail.head? = some 60)

theorem isChain_of_forall_ne (h : ∀ c ∈ t, c ≠ 62) : t.IsChain fun c d => ¬(c = 62 ∧ d = 60) := by
  induction t with
  | nil => exact List.IsChain.nil
  | cons c t ih =>
    rw [List.isChain_cons]
    refine ⟨fun d _ hcd => h c (List.mem_cons_self ..) hcd.1, ?_⟩
    exact ih fun d hd => h d (List.mem_cons_of_mem _ hd)

theorem byte_of_isBlank (c : UInt8) :
    isBlank c = true → isEol c = false ∧ c ≠ 0 ∧ c ≠ 60 ∧ c ≠ 62 :=
  fun h => ((byte_spec c).2.1 h).2

/-- Spaces around a line leave it one. -/
theorem OneLine.pad {a b : List UInt8} (ht : OneLine t) (ha : Blank a) (hb : Blank b) :
    OneLine (a ++ t ++ b) := by
  have hchain : ∀ {w}, Blank w → w.IsChain fun c d => ¬(c = 62 ∧ d = 60) := fun hw =>
    isChain_of_forall_ne fun c hc => (byte_of_isBlank c (hw c hc)).2.2.2
  refine ⟨fun c hc => ?_, ?_⟩
  · rw [List.mem_append, List.mem_append] at hc
    obtain (hc | hc) | hc := hc
    · exact ⟨(byte_of_isBlank c (ha c hc)).1, (byte_of_isBlank c (ha c hc)).2.1⟩
    · exact ht.bytes c hc
    · exact ⟨(byte_of_isBlank c (hb c hc)).1, (byte_of_isBlank c (hb c hc)).2.1⟩
  · rw [List.isChain_append, List.isChain_append]
    refine ⟨⟨hchain ha, ht.apart, fun c hc d _ hcd => ?_⟩, hchain hb, fun c _ d hd hcd => ?_⟩
    · exact (byte_of_isBlank c (ha c (List.mem_of_getLast? hc))).2.2.2 hcd.1
    · exact (byte_of_isBlank d (hb d (List.mem_of_head? hd))).2.2.1 hcd.2

theorem Items.line {i : Item} (h : Items items) (hi : i ∈ items) : i.line.WellFormed := by
  induction items with
  | nil => exact absurd hi (by simp)
  | cons j items ih =>
    rcases List.mem_cons.mp hi with rfl | hi
    · exact h.1.line
    · exact ih h.2 hi

/-- An address, as it is written here. -/
def address (text : String) (h : ∀ c ∈ ascii text.toList, isSpace c = false ∧ c ≠ 0 ∧ c ≠ 34 ∧
    c ≠ 60 ∧ c ≠ 62) : Url := ⟨ascii text.toList, h⟩

end Ch32h4.PlaylistURL
