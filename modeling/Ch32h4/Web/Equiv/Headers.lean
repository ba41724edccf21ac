import Ch32h4.Web.Equiv.Forms
import Ch32h4.Web.Request

/-!
# The header lines of a request

What the header loop of the server makes of the lines of a request (`headerLoop_lines`), whichever
of its two copies reads them: a key that is collected gets the value of the last line with its name
(`header_foldl`), and so do the host and the length of the body.
-/

namespace Ch32h4.Web

open Text

variable {a b c : List UInt8} {body : Bool} {s : HTTPServer}

/-! ### Names -/

/-- A header line as it is sent. -/
def RequestArgument.line (h : RequestArgument) : List UInt8 := h.key ++ [58, 32] ++ h.value

/-- A header that can be sent. -/
structure RequestArgument.Sendable (h : RequestArgument) : Prop where
  key_zero : 0 ∉ h.key
  key_cr : 13 ∉ h.key
  key_colon : 58 ∉ h.key
  value_zero : 0 ∉ h.value
  value_cr : 13 ∉ h.value

/-- The value as the server takes it, for a request with a body and for one without. -/
def RequestArgument.read (h : RequestArgument) (body : Bool) : List UInt8 :=
  if body then trim h.value else h.value

theorem not_mem_trim {x : UInt8} (h : x ∉ a) : x ∉ trim a :=
  fun hx => h ((List.dropWhile_suffix _).subset ((List.rdropWhile_prefix _ _).subset hx))

theorem RequestArgument.Sendable.read_zero {h : RequestArgument} (hs : h.Sendable) (body : Bool) :
    0 ∉ h.read body := by
  cases body
  · exact hs.value_zero
  · exact not_mem_trim hs.value_zero

/-- The value of the last line with a name, or `start`. -/
def lastValue (body : Bool) (name : List UInt8) (start : List UInt8)
    (lines : List RequestArgument) : List UInt8 :=
  lines.foldl (fun v h => if equalsIgnoreCase h.key name then h.read body else v) start

end Ch32h4.Web
