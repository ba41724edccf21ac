import Ch32h4.Text.Number
import Mathlib.Data.Nat.Digits.Defs

/-!
# The bodies that a web server writes

`HTTPServer::sendContent` and `_finalizeResponse`, once the header of a response has been written.
Whether the body goes out in chunks has been decided with the header.
-/

namespace Ch32h4.Web

open Text

/-- What `sprintf` makes of an `unsigned int` with `%x`. -/
def sprintfX (n : ℕ) : List UInt8 :=
  if n = 0 then [48] else ((Nat.digits 16 n).map lowerDigit).reverse

namespace Responder

end Responder

end Ch32h4.Web
