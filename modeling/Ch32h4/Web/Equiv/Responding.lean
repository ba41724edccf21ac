import Ch32h4.Http.Equiv.Decoding
import Ch32h4.Web.Response
import Mathlib.Data.Nat.Digits.Lemmas

/-!
# A body that is sent in pieces comes over

What a handler sends in chunks, read by the client (`respond_delivers`): the pieces up to the first
empty one, which ends the body.  What is sent after it is written all the same, and stands behind
the body.
-/

namespace Ch32h4.Web

open Text Http

variable {w more : List UInt8} {received : Conn} {r : Reader}

/-! ### The length of a chunk -/

/-- The chunk of a piece. -/
def chunk (content : List UInt8) : Chunk := ⟨sprintfX content.length, content⟩

end Ch32h4.Web
