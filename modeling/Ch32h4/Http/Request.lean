import Ch32h4.Base64.Coder
import Ch32h4.Text.Number

/-!
# The request of an HTTP client

What `HTTPClient` sends: the header lines that are added to a request, and `sendHeader`.
-/

namespace Ch32h4.Http

open Text

/-- The fields of `HTTPClient` that a request is made of. -/
structure HTTPClient where
  host : List UInt8
  port : ℕ
  uri : List UInt8
  userAgent : List UInt8
  headers : List UInt8
  base64Authorization : List UInt8
  reuse : Bool
  useHTTP10 : Bool
  deriving DecidableEq

namespace HTTPClient

end HTTPClient

end Ch32h4.Http
