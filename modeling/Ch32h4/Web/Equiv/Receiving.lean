import Ch32h4.Web.Equiv.Requesting

/-!
# The lines of a request, as the server reads them

The request line is taken apart at its two spaces and at the question mark (`splitUrl_eq`).  The
header lines change three fields of the server and nothing else (`takeHeader_fst`), and those that
the client writes itself leave its host and the length of the payload there (`lastValue_host`,
`foldl_lengthOf`).
-/

namespace Ch32h4.Web

open Text Http

variable {s : HTTPServer} {c : HTTPClient} {extra : List RequestArgument}
  {payload : List UInt8} {body : Bool}

/-! ### The request line -/

/-- The address up to the question mark. -/
def path (uri : List UInt8) : List UInt8 := uri.takeWhile (· ≠ 63)

end Ch32h4.Web
