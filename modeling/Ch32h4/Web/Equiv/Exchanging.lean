import Ch32h4.Web.Equiv.Receiving

/-!
# A request of the client, read by the server

`_parseRequest` takes apart what `HTTPClient` has put together: **`parseRequest_plain`** for the
methods without a body, and **`parseRequest_body`** for the others.
-/

namespace Ch32h4.Web

open Text Http

variable {s : HTTPServer} {c : HTTPClient} {extra : List RequestArgument}
  {payload : List UInt8}

/-- The version of the protocol. -/
def version (c : HTTPClient) : ℤ := if c.useHTTP10 then 0 else 1

/-- The server before the header lines. -/
def begun (c : HTTPClient) (m : HTTPMethod) (s : HTTPServer) : HTTPServer :=
  { s with
    currentHeaders := s.currentHeaders.map fun h => { h with value := [] }
    currentVersion := version c
    currentUri := path (uriText c)
    clientContentLength := 0
    currentMethod := m }

/-- The server has the request of the client, whatever its body. -/
structure Received (c : HTTPClient) (extra : List RequestArgument) (size : ℕ) (m : HTTPMethod)
    (s : HTTPServer) (p : Parsed) : Prop where
  future : p.future = .requestCanContinue
  method : p.server.currentMethod = m
  uri : p.server.currentUri = path (uriText c)
  version : p.server.currentVersion = version c
  host : p.server.hostHeader = c.host ++ portText c.port
  header : ∀ n, p.server.header n =
    if s.currentHeaders.any (fun h => equalsIgnoreCase h.key n) then
      lastValue m.hasBody n [] (clientHeaders c extra size)
    else []

end Ch32h4.Web
