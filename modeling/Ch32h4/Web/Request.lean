import Ch32h4.Text.Number
import Ch32h4.Web.Arguments

/-!
# The requests that a web server reads

`HTTPServer::_parseRequest`.  The client is again the list of the bytes that come in time.  How many
of them are available at a time is a function of what has not been read yet.
-/

namespace Ch32h4.Web

open Text

/-- `http_method`. -/
inductive HTTPMethod
  | DELETE | GET | HEAD | POST | PUT | CONNECT | OPTIONS | TRACE | COPY | LOCK | MKCOL | MOVE
  | PROPFIND | PROPPATCH | SEARCH | UNLOCK | BIND | REBIND | UNBIND | ACL | REPORT | MKACTIVITY
  | CHECKOUT | MERGE | MSEARCH | NOTIFY | SUBSCRIBE | UNSUBSCRIBE | PATCH | PURGE | MKCALENDAR
  | LINK | UNLINK | SOURCE
  deriving DecidableEq

/-- `_http_method_str`, which is made of the names. -/
def httpMethodStr : List (HTTPMethod × List UInt8) :=
  [(.DELETE, ascii "DELETE"), (.GET, ascii "GET"), (.HEAD, ascii "HEAD"), (.POST, ascii "POST"),
    (.PUT, ascii "PUT"), (.CONNECT, ascii "CONNECT"), (.OPTIONS, ascii "OPTIONS"),
    (.TRACE, ascii "TRACE"), (.COPY, ascii "COPY"), (.LOCK, ascii "LOCK"),
    (.MKCOL, ascii "MKCOL"), (.MOVE, ascii "MOVE"), (.PROPFIND, ascii "PROPFIND"),
    (.PROPPATCH, ascii "PROPPATCH"), (.SEARCH, ascii "SEARCH"), (.UNLOCK, ascii "UNLOCK"),
    (.BIND, ascii "BIND"), (.REBIND, ascii "REBIND"), (.UNBIND, ascii "UNBIND"),
    (.ACL, ascii "ACL"), (.REPORT, ascii "REPORT"), (.MKACTIVITY, ascii "MKACTIVITY"),
    (.CHECKOUT, ascii "CHECKOUT"), (.MERGE, ascii "MERGE"), (.MSEARCH, ascii "MSEARCH"),
    (.NOTIFY, ascii "NOTIFY"), (.SUBSCRIBE, ascii "SUBSCRIBE"),
    (.UNSUBSCRIBE, ascii "UNSUBSCRIBE"), (.PATCH, ascii "PATCH"), (.PURGE, ascii "PURGE"),
    (.MKCALENDAR, ascii "MKCALENDAR"), (.LINK, ascii "LINK"), (.UNLINK, ascii "UNLINK"),
    (.SOURCE, ascii "SOURCE")]

/-- `HTTPRawStatus`. -/
inductive HTTPRawStatus
  | start
  | write
  | fileEnd
  | aborted
  deriving DecidableEq

/-- `HTTPRaw`, with `currentSize` as the length of what is current in `buf`. -/
structure HTTPRaw where
  status : HTTPRawStatus
  totalSize : ℕ
  buf : List UInt8
  deriving DecidableEq

/-- `HTTP_RAW_BUFLEN`. -/
def rawBuflen : ℕ := 1436

/-- A `RequestHandler`, by what the parser asks it. -/
structure RequestHandler where
  canHandle : HTTPMethod → List UInt8 → Bool
  canRaw : List UInt8 → Bool

/-- The fields of `HTTPServer` that a request is read into. -/
structure HTTPServer where
  currentHeaders : List RequestArgument
  handlers : List RequestHandler
  currentMethod : HTTPMethod
  currentUri : List UInt8
  currentVersion : ℤ
  currentArgs : List RequestArgument
  hostHeader : List UInt8
  clientContentLength : ℤ

/-- `ClientFuture`, as far as the parser answers it. -/
inductive ClientFuture
  | requestCanContinue
  | mustStop
  deriving DecidableEq

/-- What reading a request comes to: the answer, the server, what the handler has been called with,
and what has not been read. -/
structure Parsed where
  future : ClientFuture
  server : HTTPServer
  uploads : List HTTPUpload
  raws : List HTTPRaw
  rest : List UInt8

/-- `collectHeaders`. -/
def HTTPServer.collectHeaders (s : HTTPServer) (headerKeys : List (List UInt8)) : HTTPServer :=
  { s with currentHeaders :=
      (ascii "Authorization" :: headerKeys).map fun key => ⟨key, []⟩ }

/-- `header`. -/
def HTTPServer.header (s : HTTPServer) (name : List UInt8) : List UInt8 :=
  ((s.currentHeaders.find? fun h => equalsIgnoreCase h.key name).map (·.value)).getD []

/-- `hasHeader`. -/
def HTTPServer.hasHeader (s : HTTPServer) (name : List UInt8) : Bool :=
  s.currentHeaders.any fun h => equalsIgnoreCase h.key name ∧ h.value.length > 0

/-- The loop that hands a raw body over, with `true` for its end. -/
def rawLoop (contentLength : ℕ) : ℕ → HTTPRaw → List HTTPRaw → List UInt8 →
    Bool × HTTPRaw × List HTTPRaw × List UInt8
  | 0, raw, raws, bytes => (false, raw, raws, bytes)
  | fuel + 1, raw, raws, bytes =>
    if raw.totalSize < contentLength then
      let buf := bytes.take rawBuflen
      let raw := { raw with totalSize := raw.totalSize + buf.length, buf }
      if buf.length = 0 then
        let raw := { raw with status := .aborted }
        (false, raw, raws ++ [raw], bytes)
      else rawLoop contentLength fuel raw (raws ++ [raw]) (bytes.drop rawBuflen)
    else (true, raw, raws, bytes)

/-- The methods of requests with a body. -/
def HTTPMethod.hasBody (m : HTTPMethod) : Bool := m = .POST ∨ m = .PUT ∨ m = .PATCH ∨ m = .DELETE

end Ch32h4.Web
