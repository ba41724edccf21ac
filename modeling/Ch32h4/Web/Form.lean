import Ch32h4.Text.Basic
import Ch32h4.Stream.Find

/-!
# Forms with files in them

`HTTPServer::_parseForm`, which reads the body of a `multipart/form-data` request.  As in
`Stream.Find` the client is the list of the bytes that come in time; behind its end every read times
out.  Two loops of the source have no other end than the one in the body, so a client that stops
keeps them going for ever; they take fuel, and so does the whole.
-/

namespace Ch32h4.Web

open Text

/-- `HTTP_UPLOAD_BUFLEN`. -/
def uploadBuflen : ℕ := 1436

/-- `RequestArgument`. -/
structure RequestArgument where
  key : List UInt8
  value : List UInt8
  deriving DecidableEq

/-- `HTTPUploadStatus`. -/
inductive HTTPUploadStatus
  | start
  | write
  | fileEnd
  | aborted
  deriving DecidableEq

/-- `HTTPUpload`, with `currentSize` as the length of `buf`.  This is also what a handler is
called with. -/
structure HTTPUpload where
  status : HTTPUploadStatus
  filename : List UInt8
  name : List UInt8
  type : List UInt8
  totalSize : ℕ
  buf : List UInt8
  deriving DecidableEq

/-! ### Reading from the client -/

/-- `readStringUntil`: the string, and what has not been read. -/
def readStringUntil (terminator : UInt8) (bytes : List UInt8) : List UInt8 × List UInt8 :=
  (bytes.takeWhile (· ≠ terminator), (bytes.dropWhile (· ≠ terminator)).drop 1)

/-- An upload and the calls of the handler that it has led to. -/
structure Upload where
  current : HTTPUpload
  calls : List HTTPUpload

namespace Upload

/-- `_currentHandler->upload`. -/
def call (u : Upload) : Upload := { u with calls := u.calls ++ [u.current] }

/-- `_uploadWriteByte`. -/
def writeByte (u : Upload) (b : UInt8) : Upload :=
  let u :=
    if u.current.buf.length = uploadBuflen then
      let u := u.call
      { u with current :=
          { u.current with totalSize := u.current.totalSize + u.current.buf.length, buf := [] } }
    else u
  { u with current := { u.current with buf := u.current.buf ++ [b] } }

/-- The loop that looks for `fastBoundary`, of which `boundaryPtr` characters have been matched.
Without a rest the client has run dry. -/
def readFile (fastBoundary : List UInt8) :
    List UInt8 → Upload → ℕ → Upload × Option (List UInt8)
  | [], u, _ => (u, none)
  | c :: bytes, u, boundaryPtr =>
    if fastBoundary[boundaryPtr]? = some c then
      if boundaryPtr + 1 = fastBoundary.length then (u, some bytes)
      else readFile fastBoundary bytes u (boundaryPtr + 1)
    else
      let u := (fastBoundary.take boundaryPtr).foldl writeByte u
      if fastBoundary[0]? = some c then readFile fastBoundary bytes u 1
      else readFile fastBoundary bytes (u.writeByte c) 0

/-- What follows on the boundary. -/
def finish (u : Upload) : Upload :=
  let u := u.call
  let u := { u with current :=
    { u.current with
        totalSize := u.current.totalSize + u.current.buf.length
        status := .fileEnd } }
  u.call

/-- `_parseFormUploadAborted`. -/
def abort (u : Upload) : Upload :=
  { u with current := { u.current with status := .aborted } }.call

/-- A file from its first byte on. -/
def file (boundary name filename type bytes : List UInt8) : Upload × Option (List UInt8) :=
  let u : Upload := ⟨⟨.start, filename, name, type, 0, []⟩, []⟩
  let u := u.call
  let u := { u with current := { u.current with status := .write } }
  match readFile ([13, 10, 45, 45] ++ boundary) bytes u 0 with
  | (u, some bytes) => (u.finish, some bytes)
  | (u, none) => (u.abort, none)

end Upload

/-! ### The form -/

/-- `Content-Disposition`. -/
def contentDisposition : List UInt8 :=
  [67, 111, 110, 116, 101, 110, 116, 45, 68, 105, 115, 112, 111, 115, 105, 116, 105, 111, 110]

/-- `Content-Type`. -/
def contentType : List UInt8 := [67, 111, 110, 116, 101, 110, 116, 45, 84, 121, 112, 101]

/-- `blob`. -/
def blob : List UInt8 := [98, 108, 111, 98]

/-- `"--" + boundary`. -/
def delimiter (boundary : List UInt8) : List UInt8 := [45, 45] ++ boundary

/-- What is filled while a form is read: `_postArgs`, and the calls of the handler. -/
structure Form where
  postArgs : List RequestArgument
  calls : List HTTPUpload

end Ch32h4.Web
