import Ch32h4.Base64.Coder
import Ch32h4.Md5.Builder
import Ch32h4.Web.Request

/-!
# Who a request comes from

`HTTPServer::authenticate`, for both schemes.
-/

namespace Ch32h4.Web

open Text

/-- What `requestAuthentication` has sent last. -/
structure Challenge where
  srealm : List UInt8
  snonce : List UInt8
  sopaque : List UInt8

/-- `_extractParam`. -/
def extractParam (authReq param : List UInt8) (delimit : UInt8) : List UInt8 :=
  match indexOfString authReq param 0 with
  | none => []
  | some start =>
    let start := start + param.length
    substring authReq start (toUnsigned (indexOf authReq delimit start))

/-- `md5str`. -/
def md5str (s : List UInt8) : List UInt8 := (Md5.md5 s).map fun c => UInt8.ofNat c.toNat

/-- The branch for `Basic`.  The length is kept in a `char`, and `sprintf` runs past the end of a
buffer whose length does not fit there: `none`. -/
def authenticateBasic (authReq username password : List UInt8) : Option Bool :=
  let toencode := cstr username ++ [58] ++ cstr password
  if 127 < toencode.length then none
  else
    let encoded := Base64.encodeChars toencode
    if Base64.encodeExpectedLen toencode.length < encoded.length then none
    else some (encoded.length > 0 ∧ equalsCstr authReq encoded)

/-- The branch for `Digest`. -/
def authenticateDigest (c : Challenge) (method : HTTPMethod)
    (authReq username password : List UInt8) : Bool :=
  let _username := extractParam authReq (ascii "username=\"") 34
  if _username.length = 0 ∨ ¬ equals _username (cstr username) then false
  else
    let _realm := extractParam authReq (ascii "realm=\"") 34
    let _nonce := extractParam authReq (ascii "nonce=\"") 34
    let _uri := extractParam authReq (ascii "uri=\"") 34
    let _response := extractParam authReq (ascii "response=\"") 34
    let _opaque := extractParam authReq (ascii "opaque=\"") 34
    if _realm.length = 0 ∨ _nonce.length = 0 ∨ _uri.length = 0 ∨ _response.length = 0 ∨
        _opaque.length = 0 then false
    else if ¬ equals _opaque c.sopaque ∨ ¬ equals _nonce c.snonce ∨ ¬ equals _realm c.srealm then
      false
    else
      let qop := (indexOfString authReq (ascii "qop=auth") 0).isSome ∨
        (indexOfString authReq (ascii "qop=\"auth\"") 0).isSome
      let _nc := if qop then extractParam authReq (ascii "nc=") 44 else []
      let _cnonce := if qop then extractParam authReq (ascii "cnonce=\"") 34 else []
      let _H1 := md5str (cstr username ++ [58] ++ _realm ++ [58] ++ cstr password)
      let name := match method with
        | .POST => ascii "POST:"
        | .PUT => ascii "PUT:"
        | .DELETE => ascii "DELETE:"
        | _ => ascii "GET:"
      let _H2 := md5str (name ++ _uri)
      let _responsecheck :=
        if qop then
          md5str (_H1 ++ [58] ++ _nonce ++ [58] ++ _nc ++ [58] ++ _cnonce ++ ascii ":auth:" ++ _H2)
        else md5str (_H1 ++ [58] ++ _nonce ++ [58] ++ _H2)
      equals _response _responsecheck

/-- `authenticate`. -/
def HTTPServer.authenticate (s : HTTPServer) (c : Challenge) (username password : List UInt8) :
    Option Bool :=
  if s.hasHeader (ascii "Authorization") then
    let authReq := s.header (ascii "Authorization")
    if startsWith authReq (ascii "Basic") then
      authenticateBasic (trim (substringFrom authReq 6)) username password
    else if startsWith authReq (ascii "Digest") then
      some (authenticateDigest c s.currentMethod (substringFrom authReq 7) username password)
    else some false
  else some false

end Ch32h4.Web
