import EdgeCache.Http.Method
import EdgeCache.Http.Uri

/-!
# Requests
-/

set_option autoImplicit false

namespace EdgeCache

/-- The protocol version of a request. -/
inductive Version where
  | http09
  | http10
  | http11
  | http2
  | http3
deriving DecidableEq

namespace Version

/-- The version as access logs show it. -/
def label : Version → String
  | http09 => "0.9"
  | http10 => "1.0"
  | http11 => "1.1"
  | http2 => "2"
  | http3 => "3"

end Version

/-- A request with its whole body. -/
structure Request where
  method : Method
  uri : Uri
  version : Version := .http11
  headers : Headers := {}
  body : Bytes := []

namespace Request

/-- The host a request is for: the authority of its target, else the first `Host` value if that is
text, else nothing. -/
def host (r : Request) : Bytes :=
  match r.uri.authority? with
  | some a => a
  | none => (r.headers.text? .host).getD []

def isHead (r : Request) : Bool := r.method = .head

end Request

/-- Why the parts of a request, or of a response, are refused. -/
inductive MessageError where
  | method
  | uri (cause : UriError)
  | headerName
  | headerValue
  | status
deriving DecidableEq

namespace MessageError

def message : MessageError → String
  | method => "invalid HTTP method"
  | uri cause => cause.message
  | headerName => "invalid HTTP header name"
  | headerValue => "failed to parse header value"
  | status => "invalid status code"

end MessageError

/-- A header field from its spelling. -/
def headerField (name value : Bytes) : Except MessageError (HeaderName × Bytes) :=
  match HeaderName.ofBytes? name with
  | none => .error .headerName
  | some n => if isHeaderValue value then .ok (n, value) else .error .headerValue

/-- Header fields from their spellings. -/
def Headers.ofPairs (ps : List (Bytes × Bytes)) : Except MessageError Headers := do
  return ⟨← ps.mapM fun p => headerField p.1 p.2⟩

/-- A request from the spelling of its parts; of several faults the method's is reported first, then
the target's, then the first one of the header fields. -/
def Request.ofParts (method uri : Bytes) (fields : List (Bytes × Bytes)) (body : Bytes) :
    Except MessageError Request := do
  let m ← match Method.ofBytes? method with
    | some m => pure m
    | none => .error .method
  let u ← match Uri.parse uri with
    | .ok u => pure u
    | .error e => .error (.uri e)
  return { method := m, uri := u, headers := ← Headers.ofPairs fields, body }

end EdgeCache
