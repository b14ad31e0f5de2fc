import EdgeCache.Http.Header
import EdgeCache.Http.Status

/-!
# Plain-text answers

When a request cannot be served, the answer is a line of text with the status code and its reason
phrase.
-/

set_option autoImplicit false

namespace EdgeCache

/-- Status and header fields of a response. -/
structure Head where
  status : Status
  headers : Headers := {}
deriving DecidableEq

/-- A response with its whole body. -/
structure Response where
  head : Head
  body : Bytes := []

namespace Plain

/-- The body of a plain-text answer. -/
def body (status : Status) : Bytes := bytes status.line

/-- The fields that describe such a body, whether or not it is sent. -/
def describe (status : Status) (h : Headers) : Headers :=
  (h.insert .contentType (bytes "text/plain")).insert .contentLength
    (Bytes.ofNat (body status).length)

/-- A complete plain-text answer. -/
def response (status : Status) : Response := ⟨⟨status, describe status {}⟩, body status⟩

end Plain
end EdgeCache
