import EdgeCache.Http.Header

/-!
# Request methods

A method is a token; letter case counts.
-/

set_option autoImplicit false

namespace EdgeCache

/-- A request method. -/
structure Method where
  text : Bytes
  valid : isToken text = true
deriving DecidableEq

namespace Method

/-- The method spelled by `s`. -/
def ofBytes? (s : Bytes) : Option Method :=
  if h : isToken s = true then some ⟨s, h⟩ else none

def get : Method := ⟨bytes "GET", by decide⟩
def head : Method := ⟨bytes "HEAD", by decide⟩
def connect : Method := ⟨bytes "CONNECT", by decide⟩

end Method
end EdgeCache
