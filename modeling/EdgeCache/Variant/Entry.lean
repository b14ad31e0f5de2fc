import EdgeCache.Http.Plain
import EdgeCache.Variant.Freshness
import EdgeCache.Variant.Selection

/-!
# Stored variants

An entry is a response kept under a key, with the headers of the request that produced it.  Public
entries may be replayed until they expire; private ones only stand in the place that the next public
answer will take.
-/

set_option autoImplicit false

namespace EdgeCache

/-- A body that can be read any number of times. -/
inductive StoredBody where
  /-- A body in memory, perhaps still being written, by its number. -/
  | growing (id : Nat)
  /-- A fixed body; after its chunks every reader meets the failure, if there is one. -/
  | fixed (chunks : List Bytes) (failure : Option String)
deriving DecidableEq

/-- A body given as one string of bytes. -/
def StoredBody.ofBytes (s : Bytes) : StoredBody := .fixed (if s.isEmpty then [] else [s]) none

/-- A stored response with the request headers that led to it. -/
structure Entry where
  /-- Private entries are never replayed, only replaced. -/
  isPublic : Bool
  expiration : Instant
  requestHeaders : Headers
  head : Head
  body : Option StoredBody
deriving DecidableEq

namespace Entry

/-- The entry's lifetime is over. -/
def expired (e : Entry) (now : Instant) : Bool := e.expiration.le now

/-- The entry may answer a request with these headers. -/
def answers (e : Entry) (current : Headers) : Bool :=
  Vary.selects e.head.headers e.requestHeaders current

/-- The private entry that a miss starts with. -/
def speculative (requestHeaders : Headers) (expiration : Instant) : Entry :=
  { isPublic := false, expiration, requestHeaders, head := ⟨.ok, {}⟩, body := none }

end Entry
end EdgeCache
