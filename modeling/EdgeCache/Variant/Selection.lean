import EdgeCache.Http.Header

/-!
# Selecting a variant

A stored response names in its `Vary` fields the request headers it depends on.  It may answer a
later request whose values under each of those names are the ones of the request that produced it.
A `Vary` value that is not text is passed over as a whole, and so is a piece that is no header name.
-/

set_option autoImplicit false

namespace EdgeCache.Vary

/-- The trimmed pieces between the commas of one value; none when the value is not text. -/
def pieces (value : Bytes) : List Bytes :=
  match headerText? value with
  | none => []
  | some text => (Bytes.splitOn 0x2C text).map Bytes.trim

/-- The header names that a response's `Vary` fields name. -/
def names (response : Headers) : List HeaderName :=
  ((response.values .vary).flatMap pieces).filterMap HeaderName.ofBytes?

/-- Every named header has the same values, in the same order, in both requests. -/
def selects (response stored current : Headers) : Bool :=
  (names response).all fun name => stored.values name == current.values name

end EdgeCache.Vary
