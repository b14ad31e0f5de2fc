import EdgeCache.Http.Header

/-!
# Fields of one connection

Some header fields concern only the connection they arrive on, and are not passed along: a fixed
set, and whatever the `Connection` fields name.
-/

set_option autoImplicit false

namespace EdgeCache.HopByHop

/-- The names that are never passed along. -/
def fixed : List HeaderName :=
  [.connection, .proxyAuthenticate, .proxyAuthorization, .te, .trailer, .transferEncoding, .upgrade,
    .keepAlive]

/-- The names between the commas of a `Connection` value; none when the value is not text. -/
def namesIn (value : Bytes) : List HeaderName :=
  match headerText? value with
  | none => []
  | some text => ((Bytes.splitOn 0x2C text).map Bytes.trim).filterMap HeaderName.ofBytes?

/-- The names that the `Connection` fields name. -/
def named (h : Headers) : List HeaderName := (h.values .connection).flatMap namesIn

/-- The fields that are passed along. -/
def strip (h : Headers) : Headers := (named h ++ fixed).foldl Headers.remove h

end EdgeCache.HopByHop
