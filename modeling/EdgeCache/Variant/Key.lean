import EdgeCache.Http.Query
import EdgeCache.Http.Request

/-!
# Cache keys

A key names a resource: method, host, path and the canonical query, as in `GET host/path?query`.  It
does not depend on the request's headers apart from `Host`; variants of one resource that depend on
headers are told apart by `Variant/Selection`.
-/

set_option autoImplicit false

namespace EdgeCache

/-- The part of a key that a query contributes: nothing when it has no parameters. -/
def keyQuery (query : Option Bytes) : Bytes :=
  match (query.map Query.canonical).getD [] with
  | [] => []
  | q => 0x3F :: q

/-- The key of the resource that a request asks for. -/
def Request.cacheKey (r : Request) : Bytes :=
  r.method.text ++ 0x20 :: (r.host ++ r.uri.path ++ keyQuery r.uri.query)

end EdgeCache
