import EdgeCache.Http.Plain
import EdgeCache.Http.Request
import EdgeCache.Variant.Freshness

/-!
# What may be cached

Two questions are asked: whether a request goes through the cache at all (`Eligibility`), and, once
the head of the response is known, whether it may be stored and until when (`Policy`).
-/

set_option autoImplicit false

namespace EdgeCache

/-- An answer of a policy. -/
structure Cacheability where
  cacheable : Bool
  expiresAt : Instant
deriving DecidableEq

/-- Decides on a response head at a clock reading; the text of an error says why it could not. -/
abbrev Policy := Request → Head → Instant → Except String Cacheability

/-- Decides whether a request goes through the cache. -/
abbrev Eligibility := Request → Bool

/-- Store the responses with one of the configured status codes, for the configured time. -/
def Policy.byStatus (c : Settings.Cache) : Policy := fun _ head now =>
  match now.add? c.ttlWindow with
  | none => .error ("ttl of " ++ toString c.ttl ++ "s overflows")
  | some expiresAt => .ok ⟨c.cacheableStatuses.contains head.status.code, expiresAt⟩

/-- `GET` and `HEAD` requests that do not ask for another protocol. -/
def Eligibility.safeMethods (enabled : Bool) : Eligibility := fun r =>
  enabled && (r.method = .get || r.method = .head) && !r.headers.contains .upgrade

end EdgeCache
