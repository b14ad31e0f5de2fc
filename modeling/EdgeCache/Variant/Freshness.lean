import EdgeCache.Settings.Basic

/-!
# Freshness

Instants are seconds and nanoseconds since 1970.  A lifetime is a whole number of seconds, at most a
hundred years long, so that adding one to a clock reading stays within the calendar
(`Instant.latest`) for every clock a century away from its end.
-/

set_option autoImplicit false

namespace EdgeCache

/-- A point in time. -/
structure Instant where
  seconds : Int
  nanos : Nat := 0
deriving DecidableEq

namespace Instant

instance : Inhabited Instant := ⟨⟨0, 0⟩⟩

/-- `a` is earlier than `b` or equal to it. -/
def le (a b : Instant) : Bool :=
  a.seconds < b.seconds || (a.seconds == b.seconds && a.nanos ≤ b.nanos)

/-- The last second of the calendar. -/
def latest : Int := 8210266876799

/-- The instant a number of seconds later, if the calendar reaches that far. -/
def add? (a : Instant) (seconds : Nat) : Option Instant :=
  if a.seconds + seconds ≤ latest then some { a with seconds := a.seconds + seconds } else none

/-- Whole seconds from `now` to `a`, a started one counted in full. -/
def secondsUntil (a now : Instant) : Int :=
  a.seconds - now.seconds + (if now.nanos < a.nanos then 1 else 0)

/-- Whole seconds from `now` to `a`, a started one left out. -/
def wholeSecondsUntil (a now : Instant) : Int :=
  a.seconds - now.seconds - (if a.nanos < now.nanos then 1 else 0)

/-- Microseconds from `a` to `now`, none if `now` is not later. -/
def microsUntil (a now : Instant) : Nat :=
  ((now.seconds - a.seconds) * 1000000 + ((now.nanos : Int) - a.nanos) / 1000).toNat

end Instant

namespace Settings.Cache

/-- The longest lifetime, in seconds: a hundred years. -/
def longestWindow : Nat := 100 * 365 * 24 * 3600

/-- A lifetime of so many seconds, cut to the longest. -/
def window (seconds : Nat) : Nat := min seconds longestWindow

/-- The lifetime of an entry whose response is not known yet. -/
def defaultWindow (c : Cache) : Nat := window c.defaultExpiration

/-- The lifetime of a cacheable response. -/
def ttlWindow (c : Cache) : Nat := window c.ttl

end Settings.Cache
end EdgeCache
