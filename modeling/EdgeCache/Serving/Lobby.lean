/-!
# The number of connections

A connection that arrives is counted first and judged afterwards, by the number of those that were
counted before it; one that is over the limit is taken off the count again and turned away.
Counting, judging and leaving are steps of their own, so that several connections may be under way
at once, and each step changes the count by one at most.
-/

set_option autoImplicit false

namespace EdgeCache.Serving

/-- Where a connection stands. -/
inductive Standing where
  | arriving
  /-- It is counted; `before` were counted already. -/
  | counted (before : Int)
  /-- It has been let in. -/
  | inside
  /-- It has been turned away; `before` were counted already. -/
  | refused (before : Int)
  /-- It was inside and has ended. -/
  | gone
deriving DecidableEq

/-- The connection is inside. -/
def Standing.isInside : Standing → Bool
  | inside => true
  | _ => false

/-- The connection is counted and neither inside nor turned away. -/
def Standing.isCounted : Standing → Bool
  | counted _ => true
  | _ => false

/-- The count of connections, the limit on it, and where each connection stands. -/
structure Lobby where
  limit : Option Nat := none
  /-- It stands for a counter of 64 bits that wraps around at both ends, and comes to neither.  It
  is never negative, and at most the number of connections that are open at once
  (`Sound.count_eq`), each of which takes up memory. -/
  count : Int := 0
  visitors : List Standing := []

namespace Lobby

/-- A connection that finds this many before it may come in. -/
def admits (l : Lobby) (before : Int) : Bool :=
  match l.limit with
  | some limit => before < limit
  | none => true

/-- A connection arrives. -/
def arrive (l : Lobby) : Lobby := { l with visitors := l.visitors ++ [.arriving] }

/-- One step of a connection on its way in; `none` if it makes no such step. -/
def step (l : Lobby) (i : Nat) : Option Lobby :=
  match l.visitors[i]? with
  | some .arriving =>
    some { l with count := l.count + 1, visitors := l.visitors.set i (.counted l.count) }
  | some (.counted before) =>
    if l.admits before then some { l with visitors := l.visitors.set i .inside }
    else some { l with count := l.count - 1, visitors := l.visitors.set i (.refused before) }
  | _ => none

/-- A connection inside ends; `none` if it is not inside. -/
def leave (l : Lobby) (i : Nat) : Option Lobby :=
  match l.visitors[i]? with
  | some .inside => some { l with count := l.count - 1, visitors := l.visitors.set i .gone }
  | _ => none

/-- What can happen. -/
inductive Turn where
  | arrive
  | step (i : Nat)
  | leave (i : Nat)

/-- What becomes of the lobby; `none` if it cannot happen. -/
def next (l : Lobby) : Turn → Option Lobby
  | .arrive => some l.arrive
  | .step i => l.step i
  | .leave i => l.leave i

/-- The number of connections inside. -/
def inside (l : Lobby) : Nat := l.visitors.countP Standing.isInside

/-- The number of connections that are counted and neither inside nor turned away. -/
def pending (l : Lobby) : Nat := l.visitors.countP Standing.isCounted

end Lobby
end EdgeCache.Serving
