import EdgeCache.Serving.Service

/-!
# The accept loop

The loop takes connections from its listener, one after another, until it is told to stop.  A
failure to take a connection is logged and otherwise ignored; what has been taken before the stop
goes on.
-/

set_option autoImplicit false

namespace EdgeCache.Serving

/-- What makes the loop act. -/
inductive Summons where
  /-- The listener has a connection. -/
  | connection (peer : Net.Address)
  /-- The listener has failed to give one. -/
  | failure (cause : String)
  | stop
deriving DecidableEq

/-- The loop: the service it feeds, and whether it goes on. -/
structure Loop where
  service : Service := {}
  running : Bool := true

namespace Loop

/-- Act on a summons.  A loop that has stopped takes no notice. -/
def heed (t : Terms) (l : Loop) (summons : Summons) : Loop :=
  if !l.running then l
  else
    match summons with
    | .connection peer => { l with service := l.service.accept t peer }
    | .failure cause => { l with service := l.service.note t [Log.acceptFailed cause] }
    | .stop => { service := l.service.note t [Log.shutdown], running := false }

/-- Act on several summonses in turn. -/
def heedAll (t : Terms) (l : Loop) (summonses : List Summons) : Loop := summonses.foldl (heed t) l

end Loop
end EdgeCache.Serving
