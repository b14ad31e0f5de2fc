import EdgeCache.Log.Line
import EdgeCache.Settings.Basic

/-!
# Messages of the server

What the server logs about itself and about its connections.
-/

set_option autoImplicit false

namespace EdgeCache.Log

/-- The line above and below the report of a start. -/
def rule : String := String.ofList (List.replicate 38 '=')

/-- A line for a setting that may be absent. -/
def forSetting (label : String) : Option String → List Line
  | some value => [.info (label ++ value)]
  | none => []

/-- The report of a start. -/
def started (address : String) (s : Settings) : List Line :=
  [.info rule, .info "Caching server started successfully",
   .info ("Listening on: http://" ++ address), .info ("Log level: " ++ s.logging.level)] ++
  forSetting "Worker threads: " (s.server.workers.map toString) ++
  [if s.cache.enabled then
    .info ("Cache: enabled (ttl " ++ toString s.cache.ttl ++ "s, status header '" ++
      s.cache.statusHeader ++ "')")
   else .info "Cache: disabled"] ++
  forSetting "Access log: " s.logging.accessLogFile ++
  forSetting "Error log: " s.logging.errorLogFile ++
  [.info (rule ++ "\n")]

/-- The report of a shutdown. -/
def shutdown : Line := .info "\n[Shutdown] Signal received, no longer accepting connections"

/-- A signal to shut down has come. -/
def signalled (name : String) : Line := .debug ("[Signal] " ++ name ++ " received")

/-- A connection has been let in. -/
def connectionAccepted (peer : String) : Line := .debug ("[Connection] Accepted from: " ++ peer)

/-- A connection has been turned away, with `active` others open. -/
def connectionRejected (active limit : Nat) : Line :=
  .warning ("Max connections reached: " ++ toString active ++ "/" ++ toString limit ++
    ". Connection rejected.")

/-- A connection has been open for too long. -/
def connectionTimedOut (peer : String) (seconds : Nat) : Line :=
  .warning ("Connection from " ++ peer ++ " timed out after " ++ toString seconds ++ " seconds")

/-- A connection has broken down. -/
def connectionFailed (cause : String) : Line := .error ("Failed to serve connection: " ++ cause)

/-- No connection could be taken from the listener. -/
def acceptFailed (cause : String) : Line := .error ("Failed to accept connection: " ++ cause)

end EdgeCache.Log
