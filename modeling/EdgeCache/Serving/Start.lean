import EdgeCache.Exchange.Front
import EdgeCache.Log.Journal
import EdgeCache.Log.Message
import EdgeCache.Net.Listeners
import EdgeCache.Origin.Proxy
import EdgeCache.Origin.Site
import EdgeCache.Settings.Load

/-!
# Starting the server

A start goes through the settings, the logs, the pool of workers, the address, the origin, the cache
and the listener, in this order, and ends at the first of them that fails.  What has been done by
then stays done: a log file that was opened is there, though nothing is written to it.
-/

set_option autoImplicit false

namespace EdgeCache.Serving

/-- Why a start has failed. -/
inductive StartError where
  | settings (cause : Settings.LoadError)
  | logs (cause : IoError)
  | address
  | origin (cause : OriginError)
  | cache (cause : CacheError)
  | listener (cause : IoError)
  /-- There are no workers to do anything. -/
  | workers
deriving DecidableEq

namespace StartError

/-- What is known of the failure. -/
def text : StartError → String
  | settings cause => cause.message
  | logs cause | listener cause => cause.inFull
  | address => Quoted.quote Net.invalidAddress
  | origin cause => cause.inFull
  | cache cause => cause.inFull
  | workers => "Worker threads cannot be set to 0"

/-- The exit code. -/
def exitCode : StartError → Nat
  | workers => 101
  | _ => 1

end StartError

/-- Where responses come from. -/
inductive Source where
  | site (s : Site)
  | proxy (p : Proxy)

/-- The source that the settings name. -/
def Source.ofSettings : Settings.Upstream → Except OriginError Source
  | .static root indexFiles => .ok (.site ⟨bytes root, indexFiles.map bytes⟩)
  | .proxy url => (Proxy.ofUrl url).map .proxy

/-- A server that has started. -/
structure Running where
  settings : Settings
  /-- The address that was asked for. -/
  address : Net.Address
  source : Source
  /-- The indicator header. -/
  indicator : Option HeaderName

/-- The front of a server, where the origin does the given thing for the exchange of a number. -/
def Running.front (r : Running) (respond : Nat → Responder) : Front :=
  Front.byDefault r.settings.cache r.indicator respond

/-- The configuration that is loaded when no other name is given. -/
def defaultName : String := "config"

/-- Check what the settings say beside the logs, and listen. -/
def prepare (s : Settings) (listen : Net.Address → Except IoKind Unit) :
    Except StartError Running := do
  if s.server.workers = some 0 then throw .workers
  let address ← match Net.Address.ofHost? s.server.host s.server.port with
    | some a => pure a
    | none => throw .address
  let source ← (Source.ofSettings s.upstream).mapError .origin
  let indicator ← (Front.indicatorNamed s.cache.statusHeader).mapError .cache
  (listen address).mapError fun e => .listener (.ofKind e)
  return { settings := s, address, source, indicator }

/-- Start the server with its arguments in an environment, where `listen` tells whether an address
can be listened on. -/
def start (j : Log.Journal) (env : List (String × String)) (args : List String)
    (listen : Net.Address → Except IoKind Unit) : Log.Journal × Except StartError Running :=
  match Settings.load j.tree j.cwd env (args.headD defaultName) with
  | .error e => (j, .error (.settings e))
  | .ok s =>
    match j.openLogs s.logging with
    | (j, some e) => (j, .error (.logs e))
    | (j, none) =>
      match prepare s listen with
      | .error e => (j, .error e)
      | .ok running => (j.writeAll (Log.started running.address.text s), .ok running)

/-- Report why a start has failed. -/
def StartError.reportTo (e : StartError) (j : Log.Journal) : Log.Journal :=
  j.complain ("Error: " ++ e.text)

/-- The lines logged when a signal has come. -/
def stopping (signal : String) : List Log.Line := [Log.signalled signal, Log.shutdown]

/-- A run of the server until the signal of a name, nobody having connected: what it leaves behind,
and its exit code. -/
def run (j : Log.Journal) (env : List (String × String)) (args : List String)
    (sockets : Net.Listeners) (signal : String) : Log.Journal × Nat :=
  match start j env args fun a => (sockets.listen a true).map fun _ => () with
  | (j, .error e) => (e.reportTo j, e.exitCode)
  | (j, .ok _) => (j.writeAll (stopping signal), 0)

end EdgeCache.Serving
