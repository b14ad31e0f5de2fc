/-!
# Settings

The sections of the configuration and their defaults.  They are loaded in layers, from a file and
the environment (`Settings.load`), or read from a single document (`Settings.completed`).
-/

set_option autoImplicit false

namespace EdgeCache.Settings

/-- Response cache settings. -/
structure Cache where
  /-- When off, every request is forwarded untouched. -/
  enabled : Bool := true
  /-- Response header that carries `hit`, `miss` or `skip`; blank for none. -/
  statusHeader : String := "X-Cache-Status"
  /-- Seconds that an entry counts as valid before its response is known. -/
  defaultExpiration : Nat := 3600
  /-- Seconds that a cacheable response stays fresh. -/
  ttl : Nat := 600
  /-- Status codes that are stored. -/
  cacheableStatuses : List Nat := [200, 203, 204, 300, 301, 308, 410]
  /-- Body chunks buffered between the origin and the store. -/
  bodyBuffer : Nat := 16
deriving DecidableEq

/-- Where responses come from. -/
inductive Upstream where
  /-- Forward to another server. -/
  | proxy (url : String)
  /-- Serve the files below a directory. -/
  | static (root : String) (indexFiles : List String)
deriving DecidableEq

/-- The index files tried in a directory when none are configured. -/
def defaultIndexFiles : List String := ["index.html", "index.htm"]

instance : Inhabited Upstream := ⟨.static "public" defaultIndexFiles⟩

/-- Listening address and size of the worker pool. -/
structure Server where
  host : String := "127.0.0.1"
  port : Nat := 8080
  workers : Option Nat := none
deriving DecidableEq

/-- Logs. -/
structure Logging where
  level : String := "info"
  accessLog : Bool := true
  accessLogFormat : String := "combined"
  accessLogFile : Option String := none
  errorLogFile : Option String := none
deriving DecidableEq

/-- Connection limits, in seconds and connections. -/
structure Performance where
  keepAliveTimeout : Nat := 75
  readTimeout : Nat := 30
  writeTimeout : Nat := 30
  maxConnections : Option Nat := none
deriving DecidableEq

end Settings

/-- The whole configuration. -/
structure Settings where
  server : Settings.Server := {}
  logging : Settings.Logging := {}
  performance : Settings.Performance := {}
  cache : Settings.Cache := {}
  upstream : Settings.Upstream := default
deriving DecidableEq

end EdgeCache
