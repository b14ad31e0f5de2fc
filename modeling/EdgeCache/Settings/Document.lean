import EdgeCache.Settings.Sections

/-!
# Settings as a document

The settings written out, every field with its value.  A section that is written out and read again
is the same.
-/

set_option autoImplicit false

namespace EdgeCache.Settings

/-- A number. -/
def number (n : Nat) : Json := .int n

/-- A value that may be absent. -/
def optional {α : Type} (write : α → Json) : Option α → Json
  | some a => write a
  | none => .null

def Cache.document (c : Cache) : Json :=
  .obj [("enabled", .bool c.enabled), ("status_header", .str c.statusHeader),
    ("default_expiration", number c.defaultExpiration), ("ttl", number c.ttl),
    ("cacheable_statuses", .arr (c.cacheableStatuses.map number)),
    ("body_buffer", number c.bodyBuffer)]

def Logging.document (l : Logging) : Json :=
  .obj [("level", .str l.level), ("access_log", .bool l.accessLog),
    ("access_log_format", .str l.accessLogFormat),
    ("access_log_file", optional .str l.accessLogFile),
    ("error_log_file", optional .str l.errorLogFile)]

def Server.document (s : Server) : Json :=
  .obj [("host", .str s.host), ("port", number s.port), ("workers", optional number s.workers)]

def Performance.document (p : Performance) : Json :=
  .obj [("keep_alive_timeout", number p.keepAliveTimeout), ("read_timeout", number p.readTimeout),
    ("write_timeout", number p.writeTimeout), ("max_connections", optional number p.maxConnections)]

def Upstream.document : Upstream → Json
  | .proxy url => .obj [("type", .str "proxy"), ("url", .str url)]
  | .static root indexFiles =>
    .obj [("type", .str "static"), ("root", .str root), ("index_files", .arr (indexFiles.map .str))]

/-- A section of a document with its defaults filled in, where only a few sections can stand
alone. -/
def completed (name : String) (t : Tree) : Except Complaint Json :=
  match name with
  | "cache" => (Cache.schema.read .document .refusedInArray t).map fun vs =>
      (Cache.ofValues vs).document
  | "logging" => (Logging.schema.read .document .refusedInArray t).map fun vs =>
      (Logging.ofValues vs).document
  | _ => (Upstream.read .document t).map Upstream.document

end EdgeCache.Settings

namespace EdgeCache

/-- All sections. -/
def Settings.document (s : Settings) : Json :=
  .obj [("server", s.server.document), ("logging", s.logging.document),
    ("performance", s.performance.document), ("cache", s.cache.document),
    ("upstream", s.upstream.document)]

end EdgeCache
