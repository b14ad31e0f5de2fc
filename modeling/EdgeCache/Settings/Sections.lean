import EdgeCache.Settings.Basic
import EdgeCache.Settings.Schema

/-!
# The sections of the configuration

The fields of each section, and the settings that they make.  The section for the origin is a choice
between two forms; which one is meant stands under `type`, or first in a list.  Its fields are
always read strictly.
-/

set_option autoImplicit false

namespace EdgeCache.Settings

/-! ## Sections with fixed fields -/

def Cache.schema : Schema :=
  ⟨"struct CacheConfig",
   [{ name := "enabled", kind := .boolean }, { name := "status_header", kind := .text },
    { name := "default_expiration", kind := .natural64 }, { name := "ttl", kind := .natural64 },
    { name := "cacheable_statuses", kind := .list .natural16 },
    { name := "body_buffer", kind := .size }]⟩

/-- The numbers in a list of values. -/
def numbers (vs : List Value) : List Nat :=
  vs.filterMap fun
    | .natural n => some n
    | _ => none

/-- The texts in a list of values. -/
def texts (vs : List Value) : List String :=
  vs.filterMap fun
    | .text s => some s
    | _ => none

def Cache.ofValues (vs : Values) : Cache :=
  let d : Cache := {}
  { enabled := vs.boolean "enabled" d.enabled
    statusHeader := (vs.text? "status_header").getD d.statusHeader
    defaultExpiration := (vs.natural? "default_expiration").getD d.defaultExpiration
    ttl := (vs.natural? "ttl").getD d.ttl
    cacheableStatuses := numbers (vs.list "cacheable_statuses" (d.cacheableStatuses.map .natural))
    bodyBuffer := (vs.natural? "body_buffer").getD d.bodyBuffer }

def Logging.schema : Schema :=
  ⟨"struct LoggingConfig",
   [{ name := "level", kind := .text, presence := .required },
    { name := "access_log", kind := .boolean, presence := .required },
    { name := "access_log_format", kind := .text },
    { name := "access_log_file", kind := .optional .text },
    { name := "error_log_file", kind := .optional .text }]⟩

def Logging.ofValues (vs : Values) : Logging :=
  let d : Logging := {}
  { level := (vs.text? "level").getD d.level
    accessLog := vs.boolean "access_log" d.accessLog
    accessLogFormat := (vs.text? "access_log_format").getD d.accessLogFormat
    accessLogFile := vs.text? "access_log_file"
    errorLogFile := vs.text? "error_log_file" }

def Server.schema : Schema :=
  ⟨"struct ServerConfig",
   [{ name := "host", kind := .text, presence := .required },
    { name := "port", kind := .natural16, presence := .required },
    { name := "workers", kind := .optional .size, presence := .named }]⟩

def Server.ofValues (vs : Values) : Server :=
  let d : Server := {}
  { host := (vs.text? "host").getD d.host
    port := (vs.natural? "port").getD d.port
    workers := vs.natural? "workers" }

def Performance.schema : Schema :=
  ⟨"struct PerformanceConfig",
   [{ name := "keep_alive_timeout", kind := .natural64, presence := .required },
    { name := "read_timeout", kind := .natural64, presence := .required },
    { name := "write_timeout", kind := .natural64, presence := .required },
    { name := "max_connections", kind := .optional .natural64, presence := .named }]⟩

def Performance.ofValues (vs : Values) : Performance :=
  let d : Performance := {}
  { keepAliveTimeout := (vs.natural? "keep_alive_timeout").getD d.keepAliveTimeout
    readTimeout := (vs.natural? "read_timeout").getD d.readTimeout
    writeTimeout := (vs.natural? "write_timeout").getD d.writeTimeout
    maxConnections := vs.natural? "max_connections" }

/-! ## The origin -/

namespace Upstream

def proxySchema : Schema :=
  ⟨"struct variant UpstreamConfig::Proxy",
   [{ name := "url", kind := .text, presence := .required }]⟩

def staticSchema : Schema :=
  ⟨"struct variant UpstreamConfig::Static",
   [{ name := "root", kind := .text, presence := .required },
    { name := "index_files", kind := .list .text }]⟩

/-- Which form is meant, and the tree with the fields of that form. -/
def split (m : Manner) (t : Tree) : Except Complaint (Tree × Tree) :=
  let missing : Except Complaint (Tree × Tree) := .error (.message "missing field `type`")
  match t with
  | .table members origin =>
    match Tree.lookUp members "type" with
    | some tag => .ok (tag, .table (members.filter fun p => p.1 != "type") origin)
    | none => missing
  | .list (tag :: rest) origin => .ok (tag, .list rest origin)
  | .list [] _ => missing
  | t => .error (t.mismatch m "internally tagged enum UpstreamConfig")

/-- Read the section for the origin. -/
def read (m : Manner) (t : Tree) : Except Complaint Upstream := do
  let m := { m with loose := false }
  let (tag, fields) ← split m t
  match tag with
  | .scalar (.text "proxy") _ =>
    let vs ← proxySchema.read m .refusedInSequence fields
    return .proxy ((vs.text? "url").getD "")
  | .scalar (.text "static") _ =>
    let vs ← staticSchema.read m .refusedInSequence fields
    return .static ((vs.text? "root").getD "")
      (texts (vs.list "index_files" (defaultIndexFiles.map .text)))
  | .scalar (.text other) _ =>
    .error (.message ("unknown variant `" ++ other ++ "`, expected `proxy` or `static`"))
  | tag => .error (tag.mismatch m "variant identifier")

end Upstream

/-! ## The whole configuration -/

/-- Read a section by its name; `none` if it is missing. -/
def section? {α : Type} (members : List (String × Tree)) (name : String)
    (read : Tree → Except Complaint α) : Except Complaint (Option α) :=
  match Tree.lookUp members name with
  | none => .ok none
  | some t => ((read t).mapError (Complaint.under name)).map some

/-- A section that has to be there. -/
def required {α : Type} (name : String) : Option α → Except Complaint α
  | some a => .ok a
  | none => .error (.message ("missing field `" ++ name ++ "`"))

/-- Read the whole configuration from the members of its root. -/
def ofMembers (members : List (String × Tree)) : Except Complaint Settings := do
  let m := Manner.layered
  let cache ← section? members "cache" fun t => (Cache.schema.read m .ignored t).map Cache.ofValues
  let logging ← section? members "logging" fun t =>
    (Logging.schema.read m .ignored t).map Logging.ofValues
  let performance ← section? members "performance" fun t =>
    (Performance.schema.read m .ignored t).map Performance.ofValues
  let server ← section? members "server" fun t =>
    (Server.schema.read m .ignored t).map Server.ofValues
  let upstream ← section? members "upstream" (Upstream.read m)
  return { server := ← required "server" server
           logging := ← required "logging" logging
           performance := ← required "performance" performance
           cache := cache.getD {}
           upstream := upstream.getD default }

end EdgeCache.Settings
