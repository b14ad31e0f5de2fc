import EdgeCache.Log.Calendar
import EdgeCache.Text.Json

/-!
# Access log entries

One entry is written for each request.  Its form is one of three fixed ones — `combined`, `common`
and `json` — or else a pattern in which each variable, such as `$status`, is replaced by its value.

The variables of a pattern are replaced one after another in a fixed order, each in the whole text
as it then stands.  A variable whose name begins with the name of another comes before that other
one.
-/

set_option autoImplicit false

namespace EdgeCache.Log

/-- What is known of a request after it has been answered. -/
structure Access where
  /-- The client's address, without its port. -/
  remoteAddr : String := "127.0.0.1"
  time : LocalTime
  method : String := "GET"
  path : String := "/"
  /-- Without the question mark. -/
  query : Option String := none
  httpVersion : String := "1.1"
  status : Nat := 200
  bodyBytes : Nat := 0
  referer : Option String := none
  userAgent : Option String := none
  /-- In microseconds. -/
  requestTime : Nat := 0
  /-- `hit`, `miss` or `skip`. -/
  cacheStatus : Option String := none

namespace Access

/-- Path and query. -/
def requestUri (e : Access) : String :=
  match e.query with
  | some q => e.path ++ "?" ++ q
  | none => e.path

/-- The request line. -/
def requestLine (e : Access) : String :=
  e.method ++ " " ++ e.requestUri ++ " HTTP/" ++ e.httpVersion

/-- A dash for what is absent. -/
def orDash (s : Option String) : String := s.getD "-"

/-- The request time in seconds, with three places. -/
def seconds (e : Access) : String :=
  ((Binary64.ofNat e.requestTime).divide (Binary64.ofNat 1000000)).fixed 3

/-- The common log format. -/
def common (e : Access) : String :=
  e.remoteAddr ++ " - - [" ++ e.time.common ++ "] \"" ++ e.requestLine ++ "\" " ++
    toString e.status ++ " " ++ toString e.bodyBytes

/-- The combined log format, with the cache status at its end. -/
def combined (e : Access) : String :=
  e.common ++ " \"" ++ orDash e.referer ++ "\" \"" ++ orDash e.userAgent ++ "\" " ++
    orDash e.cacheStatus

/-- A text or null. -/
def textOrNull : Option String → Json
  | some s => .str s
  | none => .null

/-- The entry as a document, members in alphabetical order. -/
def json (e : Access) : Json :=
  .obj [
    ("body_bytes", .int e.bodyBytes),
    ("cache_status", textOrNull e.cacheStatus),
    ("http_version", .str e.httpVersion),
    ("method", .str e.method),
    ("path", .str e.path),
    ("query", textOrNull e.query),
    ("referer", textOrNull e.referer),
    ("remote_addr", .str e.remoteAddr),
    ("request_time_us", .int e.requestTime),
    ("status", .int e.status),
    ("time", .str e.time.iso),
    ("user_agent", textOrNull e.userAgent)]

/-! ## Patterns -/

/-- What follows `start` in `s`, if `s` begins with it. -/
def dropStart? : List Char → List Char → Option (List Char)
  | [], s => some s
  | _ :: _, [] => none
  | a :: start, c :: s => if a = c then dropStart? start s else none

/-- Replace every occurrence of `name`, from left to right.  After a replacement the search goes on
behind the occurrence; `fuel` bounds the number of characters looked at. -/
def replaceWith (name value : List Char) : Nat → List Char → List Char
  | 0, s => s
  | _ + 1, [] => []
  | fuel + 1, c :: s =>
    match dropStart? name (c :: s) with
    | some rest => value ++ replaceWith name value fuel rest
    | none => c :: replaceWith name value fuel s

/-- Replace every occurrence of a non-empty name. -/
def replaceAll (name value s : List Char) : List Char := replaceWith name value s.length s

/-- The variables with their values, in the order in which they are replaced. -/
def values (e : Access) : List (String × String) :=
  [("$remote_addr", e.remoteAddr),
   ("$time_local", e.time.common),
   ("$time_iso8601", e.time.iso),
   ("$request_time", e.seconds),
   ("$request_method", e.method),
   ("$request_uri", e.requestUri),
   ("$request", e.requestLine),
   ("$status", toString e.status),
   ("$body_bytes_sent", toString e.bodyBytes),
   ("$http_referer", orDash e.referer),
   ("$http_user_agent", orDash e.userAgent),
   ("$cache_status", orDash e.cacheStatus)]

/-- The pattern with its variables replaced. -/
def expand (e : Access) (pattern : String) : String :=
  String.ofList (e.values.foldl (fun s v => replaceAll v.1.toList v.2.toList s) pattern.toList)

/-- The entry in a format. -/
def format (e : Access) (format : String) : String :=
  match format with
  | "combined" => e.combined
  | "common" => e.common
  | "json" => e.json.render
  | pattern => e.expand pattern

end Access
end EdgeCache.Log
