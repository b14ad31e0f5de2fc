import EdgeCache.Bytes

/-!
# Media types of files

The type of a file is chosen by the extension of its name: what follows the last dot of the path's
last component, in any letter case.
-/

set_option autoImplicit false

namespace EdgeCache.MediaType

/-- The last component of a path, empty and `.` components passed over.  A path that is empty or
ends in `..` has none. -/
def fileName? (path : Bytes) : Option Bytes :=
  match ((Bytes.splitOn 0x2F path).reverse.filter fun c => !(c.isEmpty || c == [0x2E])) with
  | [] => none
  | name :: _ => if name = [0x2E, 0x2E] then none else some name

/-- What follows the last dot of a file name.  A dot that leads the name counts only if another
follows. -/
def extension? (path : Bytes) : Option Bytes := do
  let name ← fileName? path
  let after := (name.reverse.takeWhile (· != 0x2E)).reverse
  if after.length + 1 < name.length then some after else none

/-- The types of known extensions. -/
def table : List (String × String) :=
  [("html", "text/html; charset=utf-8"), ("htm", "text/html; charset=utf-8"), ("css", "text/css"),
   ("txt", "text/plain; charset=utf-8"), ("md", "text/plain; charset=utf-8"),
   ("xml", "application/xml"), ("js", "application/javascript"), ("mjs", "application/javascript"),
   ("json", "application/json"), ("wasm", "application/wasm"), ("png", "image/png"),
   ("jpg", "image/jpeg"), ("jpeg", "image/jpeg"), ("gif", "image/gif"), ("svg", "image/svg+xml"),
   ("ico", "image/x-icon"), ("webp", "image/webp"), ("mp4", "video/mp4"), ("webm", "video/webm"),
   ("mp3", "audio/mpeg"), ("woff", "font/woff"), ("woff2", "font/woff2"),
   ("pdf", "application/pdf"), ("zip", "application/zip"), ("gz", "application/gzip"),
   ("gzip", "application/gzip")]

/-- The type of the file at a path. -/
def ofPath (path : Bytes) : String :=
  match extension? path with
  | none => "application/octet-stream"
  | some ext =>
    match table.find? fun row => bytes row.1 == Bytes.lower ext with
    | some row => row.2
    | none => "application/octet-stream"

end EdgeCache.MediaType
