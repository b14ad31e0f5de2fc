import EdgeCache.Files.Tree
import EdgeCache.Settings.Sections
import EdgeCache.Text.Utf8

/-!
# Loading the configuration

The configuration has three layers: defaults, a file, and the environment; what a later layer sets
replaces what an earlier one has.  The file is found by a name with or without its extension, which
also tells the format.  A file that is missing, that cannot be read, or that has another extension
is an empty layer, but one with mistakes is an error.
-/

set_option autoImplicit false

namespace EdgeCache.Settings

/-- Why the configuration cannot be loaded. -/
inductive LoadError where
  /-- The file has mistakes. -/
  | unparsable (file : String)
  | refused (complaint : Complaint)
deriving DecidableEq

def LoadError.message : LoadError → String
  | unparsable file => "parse error in " ++ file
  | refused complaint => complaint.text

/-! ## The file -/

/-- The formats of a configuration file. -/
inductive Format where
  | toml
  | json
deriving DecidableEq

namespace Format

/-- The extension of files in this format. -/
def extension : Format → Bytes
  | toml => bytes "toml"
  | json => bytes "json"

/-- The format with a given extension. -/
def ofExtension? (ext : Bytes) : Option Format := [toml, json].find? fun f => f.extension == ext

/-- The members at the root of a document. -/
def parse? (origin : String) (text : String) : Format → Option (List (String × Tree))
  | toml => (Toml.parse text).map (Tree.ofTomlMembers (some origin))
  | json =>
    match Json.parse text with
    | some (.obj members) => some (Tree.ofJsonMembers false (some origin) members)
    | _ => none

end Format

/-- A path without the slashes and the single dots at its end; nothing if it then ends in two dots,
or nothing is left. -/
def fileStem? (path : Bytes) : Option Bytes :=
  let parts := (Files.names path).reverse.dropWhile fun c => c.isEmpty || c == Files.dot
  match parts with
  | [] => none
  | name :: above =>
    if name = Files.dotDot then none else some (Bytes.joinWith 0x2F (name :: above).reverse)

/-- The extension of the last name of a path: what follows its last dot, if that does not lead. -/
def extension (path : Bytes) : Bytes :=
  let name := ((fileStem? path).getD []).reverse.takeWhile (· != 0x2F)
  let ext := name.takeWhile (· != 0x2E)
  if ext.length + 1 < name.length then ext.reverse else []

/-- The files that may be meant by a path without an extension, with their formats. -/
def candidates (path : Bytes) : List (Bytes × Format) :=
  match fileStem? path with
  | none => []
  | some stem => [Format.toml, Format.json].map fun f => (stem ++ 0x2E :: f.extension, f)

/-- Where the file with a name is, and its format: under the name itself, or else with the extension
of a format. -/
def findFile? (t : Files.Tree) (cwd : Files.Place) (name : Bytes) : Option (Bytes × Format) :=
  let path := Files.join cwd.path name
  if t.isFile cwd path then (Format.ofExtension? (extension path)).map fun f => (path, f)
  else (candidates path).find? fun c => t.isFile cwd c.1

/-- Without the names that two places have in common at their beginning. -/
def withoutCommon : List Bytes → List Bytes → List Bytes × List Bytes
  | a :: s, b :: t => if a = b then withoutCommon s t else (a :: s, b :: t)
  | s, t => (s, t)

/-- A path as seen from the working directory. -/
def relative (cwd : Files.Place) (path : Bytes) : Bytes :=
  let parts := (Files.names path).filter fun c => !(c.isEmpty || c == Files.dot)
  let (rest, back) := withoutCommon parts cwd
  Bytes.joinWith 0x2F (List.replicate back.length Files.dotDot ++ rest)

/-- The layer of the file. -/
def fileLayer (t : Files.Tree) (cwd : Files.Place) (name : Bytes) :
    Except LoadError (List (String × Tree)) :=
  match findFile? t cwd name with
  | none => .ok []
  | some (path, format) =>
    let origin := Utf8.lossy (relative cwd path)
    match t.read cwd path with
    | .error _ => .ok []
    | .ok content =>
      match Utf8.text? content with
      | none => .ok []
      | some text =>
        match format.parse? origin text with
        | some members => .ok members
        | none => .error (.unparsable origin)

/-! ## The environment -/

/-- Replace each two underscores by a dot. -/
def dotted : List Char → List Char
  | '_' :: '_' :: s => '.' :: dotted s
  | c :: s => c :: dotted s
  | [] => []

/-- What the names of variables begin with, in lower case. -/
def variableStart : String := "server_"

/-- The path that a variable sets, if it is meant for the configuration. -/
def variablePath? (name : String) : Option String :=
  let name := Tree.lowerName name
  if name.startsWith variableStart then
    some (String.ofList (dotted (name.toList.drop variableStart.length)))
  else none

/-- The layer of the environment. -/
def environmentLayer (env : List (String × String)) : List (String × Tree) :=
  env.filterMap fun (name, value) =>
    (variablePath? name).map fun path => (path, .scalar (.text value) (some "the environment"))

/-! ## All layers -/

/-- The layer of the defaults that are not part of a section's description. -/
def defaultLayer : List (String × Tree) :=
  let d : Settings := {}
  let number (n : Nat) : Tree := .scalar (.int n) none
  [("server.host", .scalar (.text d.server.host) none), ("server.port", number d.server.port),
   ("logging.level", .scalar (.text d.logging.level) none),
   ("logging.access_log", .scalar (.bool d.logging.accessLog) none),
   ("performance.keep_alive_timeout", number d.performance.keepAliveTimeout),
   ("performance.read_timeout", number d.performance.readTimeout),
   ("performance.write_timeout", number d.performance.writeTimeout)]

/-- Load the configuration with a name. -/
def load (t : Files.Tree) (cwd : Files.Place) (env : List (String × String)) (name : String) :
    Except LoadError Settings := do
  let file ← fileLayer t cwd (bytes name)
  let root := ((Tree.empty.layer defaultLayer).layer file).layer (environmentLayer env)
  (ofMembers root.asTable.1).mapError .refused

end EdgeCache.Settings
