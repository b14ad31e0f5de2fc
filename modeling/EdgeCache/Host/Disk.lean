import EdgeCache.Log.Journal
import EdgeCache.Origin.Site
import EdgeCache.Settings.Load
import EdgeCache.Text.Utf8

/-!
# The disk and the environment

Everything else in the library looks at a `Files.Tree`.  Here the part of a real disk that is about
to be looked at is drawn as such a tree, and what has been changed in a tree is carried out on the
disk.
-/

set_option autoImplicit false

namespace EdgeCache.Host

open Files (Place Tree Node)

/-- Bytes as they are read from outside. -/
def ofByteArray (data : ByteArray) : Bytes := data.toList

/-- Bytes as they are sent outside. -/
def toByteArray (data : Bytes) : ByteArray := ⟨data.toArray⟩

/-- The place of an absolute path without links and dots. -/
def placeOf (path : String) : Place := (Files.names (bytes path)).filter fun name => !name.isEmpty

/-- The variables of the environment. -/
def environment : IO (List (String × String)) := do
  let all ← IO.FS.readBinFile "/proc/self/environ"
  let entries := (Bytes.splitOn 0 (ofByteArray all)).filter fun entry => !entry.isEmpty
  return entries.map fun entry =>
    let (name, value) := Bytes.cut 0x3D entry
    (Utf8.lossy name, Utf8.lossy (value.getD []))

/-! ## Drawing -/

/-- What there is at a place, if anything; a file's content only where it is wanted, and a link by
the place it leads to in the end. -/
def look (contents : Bool) (place : Place) : IO (Option Node) := do
  match Utf8.text? place.path with
  | none => return none
  | some path =>
    try
      let entry := (← IO.currentDir) / path
      match (← entry.symlinkMetadata).type with
      | .dir => return some .directory
      | .symlink => return some (.link (bytes (← IO.FS.realPath entry).toString))
      | .file =>
        if contents then return some (.file (ofByteArray (← IO.FS.readBinFile entry)))
        else return some (.file [])
      | .other => return if contents then none else some (.file [])
    catch _ => return none

/-- Add to a tree what lies on the way that names lead from a place. -/
partial def drawNames (contents : Bool) (t : Tree) (here : Place) : List Bytes → IO Tree
  | [] => return t
  | name :: rest => do
    if name.isEmpty || name == Files.dot then drawNames contents t here rest
    else if name == Files.dotDot then drawNames contents t here.dropLast rest
    else
      let there := here ++ [name]
      match ← look contents there with
      | none => return t
      | some node =>
        let t := t.plant there node
        match node with
        | .directory => drawNames contents t there rest
        | .file _ => return t
        | .link target => drawNames contents t [] (Files.names target ++ rest)

/-- Add to a tree what lies on the way of a path. -/
def draw (contents : Bool) (cwd : Place) (t : Tree) (path : Bytes) : IO Tree :=
  drawNames contents t (if Files.isAbsolute path then [] else cwd) (Files.names path)

/-- Draw the files that a configuration of a name may be in. -/
def drawSettings (cwd : Place) (name : String) : IO Tree :=
  let path := Files.join cwd.path (bytes name)
  (path :: (Settings.candidates path).map (·.1)).foldlM (draw true cwd) {}

/-- Draw the files that logs are to be written to. -/
def drawLogs (cwd : Place) (t : Tree) (s : Settings.Logging) : IO Tree :=
  ((s.accessLogFile.toList ++ s.errorLogFile.toList).map bytes).foldlM (draw false cwd) t

/-- Draw the files of a site that a request path may lead to. -/
def drawSite (cwd : Place) (s : Site) (path : Bytes) : IO Tree := do
  let t ← draw true cwd {} s.root
  match t.canonical cwd s.root with
  | .error _ => return t
  | .ok root =>
    let below := Files.join root.path (path.dropWhile (· == 0x2F))
    (below :: s.indexFiles.map (Files.join below)).foldlM (draw true []) t

/-! ## Carrying out -/

/-- Append to the file at a place, which is made if it is missing. -/
def append (place : Place) (data : Bytes) : IO Unit := do
  let file ← IO.FS.Handle.mk ((← IO.currentDir) / Utf8.lossy place.path) .append
  file.write (toByteArray data)
  file.flush

/-- Do to the disk what has been done to a tree: directories and files that are new are made, and
what has been added to a file is appended. -/
def carryOut (before after : Tree) : IO Unit := do
  for (place, node) in after.nodes do
    match before.at? place, node with
    | none, .directory => IO.FS.createDirAll ((← IO.currentDir) / Utf8.lossy place.path)
    | none, .file content => append place content
    | some (.file old), .file new =>
      if old.length < new.length then append place (new.drop old.length)
    | _, _ => pure ()

/-- Write what a journal has collected since it was as it was before.  Of the log files nothing is
kept in memory. -/
def publish (before after : Log.Journal) : IO Log.Journal := do
  let out ← IO.getStdout
  out.putStr after.out
  out.flush
  (← IO.getStderr).putStr after.err
  carryOut before.tree after.tree
  let emptied (t : Tree) (place : Place) : Tree :=
    match t.at? place with
    | some (.file _) => t.put place (.file [])
    | _ => t
  let logs := after.accesses.toList ++ after.errors.toList
  return { after with out := "", err := "", tree := logs.foldl emptied after.tree }

end EdgeCache.Host
