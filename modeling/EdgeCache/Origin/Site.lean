import EdgeCache.Files.Tree
import EdgeCache.Http.MediaType
import EdgeCache.Origin.Script

/-!
# Serving files

A site answers `GET` and `HEAD` requests with the files below a root directory.  The path of a
request is looked up below the root as it stands, without any decoding; a directory stands for its
first index file.  What is served is decided by where the path really leads, after all links and
dots: only a regular file below the root is, so that no path leads out.
-/

set_option autoImplicit false

namespace EdgeCache

/-- A directory whose files are served. -/
structure Site where
  root : Bytes
  /-- The files that stand for a directory, the first one that is there. -/
  indexFiles : List Bytes

namespace Site

open Files

/-- What a request path leads to. -/
inductive Resolution where
  /-- A regular file below the root. -/
  | file (place : Place)
  /-- Nothing that is served, with a line for the log if that is worth one. -/
  | nothing (line : Option Log.Line)
deriving DecidableEq

/-! ## Finding a file -/

/-- The root of the site cannot be reached. -/
def rootMissing (s : Site) (e : IoKind) : Log.Line :=
  .warning ("Static root not found or inaccessible '" ++ Utf8.lossy s.root ++ "': " ++ e.report)

/-- A path leads out of the site. -/
def traversal (path : Bytes) (place : Place) : Log.Line :=
  .warning ("Path traversal attempt blocked: " ++ Utf8.lossy path ++ " -> " ++
    Utf8.lossy place.path)

/-- The path that stands for another one: of a directory, that of its first index file. -/
def withIndex (s : Site) (t : Tree) (path : Bytes) : Bytes :=
  if t.isDirectory [] path then
    ((s.indexFiles.map (join path)).find? (t.isFile [])).getD path
  else path

/-- What a request path leads to in a file tree, where `cwd` is the working directory. -/
def resolve (s : Site) (t : Tree) (cwd : Place) (path : Bytes) : Resolution :=
  match t.canonical cwd s.root with
  | .error e => .nothing (some (s.rootMissing e))
  | .ok root =>
    let below := join root.path (path.dropWhile (· == 0x2F))
    match t.canonical [] (s.withIndex t below) with
    | .error _ => .nothing none
    | .ok place =>
      if !root.isPrefixOf place then .nothing (some (traversal path place))
      else if t.isFile [] place.path then .file place
      else .nothing none

/-! ## Answering -/

/-- The size of the pieces that a file is written in. -/
def pieceSize : Nat := 16384

/-- A byte string in pieces of the given size, the last of which may be shorter; `fuel` bounds their
number. -/
def piecesOf (size : Nat) : (fuel : Nat) → Bytes → List Bytes
  | 0, _ => []
  | fuel + 1, s => if s.isEmpty then [] else s.take size :: piecesOf size fuel (s.drop size)

/-- The pieces of a file. -/
def pieces (content : Bytes) : List Bytes := piecesOf pieceSize content.length content

/-- The fields that describe a file. -/
def describe (place : Place) (content : Bytes) (h : Headers) : Headers :=
  (h.insert .contentType (bytes (MediaType.ofPath place.path))).insert .contentLength
    (Bytes.ofNat content.length)

/-- Answer with a file. -/
def serve (t : Tree) (place : Place) (isHead : Bool) : Script (Except OriginError Status) :=
  match t.read [] place.path with
  | .error e =>
    .emit (.log (.error ("Failed to read file '" ++ Utf8.lossy place.path ++ "': " ++ e.report))) <|
      Script.answerPlain .internalServerError isHead (.error (.io (.ofKind e)))
  | .ok content =>
    .edit (describe place content) <| .commit .ok <|
      Script.writeAll (.ok .ok) (if isHead then [] else pieces content)

/-- Answer requests from the files of a tree. -/
def responder (s : Site) (t : Tree) (cwd : Place) : Responder := fun r =>
  if r.method ≠ .get ∧ r.method ≠ .head then
    .edit (fun h => h.insert .allow (bytes "GET, HEAD")) <|
      Script.answerPlain .methodNotAllowed r.isHead (.ok .methodNotAllowed)
  else
    match s.resolve t cwd r.uri.path with
    | .file place => serve t place r.isHead
    | .nothing line =>
      let answer := Script.answerPlain .notFound r.isHead (.ok .notFound)
      match line with
      | some l => .emit (.log l) answer
      | none => answer

end Site
end EdgeCache
