import EdgeCache.Failure
import EdgeCache.Bytes

/-!
# File trees

A file tree has directories, regular files and symbolic links.  A *place* names a node by the names
that lead to it from the root, without links or dots; a *path* is what a program writes, relative
to a working directory, with dots, repeated slashes and links on the way.  `Tree.walk` follows a
path to the place it leads to, one name at a time:

* an empty name and `.` stay, `..` goes up, and above the root is the root;
* a link is replaced by the names of its target, and only so many links are followed;
* only a directory can be gone through, which also holds for the dots and for a slash at the end.

A path is followed in two ways.  The file system takes it as a whole, and limits its length
(`Tree.lookUp`).  A program that wants to know the place (`Tree.canonical`) may start from a path of
any length, but asks the file system for each node on the way by the path of its place, and gives up
where such a path is too long.
-/

set_option autoImplicit false

namespace EdgeCache.Files

/-- The names that lead from the root to a node. -/
abbrev Place := List Bytes

/-- A node of a file tree. -/
inductive Node where
  | directory
  | file (content : Bytes)
  | link (target : Bytes)
deriving DecidableEq

/-- A file tree.  The root is always there, and is a directory. -/
structure Tree where
  nodes : List (Place × Node) := []

/-! ## Paths -/

/-- The path starts at the root. -/
def isAbsolute (path : Bytes) : Bool := path.head? == some 0x2F

/-- The names of a path; some may be empty. -/
def names (path : Bytes) : List Bytes := Bytes.splitOn 0x2F path

def dot : Bytes := [0x2E]
def dotDot : Bytes := [0x2E, 0x2E]

/-- A path below another one; an absolute path stands for itself. -/
def join (base path : Bytes) : Bytes :=
  if isAbsolute path then path
  else if base.isEmpty || base.getLast? == some 0x2F then base ++ path
  else base ++ 0x2F :: path

/-- The place as an absolute path. -/
def Place.path (p : Place) : Bytes :=
  if p.isEmpty then [0x2F] else p.flatMap fun name => 0x2F :: name

/-- The longest name. -/
def maxName : Nat := 255

/-- The longest path that can be looked up as a whole. -/
def maxPath : Nat := 4095

/-- The file system can be asked for the node at this place. -/
def Place.inReach (p : Place) : Bool := p.path.length ≤ maxPath

/-- How many links are followed on one path. -/
def maxLinks : Nat := 40

namespace Tree

/-! ## Walking -/

/-- The node at a place. -/
def at? (t : Tree) (p : Place) : Option Node :=
  if p.isEmpty then some .directory else (t.nodes.find? (·.1 == p)).map (·.2)

/-- Where names lead from a place, following at most `links` links and looking only at nodes that
can be `seen`. -/
def walk (t : Tree) (seen : Place → Bool) (links : Nat) (here : Place) (todo : List Bytes) :
    Except IoKind Place :=
  match todo with
  | [] => .ok here
  | name :: rest =>
    match t.at? here with
    | some .directory =>
      if name = [] ∨ name = dot then t.walk seen links here rest
      else if name = dotDot then t.walk seen links here.dropLast rest
      else if maxName < name.length ∨ seen (here ++ [name]) = false then .error .invalidFilename
      else
        match t.at? (here ++ [name]) with
        | none => .error .notFound
        | some (.link target) =>
          match links with
          | 0 => .error .filesystemLoop
          | fewer + 1 =>
            t.walk seen fewer (if isAbsolute target then [] else here) (names target ++ rest)
        | some _ => t.walk seen links (here ++ [name]) rest
    | _ => .error .notADirectory
  termination_by (links, todo.length)

/-- Where a path leads from a working directory by way of nodes that can be `seen`. -/
def trace (t : Tree) (seen : Place → Bool) (cwd : Place) (path : Bytes) : Except IoKind Place :=
  if path.contains 0 then .error .invalidInput
  else if path.isEmpty then .error .notFound
  else t.walk seen maxLinks (if isAbsolute path then [] else cwd) (names path)

/-- The place that a path leads to in the file system, which sees every node. -/
def follow (t : Tree) (cwd : Place) (path : Bytes) : Except IoKind Place :=
  t.trace (fun _ => true) cwd path

/-- The place that a path leads to for a program that replaces the links on the way itself. -/
def canonical (t : Tree) (cwd : Place) (path : Bytes) : Except IoKind Place :=
  t.trace Place.inReach cwd path

/-- The node that a path leads to; a path that is looked up as a whole is limited in length. -/
def lookUp (t : Tree) (cwd : Place) (path : Bytes) : Except IoKind Node :=
  if !path.contains 0 && maxPath < path.length then .error .invalidFilename
  else
    match t.follow cwd path with
    | .ok p => match t.at? p with | some node => .ok node | none => .error .notFound
    | .error e => .error e

/-- The path leads to a directory. -/
def isDirectory (t : Tree) (cwd : Place) (path : Bytes) : Bool :=
  match t.lookUp cwd path with
  | .ok .directory => true
  | _ => false

/-- The path leads to a regular file. -/
def isFile (t : Tree) (cwd : Place) (path : Bytes) : Bool :=
  match t.lookUp cwd path with
  | .ok (.file _) => true
  | _ => false

/-- The content of the file that a path leads to. -/
def read (t : Tree) (cwd : Place) (path : Bytes) : Except IoKind Bytes :=
  match t.lookUp cwd path with
  | .ok (.file content) => .ok content
  | .ok _ => .error .isADirectory
  | .error e => .error e

/-! ## Changes -/

/-- Put a node at a place. -/
def put (t : Tree) (p : Place) (node : Node) : Tree :=
  ⟨t.nodes.filter (fun n => n.1 != p) ++ [(p, node)]⟩

/-- Put a node at a place, with the directories above it that are missing. -/
def plant (t : Tree) (p : Place) (node : Node) : Tree :=
  let above := (List.range p.length).map fun n => p.take n
  let t := above.foldl (fun t q => if (t.at? q).isSome then t else t.put q .directory) t
  t.put p node

/-- The place where a path puts a new node: everything but its last name is walked. -/
def slot (t : Tree) (start : Place) (path : List Bytes) : Except IoKind Place :=
  match path.getLast? with
  | none => .error .alreadyExists
  | some name =>
    match t.walk (fun _ => true) maxLinks start path.dropLast with
    | .error e => .error e
    | .ok above =>
      match t.at? above with
      | some .directory =>
        if name = [] ∨ name = dot ∨ name = dotDot then .error .alreadyExists
        else if maxName < name.length then .error .invalidFilename
        else .ok (above ++ [name])
      | _ => .error .notADirectory

/-- Make one directory. -/
def makeDirectory (t : Tree) (start : Place) (path : List Bytes) : Except IoKind Tree :=
  match t.slot start path with
  | .error e => .error e
  | .ok p => if (t.at? p).isSome then .error .alreadyExists else .ok (t.put p .directory)

/-- The names lead to a directory. -/
def leadsToDirectory (t : Tree) (start : Place) (path : List Bytes) : Bool :=
  match t.walk (fun _ => true) maxLinks start path with
  | .ok p => t.at? p == some .directory
  | .error _ => false

/-- Make a directory and those above it that are missing; the names are given from the last one
upwards.  What is there already and is a directory is left as it is. -/
def makeDirectories (t : Tree) (start : Place) : List Bytes → Except IoKind Tree
  | [] => .ok t
  | name :: above =>
    let path := (name :: above).reverse
    let settleFor (t : Tree) : IoKind → Except IoKind Tree := fun e =>
      if t.leadsToDirectory start path then .ok t else .error e
    match t.makeDirectory start path with
    | .ok t' => .ok t'
    | .error .notFound =>
      match t.makeDirectories start above with
      | .error e => .error e
      | .ok t' =>
        match t'.makeDirectory start path with
        | .ok t'' => .ok t''
        | .error e => settleFor t' e
    | .error e => settleFor t e

/-- Where a file is opened for writing that need not be there yet; fewer than `tries` links lead to
it.  The file is made if it is missing. -/
def openFile (t : Tree) : (tries : Nat) → Place → List Bytes → Except IoKind (Place × Tree)
  | 0, _, _ => .error .filesystemLoop
  | tries + 1, start, path =>
    match t.slot start path with
    | .error .alreadyExists => .error .isADirectory
    | .error e => .error e
    | .ok p =>
      match t.at? p with
      | none => .ok (p, t.put p (.file []))
      | some (.file _) => .ok (p, t)
      | some .directory => .error .isADirectory
      | some (.link target) =>
        t.openFile tries (if isAbsolute target then [] else p.dropLast) (names target)

/-- Open a file for appending, with the directories above it made first. -/
def openForAppend (t : Tree) (cwd : Place) (path : Bytes) : Tree × Except IoKind Place :=
  if path.contains 0 then (t, .error .invalidInput)
  else
    let start := if isAbsolute path then [] else cwd
    let all := names path
    let parts := all.filter fun name => !(name.isEmpty || name == dot)
    let parts := if !isAbsolute path && all.head? == some dot then dot :: parts else parts
    match t.makeDirectories start (parts.dropLast).reverse with
    | .error e => (t, .error e)
    | .ok t =>
      if path.isEmpty then (t, .error .notFound)
      else if maxPath < path.length then (t, .error .invalidFilename)
      else if all.getLast? == some [] then (t, .error .isADirectory)
      else
        match t.openFile (maxLinks + 1) start all with
        | .ok (p, t') => (t', .ok p)
        | .error e => (t, .error e)

/-- Append to a file. -/
def append (t : Tree) (p : Place) (more : Bytes) : Tree :=
  match t.at? p with
  | some (.file content) => t.put p (.file (content ++ more))
  | _ => t

/-- The regular files below a place, by the names that lead there from it. -/
def filesBelow (t : Tree) (p : Place) : List (Place × Bytes) :=
  t.nodes.filterMap fun n =>
    match n.2 with
    | .file content => if p.isPrefixOf n.1 then some (n.1.drop p.length, content) else none
    | _ => none

end Tree
end EdgeCache.Files
