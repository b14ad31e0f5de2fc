import EdgeCache.Bytes
import EdgeCache.Text.Json
import EdgeCache.Text.Toml.Document

/-!
# Configuration values and their layers

A configuration is a tree of values.  Each value may carry an origin, the words for where it was
written.  Layers are put into a tree one value at a time: a table is merged into what is there,
every other value takes its place.  Where a value goes is written as a path such as `cache.ttl` or
`cache.cacheable_statuses[0]`; what stands in the way of a path is cleared away.
-/

set_option autoImplicit false

namespace EdgeCache.Settings

/-- A value without parts. -/
inductive Scalar where
  | absent
  | bool (b : Bool)
  | int (n : Int)
  | float (x : Binary64)
  | text (s : String)
deriving DecidableEq

/-- A configuration value. -/
inductive Tree where
  | scalar (v : Scalar) (origin : Option String)
  | list (items : List Tree) (origin : Option String)
  | table (members : List (String × Tree)) (origin : Option String)

namespace Tree

/-- A table without members. -/
def empty : Tree := .table [] none

/-- The value of a missing item. -/
def missing : Tree := .scalar .absent none

/-! ## Documents -/

/-- The greatest number of 63 bits. -/
def maxSigned : Int := 9223372036854775807

mutual

/-- The tree of a JSON document.  Unless `wide` numbers are kept, whole ones beyond 63 bits become
doubles. -/
def ofJson (wide : Bool) (origin : Option String) : Json → Tree
  | .null => .scalar .absent origin
  | .bool b => .scalar (.bool b) origin
  | .int n =>
    .scalar (if wide || n ≤ maxSigned then .int n else .float (Binary64.ofNat n.toNat)) origin
  | .float x => .scalar (.float x) origin
  | .str s => .scalar (.text s) origin
  | .arr items => .list (ofJsonItems wide origin items) origin
  | .obj members => .table (ofJsonMembers wide origin members) origin

/-- The trees of the items of an array. -/
def ofJsonItems (wide : Bool) (origin : Option String) : List Json → List Tree
  | [] => []
  | j :: js => ofJson wide origin j :: ofJsonItems wide origin js

/-- The trees of the members of an object. -/
def ofJsonMembers (wide : Bool) (origin : Option String) :
    List (String × Json) → List (String × Tree)
  | [] => []
  | (name, j) :: rest => (name, ofJson wide origin j) :: ofJsonMembers wide origin rest

end

mutual

/-- The tree of a TOML value. -/
def ofToml (origin : Option String) : Toml → Tree
  | .str s => .scalar (.text s) origin
  | .int n => .scalar (.int n) origin
  | .float x => .scalar (.float x) origin
  | .bool b => .scalar (.bool b) origin
  | .date text => .scalar (.text text) origin
  | .arr items => .list (ofTomlItems origin items) origin
  | .table members => .table (ofTomlMembers origin members) origin

/-- The trees of the items of an array. -/
def ofTomlItems (origin : Option String) : List Toml → List Tree
  | [] => []
  | t :: ts => ofToml origin t :: ofTomlItems origin ts

/-- The trees of the members of a table. -/
def ofTomlMembers (origin : Option String) : List (String × Toml) → List (String × Tree)
  | [] => []
  | (name, t) :: rest => (name, ofToml origin t) :: ofTomlMembers origin rest

end

/-! ## Putting a value in its place -/

/-- The value under a name. -/
def lookUp (members : List (String × Tree)) (name : String) : Option Tree :=
  (members.find? (·.1 == name)).map (·.2)

/-- Let a name stand for a value. -/
def put (members : List (String × Tree)) (name : String) (v : Tree) : List (String × Tree) :=
  if members.any (·.1 == name) then members.map fun m => if m.1 == name then (name, v) else m
  else members ++ [(name, v)]

/-- The value as a table: what is none is taken for an empty one. -/
def asTable : Tree → List (String × Tree) × Option String
  | .table members origin => (members, origin)
  | _ => ([], none)

/-- The value as a list: what is none is taken for an empty one. -/
def asList : Tree → List Tree × Option String
  | .list items origin => (items, origin)
  | _ => ([], none)

/-- Names are compared without regard to the case of ASCII letters. -/
def lowerName (s : String) : String := String.ofList (s.toList.map Char.toLower)

mutual

/-- Let a name in a table stand for a value, the members of a table being merged into what is
there. -/
def assign (name : String) (v : Tree) (root : Tree) : Tree :=
  let (members, origin) := root.asTable
  match v with
  | .table more _ =>
    .table (put members (lowerName name)
      (assignAll more ((lookUp members (lowerName name)).getD empty))) origin
  | .scalar s o => .table (put members (lowerName name) (.scalar s o)) origin
  | .list items o => .table (put members (lowerName name) (.list items o)) origin

/-- Let several names stand for values, one after another. -/
def assignAll : List (String × Tree) → Tree → Tree
  | [], root => root
  | (name, v) :: rest, root => assignAll rest (assign name v root)

end

/-! ## Paths -/

/-- A step of a path. -/
inductive Step where
  | name (s : String)
  /-- A place in a list; below zero, counted from the end. -/
  | index (i : Int)
deriving DecidableEq

/-- The place that an index stands for in a list. -/
def placeOf (i : Int) (length : Nat) : Nat := if 0 ≤ i then i.toNat else length - (-i).toNat

/-- Put a value at the end of a path. -/
def setAt (v : Tree) : List Step → Tree → Tree
  | [], _ => v
  | [.name s], root => assign s v root
  | .name s :: rest, root =>
    let (members, origin) := root.asTable
    .table (put members s (setAt v rest ((lookUp members s).getD missing))) origin
  | .index i :: rest, root =>
    let (items, origin) := root.asList
    let place := placeOf i items.length
    let items := items ++ List.replicate (place + 1 - items.length) missing
    .list (items.set place (setAt v rest (items.getD place missing))) origin

/-- A character of a name in a path. -/
def isNameChar (c : Char) : Bool := c.isAlphanum || c = ' ' || c = '_' || c = '-'

/-- Read the index behind an opening bracket. -/
def index? (s : List Char) : Option (Int × List Char) :=
  let (negative, s) := match s with
    | '-' :: s => (true, s)
    | s => (false, s)
  let digits := s.takeWhile Char.isDigit
  let n : Nat := digits.foldl (fun n c => n * 10 + (c.toNat - 0x30)) 0
  match s.dropWhile Char.isDigit with
  | ']' :: rest =>
    if digits.isEmpty || 9223372036854775807 < n then none
    else some (if negative then -(n : Int) else n, rest)
  | _ => none

/-- Read the steps behind the first name; `fuel` bounds their number. -/
def stepsRest : (fuel : Nat) → List Char → Option (List Step)
  | _, [] => some []
  | 0, _ :: _ => none
  | fuel + 1, '.' :: s =>
    let name := s.takeWhile isNameChar
    if name.isEmpty then none
    else (stepsRest fuel (s.dropWhile isNameChar)).map fun rest =>
      .name (String.ofList name) :: rest
  | fuel + 1, '[' :: s => do
    let (i, s) ← index? s
    return .index i :: (← stepsRest fuel s)
  | _ + 1, _ :: _ => none

/-- The steps that a path spells.  A text that is no path is a name as it stands. -/
def stepsOf (path : String) : List Step :=
  let s := path.toList
  let name := s.takeWhile isNameChar
  if name.isEmpty then [.name path]
  else
    match stepsRest s.length (s.dropWhile isNameChar) with
    | some rest => .name (String.ofList name) :: rest
    | none => [.name path]

/-- Put a layer of values, given with their paths, on a tree. -/
def layer (root : Tree) (values : List (String × Tree)) : Tree :=
  values.foldl (fun t p => setAt p.2 (stepsOf p.1) t) root

end Tree
end EdgeCache.Settings
