import EdgeCache.Text.Toml.Scalar

/-!
# TOML documents

A document is a sequence of lines: `key = value`, the header of a table, or the header of one more
table of an array.  What may still be added to a table depends on how it came about, so the document
is put together from tables that remember that (`Open`):

* a table that was only passed through on the way to another one is *implicit*;
* one that came about by a key with dots is *dotted* as well.

A header may complete an implicit table that is not dotted, and keys with dots may only add to
dotted ones.
-/

set_option autoImplicit false

namespace EdgeCache.Toml

/-! ## Tables in the making -/

/-- What a key of a table in the making stands for. -/
inductive Item where
  | value (v : Toml)
  | table (implicit dotted : Bool) (entries : List (String × Item))
  /-- An array of tables, which grows by headers. -/
  | tables (items : List (List (String × Item)))

/-- A table in the making. -/
structure Open where
  implicit : Bool := false
  dotted : Bool := false
  entries : List (String × Item) := []

namespace Open

/-- What a key stands for. -/
def find? (o : Open) (key : String) : Option Item := (o.entries.find? (·.1 == key)).map (·.2)

/-- Let a key stand for something. -/
def set (o : Open) (key : String) (item : Item) : Open :=
  if o.entries.any (·.1 == key) then
    { o with entries := o.entries.map fun e => if e.1 == key then (key, item) else e }
  else { o with entries := o.entries ++ [(key, item)] }

/-- Change the table at the end of a path.  Missing tables on the way are made, arrays of tables are
entered at their last table, and a path of a key with dots leads through implicit tables only. -/
def changeAt (dotted : Bool) (f : Open → Option Open) : List String → Open → Option Open
  | [], o => f o
  | key :: path, o =>
    match o.find? key with
    | none => do
      let t ← changeAt dotted f path { implicit := true, dotted }
      return o.set key (.table t.implicit t.dotted t.entries)
    | some (.value _) => none
    | some (.tables items) =>
      match items.getLast? with
      | none => none
      | some last => do
        let t ← changeAt dotted f path { entries := last }
        return o.set key (.tables (items.dropLast ++ [t.entries]))
    | some (.table implicit dotted' entries) =>
      if dotted && !implicit then none
      else do
        let t ← changeAt dotted f path { implicit, dotted := dotted', entries }
        return o.set key (.table t.implicit t.dotted t.entries)

/-- Define a key, which may have dots, in a table. -/
def define (path : List String) (v : Toml) (o : Open) : Option Open :=
  match path.getLast? with
  | none => none
  | some key =>
    let above := path.dropLast
    changeAt true (fun t =>
      if t.dotted == above.isEmpty then none
      else if (t.find? key).isSome then none
      else some (t.set key (.value v))) above o

/-- The header of a table. -/
def openTable (path : List String) (o : Open) : Option Open :=
  match path.getLast? with
  | none => none
  | some key =>
    changeAt false (fun t =>
      match t.find? key with
      | none => some (t.set key (.table false false []))
      | some (.table true false entries) => some (t.set key (.table false false entries))
      | _ => none) path.dropLast o

/-- The header of one more table of an array. -/
def openElement (path : List String) (o : Open) : Option Open :=
  match path.getLast? with
  | none => none
  | some key =>
    changeAt false (fun t =>
      match t.find? key with
      | none => some (t.set key (.tables [[]]))
      | some (.tables items) => some (t.set key (.tables (items ++ [[]])))
      | _ => none) path.dropLast o

end Open

mutual

/-- The value of an item. -/
def Item.close : Item → Toml
  | .value v => v
  | .table _ _ entries => .table (closeEntries entries)
  | .tables items => .arr (closeTables items)

/-- The members of a table. -/
def closeEntries : List (String × Item) → List (String × Toml)
  | [] => []
  | (key, item) :: rest => (key, item.close) :: closeEntries rest

/-- The tables of an array. -/
def closeTables : List (List (String × Item)) → List Toml
  | [] => []
  | entries :: rest => .table (closeEntries entries) :: closeTables rest

end

/-! ## Keys -/

/-- A character of a key without quotes. -/
def isKeyChar (c : Char) : Bool := c.isAlphanum || c = '_' || c = '-'

/-- Read a key without dots. -/
def simpleKey? (s : List Char) : Option (String × List Char) :=
  match s with
  | [] => none
  | c :: rest =>
    if c = '"' ∨ c = '\'' then
      (lineString c s.length rest).map fun (t, r) => (String.ofList t, r)
    else
      let key := s.takeWhile isKeyChar
      if key.isEmpty then none else some (String.ofList key, s.dropWhile isKeyChar)

/-- How deep values may be nested, and how many parts a key may have. -/
def maxDepth : Nat := 80

/-- Read a key, with blanks around its parts; `limit` bounds their number. -/
def key? : (limit : Nat) → List Char → Option (List String × List Char)
  | 0, _ => none
  | limit + 1, s => do
    let (part, s) ← simpleKey? (skip s)
    match skip s with
    | '.' :: s =>
      let (parts, s) ← key? limit s
      return (part :: parts, s)
    | s => return ([part], s)

/-! ## Values -/

mutual

/-- Read a value that is nested less than `depth` levels deep; `fuel` bounds the work. -/
def value? : (fuel depth : Nat) → List Char → Option (Toml × List Char)
  | 0, _, _ => none
  | fuel + 1, depth, s =>
    match s with
    | '[' :: rest =>
      if depth ≤ 1 then none
      else (items? fuel (depth - 1) (skipLines rest.length rest)).map fun (vs, r) => (.arr vs, r)
    | '\x7b' :: rest =>
      if depth ≤ 1 then none
      else
        match skip rest with
        | '\x7d' :: r => some (.table [], r)
        | _ =>
          (pairs? fuel (depth - 1) {} rest).map fun (o, r) => (.table (closeEntries o.entries), r)
    | _ => scalar? s

/-- Read the items of an array and its closing bracket. -/
def items? : (fuel depth : Nat) → List Char → Option (List Toml × List Char)
  | 0, _, _ => none
  | fuel + 1, depth, s =>
    match s with
    | ']' :: rest => some ([], rest)
    | _ => do
      let (v, s) ← value? fuel depth s
      match skipLines s.length s with
      | ',' :: s =>
        let (vs, s) ← items? fuel depth (skipLines s.length s)
        return (v :: vs, s)
      | ']' :: s => return ([v], s)
      | _ => none

/-- Read the pairs of a table on one line and its closing brace. -/
def pairs? : (fuel depth : Nat) → Open → List Char → Option (Open × List Char)
  | 0, _, _, _ => none
  | fuel + 1, depth, o, s => do
    let (path, s) ← key? (maxDepth - 1) s
    let (v, s) ← value? fuel depth (skip (← char? '=' s))
    let o ← o.define path v
    match skip s with
    | ',' :: s => pairs? fuel depth o s
    | '\x7d' :: s => return (o, s)
    | _ => none

end

/-! ## Lines -/

/-- The end of a line, after blanks and a comment; the end of the text will do as well. -/
def lineEnd? (s : List Char) : Option (List Char) :=
  match skipComment (skip s) with
  | [] => some []
  | s => newline? s

/-- A document in the making: its root, and the table that keys are defined in. -/
structure Draft where
  root : Open := {}
  here : List String := []

/-- Read one line. -/
def line? (d : Draft) (s : List Char) : Option (Draft × List Char) :=
  match s with
  | '[' :: '[' :: s => do
    let (path, s) ← key? (maxDepth - 1) s
    let s ← lineEnd? (← char? ']' (← char? ']' s))
    return ({ root := ← d.root.openElement path, here := path }, s)
  | '[' :: s => do
    let (path, s) ← key? (maxDepth - 1) s
    let s ← lineEnd? (← char? ']' s)
    return ({ root := ← d.root.openTable path, here := path }, s)
  | s => do
    let (path, s) ← key? (maxDepth - 1) s
    let (v, s) ← value? (2 * s.length + 2) maxDepth (skip (← char? '=' s))
    let s ← lineEnd? s
    return ({ d with root := ← d.root.changeAt false (Open.define path v) d.here }, s)

/-- Read lines to the end of the text; `fuel` bounds their number. -/
def lines? : (fuel : Nat) → Draft → List Char → Option Draft
  | 0, _, _ => none
  | fuel + 1, d, s =>
    match skip s with
    | [] => some d
    | '#' :: _ => do lines? fuel d (← lineEnd? s)
    | '\n' :: s => lines? fuel d s
    | '\r' :: '\n' :: s => lines? fuel d s
    | s => do
      let (d, s) ← line? d s
      lines? fuel d s

/-- The members of the document that a text spells; a byte order mark in front does not count. -/
def parse (text : String) : Option (List (String × Toml)) :=
  let s := match text.toList with
    | '\uFEFF' :: rest => rest
    | s => s
  (lines? (s.length + 1) {} s).map fun d => closeEntries d.root.entries

end EdgeCache.Toml
