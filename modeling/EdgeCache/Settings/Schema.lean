import EdgeCache.Settings.Tree
import EdgeCache.Text.Quoted

/-!
# Reading typed fields

A section of the configuration is described by its fields, each with a kind (`Field`), and read from
a tree by that description.  There are two ways of reading a single field:

* *loosely*: numbers, truth values and texts are turned into one another where that makes sense, and
  a complaint names the key and its origin;
* *strictly*: a value has to be of the kind it is read as.

A table gives the fields by name, in any order; a list gives them in the order of the description.
-/

set_option autoImplicit false

namespace EdgeCache.Settings

/-! ## Complaints -/

/-- Why a configuration is refused. -/
inductive Complaint where
  /-- A value of the wrong kind under a key. -/
  | type (found expected key : String) (origin : Option String)
  | message (text : String)
deriving DecidableEq

namespace Complaint

/-- The complaint as seen from outside the part with a given name. -/
def under (part : String) : Complaint → Complaint
  | type found expected key origin =>
    let dot := if key.isEmpty || key.startsWith "[" then "" else "."
    type found expected (part ++ dot ++ key) origin
  | message text => message text

/-- The complaint as seen from outside a list. -/
def underIndex (i : Nat) : Complaint → Complaint := under ("[" ++ toString i ++ "]")

def text : Complaint → String
  | type found expected key origin =>
    "invalid type: " ++ found ++ ", expected " ++ expected ++
      (if key.isEmpty then "" else " for key `" ++ key ++ "`") ++
      (match origin with | some o => " in " ++ o | none => "")
  | message text => text

end Complaint

/-! ## Words for values -/

/-- How values are read and named. -/
structure Manner where
  /-- Values are turned into the kind they are read as. -/
  loose : Bool
  /-- A missing value and doubles are named as JSON writes them. -/
  json : Bool

namespace Manner

/-- Fields of a layered configuration. -/
def layered : Manner := ⟨true, false⟩

/-- Fields of a layered configuration that are read strictly. -/
def tagged : Manner := ⟨false, false⟩

/-- Fields of a JSON document. -/
def document : Manner := ⟨false, true⟩

end Manner

/-- A double with at least one place, without an exponent. -/
def withPoint (x : Binary64) : String :=
  let s := x.shortest
  match x with
  | .finite _ _ _ => if s.toList.contains '.' then s else s ++ ".0"
  | _ => s

namespace Tree

/-- The words for a value of the wrong kind. -/
def found (m : Manner) : Tree → String
  | .scalar .absent _ => if m.json then "null" else "unit value"
  | .scalar (.bool b) _ => "boolean `" ++ toString b ++ "`"
  | .scalar (.int n) _ => "integer `" ++ toString n ++ "`"
  | .scalar (.float x) _ =>
    "floating point `" ++ (if m.json then x.scientific else withPoint x) ++ "`"
  | .scalar (.text s) _ => "string " ++ Quoted.quote s
  | .list _ _ => "sequence"
  | .table _ _ => "map"

/-- The words for a value that cannot be turned into another kind. -/
def foundLoosely : Tree → String
  | .scalar (.int n) _ => "64-bit integer `" ++ toString n ++ "`"
  | t => t.found .layered

/-- Where the value was written. -/
def origin : Tree → Option String
  | .scalar _ o | .list _ o | .table _ o => o

/-- A complaint about the kind of a value. -/
def mismatch (m : Manner) (expected : String) (t : Tree) : Complaint :=
  .message ("invalid type: " ++ t.found m ++ ", expected " ++ expected)

/-- A complaint about a value that cannot be turned into another kind. -/
def unfit (expected : String) (t : Tree) : Complaint := .type t.foundLoosely expected "" t.origin

end Tree

/-! ## Single values -/

/-- The kind of a field. -/
inductive Kind where
  | boolean
  /-- A number from zero to a limit, with the name of its type. -/
  | natural (label : String) (limit : Nat)
  | text
  | optional (kind : Kind)
  | list (kind : Kind)
deriving DecidableEq

namespace Kind

def natural16 : Kind := .natural "u16" 65535
def natural64 : Kind := .natural "u64" 18446744073709551615
def size : Kind := .natural "usize" 18446744073709551615

end Kind

/-- A value that has been read. -/
inductive Value where
  | absent
  | boolean (b : Bool)
  | natural (n : Nat)
  | text (s : String)
  | list (items : List Value)

/-- The words for yes. -/
def yesWords : List String := ["true", "on", "yes"]

/-- The words for no. -/
def noWords : List String := ["false", "off", "no"]

/-- A whole number of 64 bits in decimal, with or without a plus sign. -/
def wholeNumber? (s : String) : Option Nat :=
  let digits := match s.toList with
    | '+' :: ds => ds
    | ds => ds
  let n := digits.foldl (fun n c => n * 10 + (c.toNat - 0x30)) 0
  if digits.isEmpty || !digits.all Char.isDigit || 18446744073709551615 < n then none else some n

/-- The whole number of 64 bits that is nearest to a double, half away from zero. -/
def clamped (x : Binary64) : Nat :=
  match x with
  | .infinite negative => if negative then 0 else 18446744073709551615
  | _ => min (((x.round?).getD 0).toNat) 18446744073709551615

namespace Tree

/-- Read a truth value. -/
def boolean (m : Manner) (t : Tree) : Except Complaint Bool :=
  if !m.loose then
    match t with
    | .scalar (.bool b) _ => .ok b
    | t => .error (t.mismatch m "a boolean")
  else
    match t with
    | .scalar (.bool b) _ => .ok b
    | .scalar (.int n) _ => .ok (n != 0)
    | .scalar (.float x) _ => .ok (!x.isZero)
    | .scalar (.text s) origin =>
      let word := lowerName s
      if word = "1" ∨ word ∈ yesWords then .ok true
      else if word = "0" ∨ word ∈ noWords then .ok false
      else .error (Tree.unfit "a boolean" (.scalar (.text word) origin))
    | t => .error (t.unfit "a boolean")

/-- Turn a value into a whole number that is not negative. -/
def looseNatural (t : Tree) : Except Complaint Nat :=
  match t with
  | .scalar (.int n) _ =>
    if 0 ≤ n then .ok n.toNat else .error (t.unfit "an unsigned 64 bit or less integer")
  | .scalar (.text s) _ =>
    if lowerName s ∈ yesWords then .ok 1
    else if lowerName s ∈ noWords then .ok 0
    else
      match wholeNumber? s with
      | some n => .ok n
      | none => .error (t.unfit "an integer")
  | .scalar (.bool b) _ => .ok (if b then 1 else 0)
  | .scalar (.float x) _ => .ok (clamped x)
  | t => .error (t.unfit "an integer")

/-- Read a number from zero to a limit. -/
def natural (m : Manner) (label : String) (limit : Nat) (t : Tree) : Except Complaint Nat :=
  if m.loose then
    match looseNatural t with
    | .ok n =>
      if n ≤ limit then .ok n
      else .error (.type ("64-bit unsigned integer `" ++ toString n ++ "`")
        "an unsigned 16 bit integer" "" none)
    | .error e => .error e
  else
    match t with
    | .scalar (.int n) _ =>
      if 0 ≤ n ∧ n ≤ limit then .ok n.toNat
      else .error (.message ("invalid value: integer `" ++ toString n ++ "`, expected " ++ label))
    | t => .error (t.mismatch m label)

/-- Read a text. -/
def text (m : Manner) (t : Tree) : Except Complaint String :=
  match t with
  | .scalar (.text s) _ => .ok s
  | t =>
    if !m.loose then .error (t.mismatch m "a string")
    else
      match t with
      | .scalar (.bool b) _ => .ok (toString b)
      | .scalar (.int n) _ => .ok (toString n)
      | .scalar (.float x) _ => .ok x.shortest
      | t => .error (t.unfit "a string")

/-- Read items with their indices, counted from `i`. -/
def readItems (read : Tree → Except Complaint Value) (i : Nat) :
    List Tree → Except Complaint (List Value)
  | [] => .ok []
  | t :: ts => do
    let v ← (read t).mapError (Complaint.underIndex i)
    return v :: (← readItems read (i + 1) ts)

/-- Read a value of a kind. -/
def read (m : Manner) : Kind → Tree → Except Complaint Value
  | .boolean, t => (t.boolean m).map .boolean
  | .natural label limit, t => (t.natural m label limit).map .natural
  | .text, t => (t.text m).map .text
  | .optional kind, t =>
    match t with
    | .scalar .absent _ => .ok .absent
    | t => read m kind t
  | .list kind, t =>
    match t with
    | .list items _ => (readItems (read m kind) 0 items).map .list
    | t => .error (t.mismatch m "a sequence")

end Tree

/-! ## Sections -/

/-- When a field may be left out. -/
inductive Presence where
  | required
  /-- It may be missing from a table, but not from a list. -/
  | named
  | defaulted
deriving DecidableEq

/-- The description of a field. -/
structure Field where
  name : String
  kind : Kind
  presence : Presence := .defaulted

/-- What is done with the items of a list that are left over. -/
inductive Surplus where
  | ignored
  | refusedInArray
  | refusedInSequence
deriving DecidableEq

/-- The description of a section: the words for it, and its fields. -/
structure Schema where
  words : String
  fields : List Field

/-- The fields that have been read. -/
abbrev Values := List (String × Value)

namespace Schema

/-- So many elements. -/
def elements (n : Nat) : String := toString n ++ (if n = 1 then " element" else " elements")

/-- A complaint about the length of a list. -/
def wrongLength (n : Nat) (expected : String) : Complaint :=
  .message ("invalid length " ++ toString n ++ ", expected " ++ expected)

/-- Read the fields that a table has. -/
def readNamed (m : Manner) (members : List (String × Tree)) :
    List Field → Except Complaint Values
  | [] => .ok []
  | f :: fs =>
    match Tree.lookUp members f.name with
    | none => readNamed m members fs
    | some t => do
      let v ← (t.read m f.kind).mapError (Complaint.under f.name)
      return (f.name, v) :: (← readNamed m members fs)

/-- Read the fields that a list has, where `i` fields have been read already. -/
def readListed (m : Manner) (s : Schema) (i : Nat) :
    List Tree → List Field → Except Complaint Values
  | _, [] => .ok []
  | [], f :: fs =>
    if f.presence = .defaulted then readListed m s (i + 1) [] fs
    else .error (wrongLength i (s.words ++ " with " ++ elements s.fields.length))
  | t :: ts, f :: fs => do
    let v ← (t.read m f.kind).mapError (Complaint.underIndex i)
    return (f.name, v) :: (← readListed m s (i + 1) ts fs)

/-- The fields in the order of their names. -/
def byName (s : Schema) : List Field :=
  s.fields.mergeSort fun a b => Bytes.lexLe (bytes a.name) (bytes b.name)

/-- Read a section.  Of several complaints about fields that are given by name, the one about the
first name comes first, and fields that are missing come last. -/
def read (m : Manner) (surplus : Surplus) (s : Schema) (t : Tree) : Except Complaint Values :=
  match t with
  | .table members _ => do
    let values ← readNamed m members s.byName
    match s.fields.find? fun f => f.presence = .required && !values.any (·.1 == f.name) with
    | some f => .error (.message ("missing field `" ++ f.name ++ "`"))
    | none => return values
  | .list items _ => do
    let values ← readListed m s 0 items s.fields
    if items.length ≤ s.fields.length then return values
    else
      match surplus with
      | .ignored => return values
      | .refusedInArray => .error (wrongLength items.length "fewer elements in array")
      | .refusedInSequence =>
        .error (wrongLength items.length (elements s.fields.length ++ " in sequence"))
  | t => .error (t.mismatch m s.words)

end Schema

namespace Values

/-- The value of a field, if it was given. -/
def get? (vs : Values) (name : String) : Option Value := (vs.find? (·.1 == name)).map (·.2)

/-- A truth value, or a default. -/
def boolean (vs : Values) (name : String) (default : Bool) : Bool :=
  match vs.get? name with
  | some (.boolean b) => b
  | _ => default

/-- A number that may be absent. -/
def natural? (vs : Values) (name : String) : Option Nat :=
  match vs.get? name with
  | some (.natural n) => some n
  | _ => none

/-- A text that may be absent. -/
def text? (vs : Values) (name : String) : Option String :=
  match vs.get? name with
  | some (.text s) => some s
  | _ => none

/-- The items of a list, or a default. -/
def list (vs : Values) (name : String) (default : List Value) : List Value :=
  match vs.get? name with
  | some (.list items) => items
  | _ => default

end Values
end EdgeCache.Settings
