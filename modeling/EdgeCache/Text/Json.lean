import EdgeCache.Text.Binary64

/-!
# JSON

Documents are values of `Json`.  `render` writes one without any blanks, members in the order given;
`parse` reads a text as one document.  Of members with the same name the last one counts, and
nesting is limited.  A number without a fraction or an exponent is a whole number as long as it fits
into 64 bits; every other number is a double, computed from its leading digits and one power of ten
at a time.
-/

set_option autoImplicit false

namespace EdgeCache

/-- A JSON document. -/
inductive Json where
  | null
  | bool (b : Bool)
  | int (n : Int)
  | float (x : Binary64)
  | str (s : String)
  | arr (items : List Json)
  | obj (members : List (String × Json))

namespace Json

/-! ## Writing -/

/-- A hexadecimal digit in lower case. -/
def hexChar (n : Nat) : Char := Char.ofNat (if n < 10 then 0x30 + n else 0x57 + n)

/-- How a character stands in a string. -/
def escape (c : Char) : List Char :=
  if c = '"' then ['\\', '"']
  else if c = '\\' then ['\\', '\\']
  else if c = '\n' then ['\\', 'n']
  else if c = '\r' then ['\\', 'r']
  else if c = '\t' then ['\\', 't']
  else if c = '\x08' then ['\\', 'b']
  else if c = '\x0c' then ['\\', 'f']
  else if c.toNat < 0x20 then
    ['\\', 'u', '0', '0', hexChar (c.toNat / 16), hexChar (c.toNat % 16)]
  else [c]

/-- A string in quotes. -/
def quote (s : List Char) : List Char := '"' :: (s.flatMap escape ++ ['"'])

/-- Pieces with a comma between them. -/
def commas : List (List Char) → List Char
  | [] => []
  | [piece] => piece
  | piece :: pieces => piece ++ ',' :: commas pieces

mutual

/-- The characters of a document. -/
def chars : Json → List Char
  | null => ['n', 'u', 'l', 'l']
  | bool true => ['t', 'r', 'u', 'e']
  | bool false => ['f', 'a', 'l', 's', 'e']
  | int n =>
    if 0 ≤ n then Nat.toDigits 10 n.toNat else '-' :: Nat.toDigits 10 (-n).toNat
  | float x => x.shortest.toList
  | str s => quote s.toList
  | arr items => '[' :: (commas (itemChars items) ++ [']'])
  | obj members => '\x7b' :: (commas (memberChars members) ++ ['\x7d'])

/-- The characters of each item. -/
def itemChars : List Json → List (List Char)
  | [] => []
  | j :: js => chars j :: itemChars js

/-- The characters of each member. -/
def memberChars : List (String × Json) → List (List Char)
  | [] => []
  | (name, j) :: rest => (quote name.toList ++ ':' :: chars j) :: memberChars rest

end

/-- The text of a document. -/
def render (j : Json) : String := String.ofList (chars j)

/-! ## Reading -/

/-- Without the blanks in front. -/
def skip (s : List Char) : List Char :=
  s.dropWhile fun c => c = ' ' || c = '\t' || c = '\n' || c = '\r'

/-- The value of a hexadecimal digit. -/
def hexValue? (c : Char) : Option Nat :=
  let n := c.toNat
  if 0x30 ≤ n ∧ n ≤ 0x39 then some (n - 0x30)
  else if 0x41 ≤ n ∧ n ≤ 0x46 then some (n - 0x37)
  else if 0x61 ≤ n ∧ n ≤ 0x66 then some (n - 0x57)
  else none

/-- The number that four hexadecimal digits spell. -/
def unit? (a b c d : Char) : Option Nat := do
  return (((← hexValue? a) * 16 + (← hexValue? b)) * 16 + (← hexValue? c)) * 16 + (← hexValue? d)

/-- The character behind a backslash, other than `u`. -/
def simpleEscape? (c : Char) : Option Char :=
  match c with
  | '"' => some '"'
  | '\\' => some '\\'
  | '/' => some '/'
  | 'b' => some '\x08'
  | 'f' => some '\x0c'
  | 'n' => some '\n'
  | 'r' => some '\r'
  | 't' => some '\t'
  | _ => none

/-- Read a string after its opening quote; what follows the closing quote is the second part. -/
def stringRest : List Char → Option (List Char × List Char)
  | '"' :: rest => some ([], rest)
  | '\\' :: 'u' :: a :: b :: c :: d :: rest =>
    match unit? a b c d with
    | none => none
    | some hi =>
      if 0xDC00 ≤ hi ∧ hi ≤ 0xDFFF then none
      else if 0xD800 ≤ hi ∧ hi ≤ 0xDBFF then
        match rest with
        | '\\' :: 'u' :: e :: f :: g :: h :: rest' =>
          match unit? e f g h with
          | none => none
          | some lo =>
            if 0xDC00 ≤ lo ∧ lo ≤ 0xDFFF then
              (stringRest rest').map fun (s, r) =>
                (Char.ofNat (0x10000 + (hi - 0xD800) * 0x400 + (lo - 0xDC00)) :: s, r)
            else none
        | _ => none
      else (stringRest rest).map fun (s, r) => (Char.ofNat hi :: s, r)
  | '\\' :: e :: rest =>
    match simpleEscape? e with
    | none => none
    | some c => (stringRest rest).map fun (s, r) => (c :: s, r)
  | c :: rest =>
    if c.toNat < 0x20 then none else (stringRest rest).map fun (s, r) => (c :: s, r)
  | [] => none
  termination_by s => s.length

/-! ### Numbers -/

/-- The greatest whole number that digits are collected into. -/
def maxSignificand : Nat := 18446744073709551615

/-- A decimal digit's value. -/
def digit? (c : Char) : Option Nat := if c.isDigit then some (c.toNat - 0x30) else none

/-- Collect digits as long as the number fits: the number, how many digits it took, how many were
left over, and the rest of the text. -/
def collect (n : Nat) : List Char → Nat × Nat × Nat × List Char
  | [] => (n, 0, 0, [])
  | c :: rest =>
    match digit? c with
    | none => (n, 0, 0, c :: rest)
    | some d =>
      if n * 10 + d ≤ maxSignificand then
        let (n', taken, left, r) := collect (n * 10 + d) rest
        (n', taken + 1, left, r)
      else (n, 0, ((c :: rest).takeWhile Char.isDigit).length, (c :: rest).dropWhile Char.isDigit)

/-- A power of ten as a double. -/
def pow10 (k : Nat) : Binary64 := Binary64.ofDecimal false 1 k

/-- A double times a power of ten, in steps of at most `10 ^ 308`; `none` when it is out of
range. -/
def scale : Nat → Binary64 → Int → Option Binary64
  | 0, _, _ => none
  | fuel + 1, f, exp =>
    if exp.natAbs ≤ 308 then
      if 0 ≤ exp then
        let g := f.multiply (pow10 exp.natAbs)
        if g.isInfinite then none else some g
      else some (f.divide (pow10 exp.natAbs))
    else if f.isZero then some f
    else if 0 ≤ exp then none
    else scale fuel (f.divide (pow10 308)) (exp + 308)

/-- The double of collected digits and an exponent. -/
def floatOf (negative : Bool) (digits : Nat) (exp : Int) : Option Json :=
  match Binary64.ofNat digits with
  | .finite _ m e => (scale 8 (.finite negative m e) exp).map float
  | _ => none

/-- Read an exponent, if there is one, and finish the number. -/
def exponentRest (negative : Bool) (digits : Nat) (exp : Int) (s : List Char) :
    Option (Json × List Char) :=
  match s with
  | 'e' :: rest | 'E' :: rest =>
    let (down, rest) :=
      match rest with
      | '+' :: r => (false, r)
      | '-' :: r => (true, r)
      | r => (false, r)
    let ds := rest.takeWhile Char.isDigit
    let after := rest.dropWhile Char.isDigit
    if ds.isEmpty then none
    else
      let k : Nat := ds.foldl (fun n c => n * 10 + (c.toNat - 0x30)) 0
      if 2147483647 < k then
        if digits ≠ 0 ∧ !down then none
        else some (float (.finite negative 0 Binary64.minExp), after)
      else (floatOf negative digits (if down then exp - k else exp + k)).map fun j => (j, after)
  | _ => (floatOf negative digits exp).map fun j => (j, s)

/-- Read a fraction, if there is one, and finish the number. -/
def fractionRest (negative : Bool) (digits : Nat) (exp : Int) (s : List Char) :
    Option (Json × List Char) :=
  match s with
  | '.' :: rest =>
    let (n, taken, left, after) := collect digits rest
    if taken + left = 0 then none else exponentRest negative n (exp - taken) after
  | _ => exponentRest negative digits exp s

/-- Read a number after its sign. -/
def numberRest (negative : Bool) (s : List Char) : Option (Json × List Char) :=
  let (n, taken, left, after) :=
    match s with
    | '0' :: rest => (0, 1, 0, rest)
    | _ => collect 0 s
  if taken = 0 then none
  else if n = 0 && (after.head?.map Char.isDigit).getD false then none
  else
    match after with
    | '.' :: _ | 'e' :: _ | 'E' :: _ => fractionRest negative n left after
    | _ =>
      if left = 0 then
        if !negative then some (int n, after)
        else if n = 0 ∨ 9223372036854775808 < n then (floatOf true n 0).map fun j => (j, after)
        else some (int (-(n : Int)), after)
      else (floatOf negative n left).map fun j => (j, after)

/-! ### Documents -/

/-- The members of an object, the last of each name standing for all. -/
def setMember (members : List (String × Json)) (name : String) (j : Json) : List (String × Json) :=
  members.filter (fun m => m.1 != name) ++ [(name, j)]

mutual

/-- Read a value, at most `depth` levels deep. -/
def value : Nat → Nat → List Char → Option (Json × List Char)
  | 0, _, _ => none
  | fuel + 1, depth, s =>
    match skip s with
    | 'n' :: 'u' :: 'l' :: 'l' :: rest => some (null, rest)
    | 't' :: 'r' :: 'u' :: 'e' :: rest => some (bool true, rest)
    | 'f' :: 'a' :: 'l' :: 's' :: 'e' :: rest => some (bool false, rest)
    | '"' :: rest => (stringRest rest).map fun (t, r) => (str (String.ofList t), r)
    | '-' :: rest => numberRest true rest
    | '[' :: rest =>
      if depth ≤ 1 then none
      else
        match skip rest with
        | ']' :: r => some (arr [], r)
        | _ => (itemsRest fuel (depth - 1) rest).map fun (items, r) => (arr items, r)
    | '\x7b' :: rest =>
      if depth ≤ 1 then none
      else
        match skip rest with
        | '\x7d' :: r => some (obj [], r)
        | _ => (membersRest fuel (depth - 1) rest).map fun (ms, r) =>
          (obj (ms.foldl (fun acc m => setMember acc m.1 m.2) []), r)
    | t => numberRest false t

/-- Read the items of an array and its closing bracket. -/
def itemsRest : Nat → Nat → List Char → Option (List Json × List Char)
  | 0, _, _ => none
  | fuel + 1, depth, s =>
    match value fuel depth s with
    | none => none
    | some (j, rest) =>
      match skip rest with
      | ',' :: r => (itemsRest fuel depth r).map fun (js, r') => (j :: js, r')
      | ']' :: r => some ([j], r)
      | _ => none

/-- Read the members of an object and its closing brace. -/
def membersRest : Nat → Nat → List Char → Option (List (String × Json) × List Char)
  | 0, _, _ => none
  | fuel + 1, depth, s =>
    match skip s with
    | '"' :: rest =>
      match stringRest rest with
      | none => none
      | some (name, r) =>
        match skip r with
        | ':' :: r' =>
          match value fuel depth r' with
          | none => none
          | some (j, r'') =>
            match skip r'' with
            | ',' :: t =>
              (membersRest fuel depth t).map fun (ms, t') => ((String.ofList name, j) :: ms, t')
            | '\x7d' :: t => some ([(String.ofList name, j)], t)
            | _ => none
        | _ => none
    | _ => none

end

/-- The deepest nesting that is read. -/
def maxDepth : Nat := 128

/-- Read a text as one document. -/
def parse (s : String) : Option Json :=
  match value (2 * s.length + 2) maxDepth s.toList with
  | some (j, rest) => if (skip rest).isEmpty then some j else none
  | none => none

/-- A member of an object. -/
def member? (j : Json) (name : String) : Option Json :=
  match j with
  | obj members => (members.find? (·.1 == name)).map (·.2)
  | _ => none

end Json
end EdgeCache
