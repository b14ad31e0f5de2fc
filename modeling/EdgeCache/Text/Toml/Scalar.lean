import EdgeCache.Text.Binary64

/-!
# Scalars of TOML

Strings, numbers, truth values and dates, each read from the front of a list of characters: the
value and what follows it, or nothing if no such value stands there.  Line ends inside strings
become line feeds, and dates are kept as the text of their canonical form.
-/

set_option autoImplicit false

namespace EdgeCache

/-- A TOML value; the members of a table are in the order in which they were defined. -/
inductive Toml where
  | str (s : String)
  | int (n : Int)
  | float (x : Binary64)
  | bool (b : Bool)
  | date (text : String)
  | arr (items : List Toml)
  | table (members : List (String × Toml))

namespace Toml

/-! ## Blanks and lines -/

/-- A blank within a line. -/
def isBlank (c : Char) : Bool := c = ' ' || c = '\t'

/-- Without the blanks in front. -/
def skip (s : List Char) : List Char := s.dropWhile isBlank

/-- A character that may stand in a comment: no control except the tab. -/
def isText (c : Char) : Bool := c = '\t' || (0x20 ≤ c.toNat && c.toNat ≠ 0x7F)

/-- What follows a line end, if one stands here. -/
def newline? : List Char → Option (List Char)
  | '\n' :: rest => some rest
  | '\r' :: '\n' :: rest => some rest
  | _ => none

/-- Without a comment in front. -/
def skipComment : List Char → List Char
  | '#' :: rest => rest.dropWhile isText
  | s => s

/-- Pass over blanks, comments and line ends. -/
def skipLines : (fuel : Nat) → List Char → List Char
  | 0, s => s
  | fuel + 1, s =>
    match newline? (skipComment (skip s)) with
    | some rest => skipLines fuel rest
    | none => skip s

/-! ## Strings -/

/-- The value of a hexadecimal digit. -/
def hexValue? (c : Char) : Option Nat :=
  let n := c.toNat
  if 0x30 ≤ n ∧ n ≤ 0x39 then some (n - 0x30)
  else if 0x41 ≤ n ∧ n ≤ 0x46 then some (n - 0x37)
  else if 0x61 ≤ n ∧ n ≤ 0x66 then some (n - 0x57)
  else none

/-- The character with the code that exactly `n` hexadecimal digits spell. -/
def codedChar? (n : Nat) (s : List Char) : Option (Char × List Char) :=
  let digits := (s.take n).filterMap hexValue?
  let code := digits.foldl (fun a d => a * 16 + d) 0
  if digits.length = n ∧ (code < 0xD800 ∨ 0xDFFF < code) ∧ code < 0x110000 then
    some (Char.ofNat code, s.drop n)
  else none

/-- The character behind a backslash. -/
def escaped? : List Char → Option (Char × List Char)
  | 'b' :: s => some ('\x08', s)
  | 't' :: s => some ('\t', s)
  | 'n' :: s => some ('\n', s)
  | 'f' :: s => some ('\x0c', s)
  | 'r' :: s => some ('\r', s)
  | '"' :: s => some ('"', s)
  | '\\' :: s => some ('\\', s)
  | 'u' :: s => codedChar? 4 s
  | 'U' :: s => codedChar? 8 s
  | _ => none

/-- Read a string on one line up to its closing quote; backslashes count in double quotes only. -/
def lineString (quote : Char) : (fuel : Nat) → List Char → Option (List Char × List Char)
  | 0, _ => none
  | _ + 1, [] => none
  | fuel + 1, c :: s =>
    if c = quote then some ([], s)
    else if c = '\\' ∧ quote = '"' then do
      let (d, s) ← escaped? s
      let (rest, s) ← lineString quote fuel s
      return (d :: rest, s)
    else if isText c then do
      let (rest, s) ← lineString quote fuel s
      return (c :: rest, s)
    else none

/-- Without the blanks and line ends in front. -/
def skipBreaks : List Char → List Char
  | '\n' :: s => skipBreaks s
  | '\r' :: '\n' :: s => skipBreaks s
  | ' ' :: s => skipBreaks s
  | '\t' :: s => skipBreaks s
  | s => s

/-- What follows a backslash at the end of a line: everything from the next character on that is
neither blank nor the end of a line. -/
def continuation? (s : List Char) : Option (List Char) := (newline? (skip s)).map skipBreaks

/-- Read a string of several lines up to its closing quotes, of which up to two more may belong to
the text. -/
def blockString (quote : Char) : (fuel : Nat) → List Char → Option (List Char × List Char)
  | 0, _ => none
  | fuel + 1, s =>
    match s with
    | [] => none
    | c :: rest =>
      if c = quote then
        let run := (s.takeWhile (· = quote)).length
        if 3 ≤ run then some (List.replicate (min run 5 - 3) quote, s.drop (min run 5))
        else do
          let (more, s) ← blockString quote fuel (s.drop run)
          return (List.replicate run quote ++ more, s)
      else if c = '\\' ∧ quote = '"' then
        match continuation? rest with
        | some s => blockString quote fuel s
        | none => do
          let (d, s) ← escaped? rest
          let (more, s) ← blockString quote fuel s
          return (d :: more, s)
      else if isText c then do
        let (more, s) ← blockString quote fuel rest
        return (c :: more, s)
      else do
        let (more, s) ← blockString quote fuel (← newline? s)
        return ('\n' :: more, s)

/-- Read a string of any kind. -/
def string? (s : List Char) : Option (String × List Char) :=
  match s with
  | q :: a :: b :: rest =>
    if q ≠ '"' ∧ q ≠ '\'' then none
    else if a = q ∧ b = q then
      (blockString q s.length ((newline? rest).getD rest)).map fun (t, r) => (String.ofList t, r)
    else (lineString q s.length (a :: b :: rest)).map fun (t, r) => (String.ofList t, r)
  | [q, a] => if (q = '"' ∨ q = '\'') ∧ a = q then some ("", []) else none
  | _ => none

/-! ## Numbers -/

/-- The number that digits spell. -/
def valueOf (base : Nat) (digits : List Char) : Nat :=
  digits.foldl (fun n c => n * base + (hexValue? c).getD 0) 0

/-- Read digits of a class, single underscores between them; nothing if an underscore is not
followed by a digit. -/
def digitsRest (p : Char → Bool) : List Char → Option (List Char × List Char)
  | '_' :: c :: s =>
    if p c then (digitsRest p s).map fun (ds, r) => (c :: ds, r) else none
  | ['_'] => none
  | c :: s => if p c then (digitsRest p s).map fun (ds, r) => (c :: ds, r) else some ([], c :: s)
  | [] => some ([], [])

/-- Read at least one digit. -/
def digits? (p : Char → Bool) : List Char → Option (List Char × List Char)
  | c :: s => if p c then (digitsRest p s).map fun (ds, r) => (c :: ds, r) else none
  | [] => none

/-- Read a sign: it is a minus. -/
def sign : List Char → Bool × List Char
  | '+' :: s => (false, s)
  | '-' :: s => (true, s)
  | s => (false, s)

/-- Read decimal digits without a zero in front of others. -/
def wholeDigits? : List Char → Option (List Char × List Char)
  | '0' :: s => some (['0'], s)
  | s => digits? Char.isDigit s

/-- A digit of a base up to sixteen. -/
def isDigitOf (base : Nat) (c : Char) : Bool := (hexValue? c).any (· < base)

/-- Read a whole number of 64 bits in a base of its own. -/
def basedInt? (base : Nat) (s : List Char) : Option (Toml × List Char) := do
  let (ds, s) ← digits? (isDigitOf base) s
  let n := valueOf base ds
  if n < Nat.pow 2 63 then some (.int n, s) else none

/-- Read a whole number of 64 bits. -/
def int? (s : List Char) : Option (Toml × List Char) :=
  match s with
  | '0' :: 'x' :: s => basedInt? 16 s
  | '0' :: 'o' :: s => basedInt? 8 s
  | '0' :: 'b' :: s => basedInt? 2 s
  | _ => do
    let (negative, s) := sign s
    let (ds, s) ← wholeDigits? s
    let n := valueOf 10 ds
    if negative then if n ≤ Nat.pow 2 63 then some (.int (-(n : Int)), s) else none
    else if n < Nat.pow 2 63 then some (.int n, s) else none

/-- Read an exponent. -/
def exponent? : List Char → Option (Int × List Char)
  | c :: s =>
    if c = 'e' ∨ c = 'E' then do
      let (negative, s) := sign s
      let (ds, s) ← digits? Char.isDigit s
      let n : Int := valueOf 10 ds
      return (if negative then -n else n, s)
    else none
  | [] => none

/-- Read a fraction. -/
def fraction? : List Char → Option (List Char × List Char)
  | '.' :: s => digits? Char.isDigit s
  | _ => none

/-- Read a number with a fraction or an exponent, or one of the words for special numbers.  A number
too great for a double is refused, unless it is negative. -/
def float? (s : List Char) : Option (Toml × List Char) := do
  let (negative, s) := sign s
  match s with
  | 'i' :: 'n' :: 'f' :: s => return (.float (.infinite negative), s)
  | 'n' :: 'a' :: 'n' :: s => return (.float .nan, s)
  | _ =>
    let (whole, s) ← wholeDigits? s
    let (places, exp, s) ←
      match fraction? s with
      | some (places, s) =>
        match exponent? s with
        | some (exp, s) => some (places, exp, s)
        | none => some (places, 0, s)
      | none => (exponent? s).map fun (exp, s) => ([], exp, s)
    let x := Binary64.ofDecimal negative (valueOf 10 (whole ++ places)) (exp - places.length)
    if x = .infinite false then none else return (.float x, s)

/-! ## Dates and times -/

/-- Read exactly `n` digits as a number between two limits. -/
def fixedDigits? (n low high : Nat) (s : List Char) : Option (Nat × List Char) :=
  let ds := s.take n
  if ds.length = n && ds.all Char.isDigit && low ≤ valueOf 10 ds && valueOf 10 ds ≤ high then
    some (valueOf 10 ds, s.drop n)
  else none

/-- Read one character. -/
def char? (c : Char) : List Char → Option (List Char)
  | d :: s => if c = d then some s else none
  | [] => none

/-- How many days a month has. -/
def daysIn (year month : Nat) : Nat :=
  if month = 2 then
    if year % 4 = 0 ∧ (year % 100 ≠ 0 ∨ year % 400 = 0) then 29 else 28
  else if month = 4 ∨ month = 6 ∨ month = 9 ∨ month = 11 then 30
  else 31

/-- A number with two digits. -/
def two (n : Nat) : String := Binary64.padded 2 n

/-- Read a date. -/
def day? (s : List Char) : Option (String × List Char) := do
  let (year, s) ← fixedDigits? 4 0 9999 s
  let (month, s) ← fixedDigits? 2 1 12 (← char? '-' s)
  let (day, s) ← fixedDigits? 2 1 (daysIn year month) (← char? '-' s)
  return (Binary64.padded 4 year ++ "-" ++ two month ++ "-" ++ two day, s)

/-- A fraction of a second without zeros at its end, to nine digits. -/
def fractionText (digits : List Char) : String :=
  match ((digits.take 9).reverse.dropWhile (· = '0')).reverse with
  | [] => ""
  | ds => "." ++ String.ofList ds

/-- Read a time of day. -/
def time? (s : List Char) : Option (String × List Char) := do
  let (hour, s) ← fixedDigits? 2 0 23 s
  let (minute, s) ← fixedDigits? 2 0 59 (← char? ':' s)
  let (second, s) ← fixedDigits? 2 0 60 (← char? ':' s)
  let text := two hour ++ ":" ++ two minute ++ ":" ++ two second
  match s with
  | '.' :: rest =>
    let ds := rest.takeWhile Char.isDigit
    if ds.isEmpty then return (text, s)
    else return (text ++ fractionText ds, rest.dropWhile Char.isDigit)
  | _ => return (text, s)

/-- Read an offset from Greenwich, if there is one; nothing if it is begun and wrong. -/
def offset? (s : List Char) : Option (String × List Char) :=
  let signed (mark : String) (s : List Char) : Option (String × List Char) := do
    let (hour, s) ← fixedDigits? 2 0 23 s
    let (minute, s) ← fixedDigits? 2 0 59 (← char? ':' s)
    let mark := if hour = 0 ∧ minute = 0 then "+" else mark
    return (mark ++ two hour ++ ":" ++ two minute, s)
  match s with
  | 'Z' :: s => some ("Z", s)
  | 'z' :: s => some ("Z", s)
  | '+' :: s => signed "+" s
  | '-' :: s => signed "-" s
  | s => some ("", s)

/-- Read a date, a time, or both. -/
def date? (s : List Char) : Option (Toml × List Char) :=
  match day? s with
  | none => (time? s).map fun (t, s) => (.date t, s)
  | some (d, rest) =>
    let time := match rest with
      | c :: r => if c = 'T' ∨ c = 't' ∨ c = ' ' then time? r else none
      | [] => none
    match time with
    | none => some (.date d, rest)
    | some (t, r) => (offset? r).map fun (o, r) => (.date (d ++ "T" ++ t ++ o), r)

/-! ## All scalars -/

/-- Read a scalar. -/
def scalar? (s : List Char) : Option (Toml × List Char) :=
  match s with
  | 't' :: 'r' :: 'u' :: 'e' :: s => some (.bool true, s)
  | 'f' :: 'a' :: 'l' :: 's' :: 'e' :: s => some (.bool false, s)
  | '"' :: _ => (string? s).map fun (t, r) => (.str t, r)
  | '\'' :: _ => (string? s).map fun (t, r) => (.str t, r)
  | _ =>
    match date? s with
    | some d => some d
    | none =>
      match float? s with
      | some x => some x
      | none => int? s

end Toml
end EdgeCache
