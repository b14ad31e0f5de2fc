import EdgeCache.Bytes

/-!
# Socket addresses

An address of a listener or of a peer: an IP address and a port, written `127.0.0.1:80` or
`[::1%2]:80`.  Reading is strict — no names, no leading zeros in the four-part form, brackets around
the eight-part form, whose `%` is followed by a number — and writing is canonical: lower-case
hexadecimal groups without leading zeros, `::` for the first of the longest runs of at least two
zero groups, and the four-part form for the last two groups of a mapped address.
-/

set_option autoImplicit false

namespace EdgeCache.Net

/-- An IP address: four octets, or eight groups of sixteen bits. -/
inductive Ip where
  | v4 (octets : List Nat)
  | v6 (groups : List Nat)
deriving DecidableEq

/-- A socket address; the scope counts only for eight-part addresses. -/
structure Address where
  ip : Ip
  scope : Nat := 0
  port : Nat
deriving DecidableEq

/-- This machine, at any port. -/
def Address.loopback : Address := { ip := .v4 [127, 0, 0, 1], port := 0 }

/-! ## Reading -/

/-- Read a digit in a base up to sixteen. -/
def digit? (base : Nat) (b : UInt8) : Option Nat :=
  match Bytes.hexValue? b with
  | some d => if d < base then some d else none
  | none => none

/-- The value of digits in a base. -/
def valueOf (base : Nat) (digits : Bytes) : Nat :=
  digits.foldl (fun n b => n * base + (digit? base b).getD 0) 0

/-- Read a number that is below a limit: at most `most` digits, if that is given, and a zero in
front of other digits only where that is allowed. -/
def number? (base below : Nat) (most : Option Nat) (zeros : Bool) (s : Bytes) :
    Option (Nat × Bytes) :=
  let (digits, rest) := s.span fun b => (digit? base b).isSome
  if digits.isEmpty then none
  else if (most.any (· < digits.length)) then none
  else if !zeros && digits.head? == some 0x30 && 1 < digits.length then none
  else if valueOf base digits < below then some (valueOf base digits, rest)
  else none

/-- Read one byte. -/
def byte? (b : UInt8) : Bytes → Option Bytes
  | [] => none
  | c :: rest => if c = b then some rest else none

/-- Read an octet. -/
def octet? (s : Bytes) : Option (Nat × Bytes) := number? 10 256 (some 3) false s

/-- Read a four-part address. -/
def four? (s : Bytes) : Option (List Nat × Bytes) := do
  let (a, s) ← octet? s
  let (b, s) ← octet? (← byte? 0x2E s)
  let (c, s) ← octet? (← byte? 0x2E s)
  let (d, s) ← octet? (← byte? 0x2E s)
  return ([a, b, c, d], s)

/-- Two groups made of four octets. -/
def groupsOf : List Nat → List Nat
  | [a, b, c, d] => [a * 256 + b, c * 256 + d]
  | _ => []

/-- Read at most `limit` groups with colons between them, and before the first one unless it is the
first of all; a four-part address may stand for the last two.  The second part tells whether one
does. -/
def readGroups (first : Bool) : Nat → Bytes → List Nat × Bool × Bytes
  | 0, s => ([], false, s)
  | limit + 1, s =>
    match (if first then some s else byte? 0x3A s) with
    | none => ([], false, s)
    | some s' =>
      match (if limit = 0 then none else four? s') with
      | some (octets, rest) => (groupsOf octets, true, rest)
      | none =>
        match number? 16 65536 (some 4) true s' with
        | none => ([], false, s)
        | some (g, rest) =>
          let (gs, mixed, rest) := readGroups false limit rest
          (g :: gs, mixed, rest)

/-- Read an eight-part address. -/
def eight? (s : Bytes) : Option (List Nat × Bytes) :=
  let (front, mixed, rest) := readGroups true 8 s
  if front.length = 8 then some (front, rest)
  else if mixed then none
  else do
    let rest ← byte? 0x3A (← byte? 0x3A rest)
    let (back, _, rest) := readGroups true (7 - front.length) rest
    return (front ++ List.replicate (8 - front.length - back.length) 0 ++ back, rest)

/-- Read a colon and a port. -/
def port? (s : Bytes) : Option (Nat × Bytes) := do number? 10 65536 none true (← byte? 0x3A s)

/-- Read a scope, if there is one. -/
def scope? (s : Bytes) : Nat × Bytes :=
  match byte? 0x25 s with
  | none => (0, s)
  | some s' => (number? 10 4294967296 none true s').getD (0, s)

/-- Read an address with a port in its four-part form. -/
def parseFour? (s : Bytes) : Option (Address × Bytes) := do
  let (octets, s) ← four? s
  let (port, s) ← port? s
  return ({ ip := .v4 octets, port }, s)

/-- Read an address with a port in its eight-part form. -/
def parseEight? (s : Bytes) : Option (Address × Bytes) := do
  let (groups, s) ← eight? (← byte? 0x5B s)
  let (scope, s) := scope? s
  let (port, s) ← port? (← byte? 0x5D s)
  return ({ ip := .v6 groups, scope, port }, s)

/-- Nothing may follow. -/
def whole? {α : Type} : Option (α × Bytes) → Option α
  | some (a, []) => some a
  | _ => none

/-- The socket address that a text spells. -/
def Address.parse? (s : Bytes) : Option Address :=
  match whole? (parseFour? s) with
  | some a => some a
  | none => whole? (parseEight? s)

/-! ## Writing -/

/-- A group in hexadecimal. -/
def groupText (g : Nat) : String := String.ofList (Nat.toDigits 16 g)

/-- The first of the longest runs of zeros: where it starts and how long it is. -/
def longestRun (groups : List Nat) : Nat × Nat :=
  let runs := (List.range groups.length).map fun i =>
    (i, ((groups.drop i).takeWhile (· == 0)).length)
  runs.foldl (fun best run => if best.2 < run.2 then run else best) (0, 0)

/-- Groups with colons between them. -/
def colons (groups : List Nat) : String := String.intercalate ":" (groups.map groupText)

/-- Four octets with dots between them. -/
def dotted (octets : List Nat) : String := String.intercalate "." (octets.map toString)

/-- The address as text. -/
def Ip.text : Ip → String
  | .v4 octets => dotted octets
  | .v6 [0, 0, 0, 0, 0, 0xFFFF, a, b] => "::ffff:" ++ dotted [a / 256, a % 256, b / 256, b % 256]
  | .v6 groups =>
    let (start, length) := longestRun groups
    if length < 2 then colons groups
    else colons (groups.take start) ++ "::" ++ colons (groups.drop (start + length))

/-- The socket address as text. -/
def Address.text (a : Address) : String :=
  match a.ip with
  | .v4 _ => a.ip.text ++ ":" ++ toString a.port
  | .v6 _ =>
    let scope := if a.scope = 0 then "" else "%" ++ toString a.scope
    "[" ++ a.ip.text ++ scope ++ "]:" ++ toString a.port

/-- Why a text is no socket address. -/
def invalidAddress : String := "Invalid address: invalid socket address syntax"

/-- The address of a configured host and port. -/
def Address.ofHost? (host : String) (port : Nat) : Option Address :=
  Address.parse? (bytes (host ++ ":" ++ toString port))

end EdgeCache.Net
