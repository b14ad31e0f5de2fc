/-!
# Byte strings

Everything that travels on the wire — methods, header names and values, targets, bodies — and the
cache keys made of them are lists of bytes.  This file has the few operations on them that the rest
of the library shares: the bytes of a text, ASCII letter case, blanks, splitting at a separator, and
the lexicographic order.

* `splitOn` and `joinWith` — cutting at every occurrence of a byte, and its inverse.
* `cut` — cutting at the first occurrence only.
* `lexLt` — the order of byte strings that sorted query parameters and answers are shown in.
-/

set_option autoImplicit false

namespace EdgeCache

/-- A string of bytes. -/
abbrev Bytes := List UInt8

/-- The UTF-8 bytes of a text. -/
def bytes (s : String) : Bytes := s.toList.flatMap String.utf8EncodeChar

namespace Bytes

/-! ## Classes of bytes -/

/-- `A`–`Z`. -/
def isUpper (b : UInt8) : Bool := 0x41 ≤ b && b ≤ 0x5A

/-- `a`–`z`. -/
def isLower (b : UInt8) : Bool := 0x61 ≤ b && b ≤ 0x7A

/-- `0`–`9`. -/
def isDigit (b : UInt8) : Bool := 0x30 ≤ b && b ≤ 0x39

/-- An ASCII letter. -/
def isAlpha (b : UInt8) : Bool := isUpper b || isLower b

/-- An ASCII letter or digit. -/
def isAlnum (b : UInt8) : Bool := isAlpha b || isDigit b

/-- The blanks of ASCII text: tab, line feed, vertical tab, form feed, carriage return, space. -/
def isBlank (b : UInt8) : Bool := (9 ≤ b && b ≤ 13) || b == 32

/-- An upper-case letter becomes its lower-case partner; every other byte stays. -/
def lowerByte (b : UInt8) : UInt8 := if isUpper b then b + 32 else b

/-- ASCII lower case. -/
def lower (s : Bytes) : Bytes := s.map lowerByte

/-- The value of a hexadecimal digit. -/
def hexValue? (b : UInt8) : Option Nat :=
  if isDigit b then some (b.toNat - 0x30)
  else if 0x41 ≤ b && b ≤ 0x46 then some (b.toNat - 0x37)
  else if 0x61 ≤ b && b ≤ 0x66 then some (b.toNat - 0x57)
  else none

/-- The upper-case hexadecimal digit of a number below sixteen. -/
def hexDigit (n : Nat) : UInt8 := if n < 10 then (0x30 + n).toUInt8 else (0x37 + n).toUInt8

/-! ## Cutting -/

/-- The pieces between the occurrences of `sep`; one more than there are occurrences. -/
def splitOn (sep : UInt8) : Bytes → List Bytes
  | [] => [[]]
  | b :: rest =>
    if b = sep then [] :: splitOn sep rest
    else
      match splitOn sep rest with
      | [] => [[b]]
      | piece :: pieces => (b :: piece) :: pieces

/-- The pieces put together again with `sep` between them. -/
def joinWith (sep : UInt8) : List Bytes → Bytes
  | [] => []
  | [piece] => piece
  | piece :: pieces => piece ++ sep :: joinWith sep pieces

/-- What stands before the first `sep`, and what stands after it if there is one. -/
def cut (sep : UInt8) : Bytes → Bytes × Option Bytes
  | [] => ([], none)
  | b :: rest =>
    if b = sep then ([], some rest)
    else (b :: (cut sep rest).1, (cut sep rest).2)

/-- Without the bytes of a class at either end. -/
def trimBy (p : UInt8 → Bool) (s : Bytes) : Bytes :=
  ((s.dropWhile p).reverse.dropWhile p).reverse

/-- Without the blanks at either end. -/
def trim (s : Bytes) : Bytes := trimBy isBlank s

/-- Without the bytes of a class at the end. -/
def trimEndBy (p : UInt8 → Bool) (s : Bytes) : Bytes := (s.reverse.dropWhile p).reverse

/-- `s` begins with `start`. -/
def startsWith (start s : Bytes) : Bool := start.isPrefixOf s

/-- `s` ends with `finish`. -/
def endsWith (finish s : Bytes) : Bool := finish.isSuffixOf s

/-! ## Order -/

/-- Lexicographic order by byte value; a proper beginning comes first. -/
def lexLt : Bytes → Bytes → Bool
  | _, [] => false
  | [], _ :: _ => true
  | a :: s, b :: t => a < b || (a == b && lexLt s t)

/-- `s` comes before `t` or is equal to it. -/
def lexLe (s t : Bytes) : Bool := !lexLt t s

/-! ## Numbers -/

/-- The decimal digits of a number. -/
def ofNat (n : Nat) : Bytes := (Nat.toDigits 10 n).flatMap String.utf8EncodeChar

/-- The value of a non-empty string of decimal digits. -/
def toNat? (s : Bytes) : Option Nat :=
  if !s.isEmpty && s.all isDigit then
    some (s.foldl (fun n b => n * 10 + (b.toNat - 0x30)) 0)
  else none

end Bytes
end EdgeCache
