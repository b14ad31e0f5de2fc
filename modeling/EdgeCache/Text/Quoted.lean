import EdgeCache.Bytes

/-!
# Quoted text

A text in double quotes, fit for one line: quotes, backslashes and controls are written with a
backslash, and so are characters that would not show by themselves — blanks other than the space,
formatting characters, combining marks, and code points without a character of their own.
-/

set_option autoImplicit false

namespace EdgeCache.Quoted

/-- Ranges of characters outside ASCII that do not show by themselves. -/
def hidden : List (Nat × Nat) :=
  [(0x7F, 0xA0), (0xAD, 0xAD), (0x300, 0x36F), (0x378, 0x379), (0x380, 0x383), (0x483, 0x489),
   (0x591, 0x5BD), (0x600, 0x605), (0x610, 0x61A), (0x61C, 0x61C), (0x64B, 0x65F), (0x6DD, 0x6DD),
   (0x70F, 0x70F), (0x1680, 0x1680), (0x180B, 0x180F), (0x1AB0, 0x1AFF), (0x1DC0, 0x1DFF),
   (0x2000, 0x200F), (0x2028, 0x202F), (0x205F, 0x206F), (0x20D0, 0x20FF), (0x3000, 0x3000),
   (0x302A, 0x302F), (0x3099, 0x309A), (0xD7FC, 0xF8FF), (0xFB1E, 0xFB1E), (0xFDD0, 0xFDEF),
   (0xFE00, 0xFE0F), (0xFE20, 0xFE2F), (0xFEFF, 0xFEFF), (0xFFF0, 0xFFFB), (0xFFFE, 0xFFFF),
   (0x1FFFE, 0x1FFFF), (0x2FFFE, 0x2FFFF), (0x3FFFE, 0x10FFFF)]

/-- The character shows by itself. -/
def shows (c : Char) : Bool :=
  0x20 ≤ c.toNat && !hidden.any fun r => r.1 ≤ c.toNat && c.toNat ≤ r.2

/-- How a character stands in a quoted text. -/
def escape (c : Char) : List Char :=
  if c = '"' then ['\\', '"']
  else if c = '\\' then ['\\', '\\']
  else if c = '\n' then ['\\', 'n']
  else if c = '\r' then ['\\', 'r']
  else if c = '\t' then ['\\', 't']
  else if c.toNat = 0 then ['\\', '0']
  else if shows c then [c]
  else
    let digits := (Nat.toDigits 16 c.toNat)
    '\\' :: 'u' :: '\x7b' :: (digits ++ ['\x7d'])

/-- The text in quotes. -/
def quote (s : String) : String := String.ofList ('"' :: (s.toList.flatMap escape ++ ['"']))

end EdgeCache.Quoted
