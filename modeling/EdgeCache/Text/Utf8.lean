import EdgeCache.Bytes

/-!
# Reading UTF-8

`decode` reads bytes as UTF-8 and never fails: it gives one item for each character, and one `none`
for each maximal ill-formed part — the longest run of bytes that could still have begun a character,
or else a single byte.  Everything else here is read off that list: whether the bytes are well
formed (`valid`), the text they stand for (`text?`), and the two repairs (`repaired`, `lossy`) that
put U+FFFD in the place of each ill-formed part.
-/

set_option autoImplicit false

namespace EdgeCache.Utf8

/-- What the first byte of a character promises: how many bytes follow, the range of the first of
them, and the bits that the first byte itself carries. -/
structure Lead where
  more : Nat
  low : UInt8
  high : UInt8
  bits : Nat

/-- The promise of a first byte; `none` for a byte that begins no character. -/
def lead? (b : UInt8) : Option Lead :=
  if b < 0x80 then some ⟨0, 0, 0, b.toNat⟩
  else if b < 0xC2 then none
  else if b < 0xE0 then some ⟨1, 0x80, 0xBF, b.toNat % 32⟩
  else if b = 0xE0 then some ⟨2, 0xA0, 0xBF, 0⟩
  else if b = 0xED then some ⟨2, 0x80, 0x9F, 13⟩
  else if b < 0xF0 then some ⟨2, 0x80, 0xBF, b.toNat % 16⟩
  else if b = 0xF0 then some ⟨3, 0x90, 0xBF, 0⟩
  else if b < 0xF4 then some ⟨3, 0x80, 0xBF, b.toNat % 8⟩
  else if b = 0xF4 then some ⟨3, 0x80, 0x8F, 4⟩
  else none

/-- The longest run of at most `n` continuation bytes, the first of them within its own range. -/
def continuation : Nat → UInt8 → UInt8 → Bytes → Bytes
  | 0, _, _, _ => []
  | _ + 1, _, _, [] => []
  | n + 1, low, high, b :: rest =>
    if low ≤ b && b ≤ high then b :: continuation n 0x80 0xBF rest else []

/-- The code point that a first byte's bits and the continuation bytes spell. -/
def codePoint (bits : Nat) (tail : Bytes) : Nat :=
  tail.foldl (fun n b => n * 64 + b.toNat % 64) bits

/-- The characters of a byte string, `none` for each maximal ill-formed part. -/
def decode : Bytes → List (Option Char)
  | [] => []
  | b :: rest =>
    match lead? b with
    | none => none :: decode rest
    | some l =>
      let tail := continuation l.more l.low l.high rest
      (if tail.length = l.more then some (Char.ofNat (codePoint l.bits tail)) else none)
        :: decode (rest.drop tail.length)
  termination_by s => s.length
  decreasing_by
    · simp
    · simp only [List.length_drop, List.length_cons]; omega

/-- The bytes are well-formed UTF-8. -/
def valid (s : Bytes) : Bool := (decode s).all Option.isSome

/-- The replacement character, U+FFFD. -/
def replacement : Char := '\uFFFD'

/-- The text of a byte string, each ill-formed part replaced. -/
def lossy (s : Bytes) : String := String.ofList ((decode s).map fun c => c.getD replacement)

/-- The bytes of `lossy`: well-formed bytes come back unchanged. -/
def repaired (s : Bytes) : Bytes :=
  (decode s).flatMap fun c => String.utf8EncodeChar (c.getD replacement)

/-- The text of a well-formed byte string. -/
def text? (s : Bytes) : Option String := if valid s then some (lossy s) else none

end EdgeCache.Utf8
