import EdgeCache.Http.Request

/-!
# Header fields on the wire

The head of a message is a first line and a line for each header field, up to an empty line.  Lines
end in a line feed, with or without a carriage return in front; a field may not be continued on the
next line.  Reading from a byte string that may go on later has three outcomes (`Parsed`): something
is complete, the bytes end too early, or they are refused, which happens as soon as the first wrong
byte is seen.
-/

set_option autoImplicit false

namespace EdgeCache.Wire

/-- Why bytes are refused as the head of a message. -/
inductive Fault where
  | malformed
  /-- There is more of it than is taken. -/
  | tooLarge
  /-- The target of the request is too long. -/
  | longTarget
deriving DecidableEq

/-- What reading from the front of a byte string gives. -/
inductive Parsed (α : Type) where
  | complete (value : α) (rest : Bytes)
  /-- The bytes end before it is complete. -/
  | incomplete
  | refused (fault : Fault)

/-- Go on reading behind what is complete. -/
def Parsed.andThen {α β : Type} (p : Parsed α) (next : α → Bytes → Parsed β) : Parsed β :=
  match p with
  | .complete a rest => next a rest
  | .incomplete => .incomplete
  | .refused fault => .refused fault

/-! ## Lines -/

def carriageReturn : UInt8 := 0x0D
def lineFeed : UInt8 := 0x0A

/-- The blanks within a line. -/
def isLineBlank (b : UInt8) : Bool := b == 0x20 || b == 9

/-- Read the end of a line. -/
def lineEnd : Bytes → Parsed Unit
  | [] => .incomplete
  | b :: rest =>
    if b = lineFeed then .complete () rest
    else if b = carriageReturn then
      match rest with
      | [] => .incomplete
      | c :: rest' => if c = lineFeed then .complete () rest' else .refused .malformed
    else .refused .malformed

/-- Pass over the empty lines in front of a message. -/
def skipEmptyLines : Bytes → Parsed Unit
  | 0x0D :: 0x0A :: rest => skipEmptyLines rest
  | [0x0D] => .incomplete
  | 0x0D :: _ => .refused .malformed
  | 0x0A :: rest => skipEmptyLines rest
  | [] => .incomplete
  | s => .complete () s

/-- Read a fixed text. -/
def fixedText : (text s : Bytes) → Parsed Unit
  | [], s => .complete () s
  | _ :: _, [] => .incomplete
  | a :: text, b :: s => if a = b then fixedText text s else .refused .malformed

/-! ## The first line -/

/-- Read a protocol version. -/
def readVersion (s : Bytes) : Parsed Version :=
  (fixedText (bytes "HTTP/1.") s).andThen fun _ rest =>
    match rest with
    | [] => .incomplete
    | 0x30 :: rest => .complete .http10 rest
    | 0x31 :: rest => .complete .http11 rest
    | _ => .refused .malformed

/-- A protocol version as it is written; one that is not spoken here is written as the latest that
is. -/
def versionText : Version → Bytes
  | .http10 => bytes "HTTP/1.0"
  | _ => bytes "HTTP/1.1"

/-! ## Fields -/

/-- Read a field and the end of its line.  Blanks around the value do not belong to it. -/
def readField (s : Bytes) : Parsed (HeaderName × Bytes) :=
  let (name, rest) := s.span isTokenByte
  match rest with
  | [] => .incomplete
  | b :: rest =>
    if b ≠ 0x3A then .refused .malformed
    else
      match HeaderName.ofBytes? name with
      | none => .refused .malformed
      | some n =>
        let (value, rest) := (rest.dropWhile isLineBlank).span fun b => isHeaderValue [b]
        (lineEnd rest).andThen fun _ rest =>
          .complete (n, Bytes.trimEndBy isLineBlank value) rest

/-- Read at most `limit` fields and the empty line after them. -/
def readFields : (limit : Nat) → Bytes → Parsed Headers
  | _, [] => .incomplete
  | limit, b :: s =>
    if b = lineFeed ∨ b = carriageReturn then
      (lineEnd (b :: s)).andThen fun _ rest => .complete {} rest
    else
      match limit with
      | 0 => .refused .tooLarge
      | limit + 1 =>
        (readField (b :: s)).andThen fun field rest =>
          (readFields limit rest).andThen fun more rest => .complete ⟨field :: more.fields⟩ rest

/-- How many fields are taken. -/
def maxFields : Nat := 100

/-! ## Writing -/

/-- The end of a line. -/
def newLine : Bytes := [carriageReturn, lineFeed]

/-- A line for a field. -/
def fieldLine (name : HeaderName) (value : Bytes) : Bytes :=
  name.text ++ 0x3A :: 0x20 :: (value ++ newLine)

/-- The head of a message: its first line, its fields, and an empty line. -/
def headText (first : Bytes) (h : Headers) : Bytes :=
  first ++ newLine ++ (h.fields.flatMap fun f => fieldLine f.1 f.2) ++ newLine

end EdgeCache.Wire
