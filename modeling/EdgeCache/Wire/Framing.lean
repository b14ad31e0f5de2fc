import EdgeCache.Wire.Fields

/-!
# Where a body ends

A body is as long as a `Content-Length` says, or comes in chunks that each tell their own length, or
goes on until the connection is closed.  `Framing.read` takes a body out of what a connection has
brought before it was closed: its pieces, and whether it was complete.
-/

set_option autoImplicit false

namespace EdgeCache.Wire

/-- How the end of a body is found. -/
inductive Framing where
  | length (n : Nat)
  | chunked
  | untilClose
deriving DecidableEq

/-- The pieces of a body as they came in. -/
structure Arrival where
  pieces : List Bytes := []
  /-- The body broke off, or what came was no body. -/
  broken : Bool := false
  /-- What came after the body. -/
  rest : Bytes := []

/-! ## What the fields say -/

/-- The greatest number of 64 bits. -/
def maxNumber : Nat := 18446744073709551615

/-- The greatest length of a body that is read; the two numbers above it have other uses. -/
def maxLength : Nat := maxNumber - 2

/-- The numbers that the pieces of a `Content-Length` value spell. -/
def lengthsIn (value : Bytes) : List (Option Nat) :=
  match headerText? value with
  | none => [none]
  | some text => (Bytes.splitOn 0x2C text).map fun piece =>
    match Bytes.toNat? (Bytes.trim piece) with
    | some n => if n ≤ maxNumber then some n else none
    | none => none

/-- The length that the `Content-Length` fields agree on. -/
def declaredLength? (h : Headers) : Option Nat :=
  match (h.values .contentLength).flatMap lengthsIn with
  | some n :: rest => if rest.all (· == some n) then some n else none
  | _ => none

/-- The last coding of a `Transfer-Encoding` value is the chunked one. -/
def isChunked (value : Bytes) : Bool :=
  match headerText? value with
  | none => false
  | some text =>
    match (Bytes.splitOn 0x2C text).getLast? with
    | none => false
    | some piece => Bytes.lower (Bytes.trim piece) == bytes "chunked"

/-- The last coding of the last `Transfer-Encoding` field is the chunked one. -/
def endsInChunked (h : Headers) : Bool := ((h.values .transferEncoding).getLast?).any isChunked

/-- A `Connection` value has a word among its words. -/
def hasWord (word : String) (value : Bytes) : Bool :=
  match headerText? value with
  | none => false
  | some text => (Bytes.splitOn 0x2C text).any fun w => Bytes.lower (Bytes.trim w) == bytes word

/-- The word for a connection that is closed behind a message. -/
def closeWord : String := "close"

/-- The word for a connection that stays open. -/
def stayWord : String := "keep-alive"

/-! ## Chunks -/

/-- How many bytes of extensions and of trailers are taken. -/
def maxExtra : Nat := 16384

/-- Read the line in front of a chunk: the chunk's size, and how many bytes of extensions follow
it. -/
def sizeLine? (s : Bytes) : Option (Nat × Nat × Bytes) :=
  let (digits, rest) := s.span fun b => (Bytes.hexValue? b).isSome
  let size := digits.foldl (fun n b => n * 16 + (Bytes.hexValue? b).getD 0) 0
  if digits.isEmpty || maxNumber < size then none
  else
    match rest.dropWhile isLineBlank with
    | 0x0D :: 0x0A :: rest => some (size, 0, rest)
    | 0x3B :: rest =>
      let (extension, rest) := rest.span fun b => b != carriageReturn && b != lineFeed
      match rest with
      | 0x0D :: 0x0A :: rest => some (size, extension.length, rest)
      | _ => none
    | _ => none

/-- The lines up to an empty one, every carriage return being part of a line's end, and what comes
after them; `fuel` bounds their number. -/
def trailerText? : (fuel : Nat) → Bytes → Option (Bytes × Bytes)
  | 0, _ => none
  | fuel + 1, s =>
    let (line, rest) := s.span (· != carriageReturn)
    match rest with
    | 0x0D :: 0x0A :: rest =>
      if line.isEmpty then some ([0x0D, 0x0A], rest)
      else (trailerText? fuel rest).map fun more => (line ++ 0x0D :: 0x0A :: more.1, more.2)
    | _ => none

/-- Read what follows the last chunk: a block of fields, not too long. -/
def trailers? (s : Bytes) : Option Bytes :=
  match trailerText? (s.length + 1) s with
  | none => none
  | some (text, rest) =>
    match readFields maxFields text with
    | .complete _ _ => if text.length ≤ maxExtra + 2 then some rest else none
    | _ => none

/-- Read chunks, where `extra` bytes of extensions have been taken already; `fuel` bounds their
number. -/
def readChunks : (fuel extra : Nat) → Bytes → Arrival
  | 0, _, _ => { broken := true }
  | fuel + 1, extra, s =>
    match sizeLine? s with
    | none => { broken := true }
    | some (size, extension, rest) =>
      if maxExtra ≤ extra + extension then { broken := true }
      else if size = 0 then
        match trailers? rest with
        | some rest => { rest }
        | none => { broken := true }
      else
        let data := rest.take size
        let piece := if data.isEmpty then [] else [data]
        match rest.drop size with
        | 0x0D :: 0x0A :: rest =>
          let more := readChunks fuel (extra + extension) rest
          { more with pieces := piece ++ more.pieces }
        | _ => { pieces := piece, broken := true }

/-- Take a body from the front of what a connection has brought. -/
def Framing.read : Framing → Bytes → Arrival
  | .length n, s =>
    let data := s.take n
    { pieces := if data.isEmpty then [] else [data], broken := data.length < n, rest := s.drop n }
  | .chunked, s => readChunks (s.length + 1) 0 s
  | .untilClose, s => { pieces := if s.isEmpty then [] else [s] }

end EdgeCache.Wire
