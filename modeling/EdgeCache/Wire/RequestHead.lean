import EdgeCache.Http.Status
import EdgeCache.Wire.Framing

/-!
# Requests on the wire

The head of a request is a request line — method, target and version — and fields.  It also says how
the end of the body is found, and whether the connection may be used for another request.  A body
comes with a length or in chunks; without either there is none.
-/

set_option autoImplicit false

namespace EdgeCache.Wire

/-- What the head of a request says. -/
structure RequestHead where
  method : Method
  uri : Uri
  version : Version
  headers : Headers
  framing : Framing
  /-- The connection may be used for another request. -/
  stays : Bool

namespace RequestHead

/-! ## The request line -/

/-- The bytes of a target in a request line. -/
def isTargetByte (b : UInt8) : Bool := 0x21 ≤ b && b != 0x7F

/-- Read a word of the given bytes and the space after it. -/
def readWord (p : UInt8 → Bool) (s : Bytes) : Parsed Bytes :=
  let (word, rest) := s.span p
  match rest with
  | [] => .incomplete
  | b :: rest => if b = 0x20 ∧ word ≠ [] then .complete word rest else .refused .malformed

/-- The parts of a request line. -/
structure Line where
  method : Bytes
  target : Bytes
  version : Version

/-- Read a request line. -/
def readLine (s : Bytes) : Parsed Line :=
  (skipEmptyLines s).andThen fun _ s =>
  (readWord isTokenByte s).andThen fun method s =>
  (readWord isTargetByte s).andThen fun target s =>
  (readVersion s).andThen fun version s =>
  (lineEnd s).andThen fun _ s => .complete ⟨method, target, version⟩ s

/-! ## The body -/

/-- What the fields have said about the body so far, and which of them are kept. -/
structure BodyClaims where
  /-- There is a transfer coding. -/
  coded : Bool := false
  /-- The last transfer coding is the chunked one. -/
  chunked : Bool := false
  length : Option Nat := none
  kept : Headers := {}

/-- Take account of one more field.  A length counts only when no transfer coding came before it,
and has to agree with one that did. -/
def BodyClaims.add (version : Version) (c : BodyClaims) (f : HeaderName × Bytes) :
    Except Fault BodyClaims :=
  let kept := c.kept.append f.1 f.2
  if f.1 = .transferEncoding then
    if version = .http10 then .error .malformed
    else .ok { c with coded := true, chunked := isChunked f.2, kept }
  else if f.1 = .contentLength then
    if c.coded then .ok c
    else
      match Bytes.toNat? f.2, c.length with
      | none, _ => .error .malformed
      | some n, some m => if n = m then .ok c else .error .malformed
      | some n, none =>
        if maxNumber < n then .error .malformed
        else if maxLength < n then .error .tooLarge
        else .ok { c with length := some n, kept }
  else .ok { c with kept }

/-- How the end of the body is found. -/
def BodyClaims.framing (c : BodyClaims) : Except Fault Framing :=
  if c.coded then if c.chunked then .ok .chunked else .error .malformed
  else .ok (.length (c.length.getD 0))

/-! ## The head -/

/-- Whether the connection stays open, as one more `Connection` value has it. -/
def stillStays (stays : Bool) (value : Bytes) : Bool :=
  if stays then !hasWord closeWord value else hasWord stayWord value

/-- What a request line and fields say. -/
def ofParts (line : Line) (h : Headers) : Except Fault RequestHead :=
  match Method.ofBytes? line.method, Uri.parse line.target with
  | some method, .ok uri => do
    let claims ← h.fields.foldlM (BodyClaims.add line.version) {}
    return {
      method, uri, version := line.version, headers := claims.kept, framing := ← claims.framing
      stays := (h.values .connection).foldl stillStays (line.version == .http11) }
  | some _, .error .tooLong => .error .longTarget
  | _, _ => .error .malformed

/-- Read the head of a request. -/
def read (s : Bytes) : Parsed RequestHead :=
  (readLine s).andThen fun line s =>
  (readFields maxFields s).andThen fun h s =>
    match ofParts line h with
    | .ok head => .complete head s
    | .error fault => .refused fault

/-- How much of a head is looked at before it is refused as too large. -/
def maxSize : Nat := 417792

/-- The beginning of a connection in the next version of the protocol, which is not spoken here. -/
def nextProtocol : Bytes := bytes "PRI * HTTP/2.0\r\n\r\nSM\r\n\r\n"

/-- Nothing but ends of lines. -/
def isBlank (s : Bytes) : Bool := s.all fun b => b == carriageReturn || b == lineFeed

end RequestHead

/-- The status of the answer to a head that is refused. -/
def Fault.status : Fault → Status
  | malformed => .badRequest
  | tooLarge => .requestHeaderFieldsTooLarge
  | longTarget => .uriTooLong

end EdgeCache.Wire
