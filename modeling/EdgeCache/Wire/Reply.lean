import EdgeCache.Http.Plain
import EdgeCache.Wire.Framing

/-!
# Responses on the wire

A connection to a server brings a response: a status line, fields, and a body whose framing depends
on the request as well.  Interim responses before the final one are passed over.
-/

set_option autoImplicit false

namespace EdgeCache.Wire

/-- A response as it came in. -/
structure Reply where
  version : Version
  head : Head
  body : Arrival

/-- Read the three digits of a status code. -/
def readCode (s : Bytes) : Parsed Nat :=
  let digits := s.take 3
  if !digits.all Bytes.isDigit then .refused .malformed
  else if digits.length < 3 then .incomplete
  else .complete ((Bytes.toNat? digits).getD 0) (s.drop 3)

/-- Read the end of a status line, with a reason phrase or without. -/
def readReason : Bytes → Parsed Unit
  | 0x20 :: rest => lineEnd (rest.dropWhile fun b => isHeaderValue [b])
  | s => lineEnd s

/-- Read a status line: version and status code. -/
def statusLine (s : Bytes) : Parsed (Version × Nat) :=
  (skipEmptyLines s).andThen fun _ s =>
  (readVersion s).andThen fun version s =>
  (fixedText [0x20] s).andThen fun _ s =>
  (readCode s).andThen fun code s =>
  (readReason s).andThen fun _ s => .complete (version, code) s

/-- The framing of a response's body; `none` if the fields contradict themselves. -/
def replyFraming? (method : Method) (version : Version) (status : Status) (h : Headers) :
    Option Framing :=
  if status.code = 101 ∨ status.code = 204 ∨ status.code = 304 ∨ method = .head ∨
      (method = .connect ∧ status.code / 100 = 2) then some (.length 0)
  else if h.contains .transferEncoding then
    if version = .http10 then none
    else if endsInChunked h then some .chunked
    else some .untilClose
  else if h.contains .contentLength then
    match declaredLength? h with
    | some n => if n ≤ maxLength then some (.length n) else none
    | none => none
  else some .untilClose

/-- The end of a reply is in sight without the end of the connection. -/
def Reply.isWhole (method : Method) (r : Reply) : Bool :=
  match replyFraming? method r.version r.head.status r.head.headers with
  | some .untilClose | none => false
  | some _ => !r.body.broken

/-- Read the response to a request with the given method out of everything that a connection has
brought; `fuel` bounds the number of interim responses.  `none` if there is no usable head. -/
def readReply (method : Method) : (fuel : Nat) → Bytes → Option Reply
  | 0, _ => none
  | fuel + 1, s =>
    match statusLine s with
    | .complete (version, code) s =>
      match Status.ofNat? code, readFields maxFields s with
      | some status, .complete headers rest =>
        if code / 100 = 1 ∧ code ≠ 101 then readReply method fuel rest
        else (replyFraming? method version status headers).map fun framing =>
          ⟨version, ⟨status, headers⟩, framing.read rest⟩
      | _, _ => none
    | _ => none

/-- The response to a request with the given method. -/
def Reply.ofBytes? (method : Method) (s : Bytes) : Option Reply := readReply method (s.length + 1) s

end EdgeCache.Wire
