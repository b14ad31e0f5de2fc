import EdgeCache.Http.Plain
import EdgeCache.Wire.Framing

/-!
# Responses going out

A response is put on the wire in the version of its request.  Its head tells how the end of the body
is found: by the length among its fields; without one, in chunks, or in the older version by the end
of the connection.  It also tells whether the connection stays open.  Some responses have no body
whatever their fields say.
-/

set_option autoImplicit false

namespace EdgeCache.Wire

/-- What of a request matters to how it is answered. -/
structure Asker where
  method : Method
  version : Version
  /-- The connection may be used for another request. -/
  stays : Bool

/-- The head of a response as it goes out. -/
structure AnswerHead where
  text : Bytes
  framing : Framing
  /-- The connection is closed behind the response. -/
  last : Bool

namespace AnswerHead

/-- The response answers a `CONNECT` with success. -/
def opensTunnel (a : Asker) (status : Status) : Bool :=
  a.method == .connect && status.code / 100 == 2

/-- The response may have a body. -/
def hasBody (a : Asker) (status : Status) : Bool :=
  !(a.method == .head || opensTunnel a status || status.code / 100 == 1 || status.code == 204 ||
    status.code == 304)

/-- Bring the `Connection` field in line with what becomes of the connection: the older version has
to be told that it stays open, the newer one that it does not. -/
def withConnection (a : Asker) (h : Headers) : Headers :=
  match a.version with
  | .http10 =>
    if a.stays && !((h.get? .connection).any (hasWord stayWord)) then
      h.insert .connection (bytes stayWord)
    else h
  | _ => if a.stays then h else h.insert .connection (bytes closeWord)

/-- The values under a name in one. -/
def joined (values : List Bytes) : Bytes := List.intercalate (bytes ", ") values

/-- Fields that take a line for all their values, or none. -/
def merged (name : HeaderName) (values : List Bytes) : List (HeaderName × Bytes) :=
  if values.isEmpty then [] else [(name, joined values)]

/-- The length that the `Content-Length` fields agree on, if there are any; `none` if they are no
lengths or do not agree. -/
def lengthOf? (h : Headers) : Option (Option (Nat × Bytes)) :=
  match h.values .contentLength with
  | [] => some none
  | v :: vs =>
    match Bytes.toNat? v with
    | none => none
    | some n =>
      if n ≤ maxNumber && vs.all (fun w => Bytes.toNat? w == some n) then some (some (n, v))
      else none

/-- The value for a body in chunks: that is its last coding, whatever came before. -/
def codings (values : List Bytes) : Bytes :=
  if (values.getLast?).any isChunked then joined values else joined (values ++ [bytes "chunked"])

/-- Of the fields that frame a body, a length comes first. -/
def lengthFirst (h : Headers) : Bool :=
  (h.fields.find? fun f => f.1 == .contentLength || f.1 == .transferEncoding).any fun f =>
    f.1 == .contentLength

/-- How the end of the body is found, and the fields that say so; `none` if they contradict each
other. -/
def framingOf (a : Asker) (status : Status) (h : Headers) :
    Option (Framing × List (HeaderName × Bytes)) :=
  let chunkable := a.version ≠ .http10 && hasBody a status
  let coded := h.contains .transferEncoding
  match lengthOf? h with
  | none => none
  | some (some (n, value)) =>
    if opensTunnel a status || coded && (chunkable || lengthFirst h) then none
    else some (.length n, [(.contentLength, value)])
  | some none =>
    if opensTunnel a status then if coded then none else some (.length 0, [])
    else if chunkable then
      let value := if coded then codings (h.values .transferEncoding) else bytes "chunked"
      some (.chunked, [(.transferEncoding, value)])
    else some (.untilClose, [])

/-- The fields that have a line for each value. -/
def plainFields (h : Headers) : List (HeaderName × Bytes) :=
  h.fields.filter fun f =>
    f.1 != .contentLength && f.1 != .transferEncoding && f.1 != .connection && f.1 != .trailer

/-- The first line of a response. -/
def firstLine (version : Version) (status : Status) : Bytes :=
  versionText version ++ 0x20 :: bytes (toString status.code ++ " " ++
    status.reason?.getD "<none>")

/-- The field that tells when a response was made, unless it has one. -/
def dated (date : String) (h : Headers) : List (HeaderName × Bytes) :=
  if h.contains .date then [] else [(.date, bytes date)]

/-- A complete answer without a body. -/
def bare (a : Asker) (version : Version) (status : Status) (date : String) : Bytes :=
  let length := if a.method == .head then [] else [(HeaderName.contentLength, bytes "0")]
  headText (firstLine version status) ⟨length ++ dated date {}⟩

/-- The head for a response.  A head that cannot be sent gives what is sent in its place before the
connection breaks down: nothing, or for an interim status an answer that says so. -/
def ofHead (a : Asker) (head : Head) (date : String) : Except Bytes AnswerHead :=
  let status := head.status
  if status.code / 100 = 1 ∧ status.code ≠ 101 then
    .error (bare a .http11 .internalServerError date)
  else
    let h := withConnection a head.headers
    match framingOf a status h with
    | none => .error []
    | some (framing, fields) =>
      let connection := h.values .connection
      let trailer := if a.version ≠ .http10 && hasBody a status then h.values .trailer else []
      let all := plainFields h ++ merged .connection connection ++ merged .trailer trailer ++
        fields ++ dated date h
      .ok {
        text := headText (firstLine a.version status) ⟨all⟩
        framing := if hasBody a status then framing else .length 0
        last := status.code == 101 || opensTunnel a status || !a.stays ||
          connection.any (hasWord closeWord) }

end AnswerHead

/-! ## Bodies -/

/-- A number in hexadecimal. -/
def hexText (n : Nat) : Bytes := bytes (String.ofList ((Nat.toDigits 16 n).map Char.toUpper))

/-- Write a chunk of a body, which is not empty: what goes out, and how the rest is framed. -/
def Framing.write (f : Framing) (chunk : Bytes) : Bytes × Framing :=
  match f with
  | .length left => (chunk.take left, .length (left - chunk.length))
  | .chunked => (hexText chunk.length ++ newLine ++ chunk ++ newLine, .chunked)
  | .untilClose => (chunk, .untilClose)

/-- Nothing more can be written. -/
def Framing.isOver : Framing → Bool
  | .length left => left == 0
  | .chunked | .untilClose => false

/-- Write the end of a body; `none` if bytes are missing. -/
def Framing.finish : Framing → Option Bytes
  | .length left => if left = 0 then some [] else none
  | .chunked => some (bytes "0" ++ newLine ++ newLine)
  | .untilClose => some []

end EdgeCache.Wire
