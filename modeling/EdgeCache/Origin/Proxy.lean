import EdgeCache.Http.HopByHop
import EdgeCache.Net.Address
import EdgeCache.Origin.Script
import EdgeCache.Wire.Reply

/-!
# Forwarding to another server

A proxy stands for one server, given by a base URL.  A request is sent there with the path of the
base in front of its own path, and without the fields that concern only the client's connection; the
response comes back the same way.  What the server answers is a parameter (`Server`), so that
nothing here depends on a network.
-/

set_option autoImplicit false

namespace EdgeCache

/-- A proxy for the server at `http://host` below a base path. -/
structure Proxy where
  host : Bytes
  target : Target

/-- What a server answers to a request before it closes the connection; `none` if it cannot be
reached. -/
abbrev Server := Contact → Option Bytes

/-- Why no response head came back. -/
inductive ClientFault where
  | connect
  | sendRequest
  | unsupportedMethod
  | unsupportedVersion
deriving DecidableEq

def ClientFault.message : ClientFault → String
  | connect => "client error (Connect)"
  | sendRequest => "client error (SendRequest)"
  | unsupportedMethod => "client error (UserUnsupportedRequestMethod)"
  | unsupportedVersion => "client error (UserUnsupportedVersion)"

namespace Proxy

/-! ## The base URL -/

/-- The base URL. -/
def base (p : Proxy) : Uri := .absolute .http p.host p.target

/-- The proxy for a base URL, which has to be an absolute one with the scheme `http`. -/
def ofUrl (url : String) : Except OriginError Proxy :=
  let refuse (cause : String) : Except OriginError Proxy :=
    .error (.invalidUpstream ("'" ++ url ++ "': " ++ cause))
  match Uri.parse (bytes url) with
  | .error e => refuse e.message
  | .ok (.absolute .http host target) => .ok ⟨host, target⟩
  | .ok _ => refuse "expected http://host[:port]"

/-- The path of the base, which is put before the path of a request. -/
def stem (p : Proxy) : Bytes := Bytes.trimEndBy (· == 0x2F) p.base.path

/-- Where a request for a target is sent. -/
def mapped (p : Proxy) (u : Uri) : Except OriginError Uri :=
  let text := p.stem ++ u.pathAndQuery
  if maxUriLength < text.length then .error (.invalidUpstream UriError.tooLong.message)
  else
    match Target.parse text with
    | .ok target => .ok (.absolute .http p.host target)
    | .error e => .error (.invalidUpstream e.message)

/-! ## The request that is sent -/

/-- The part of an authority behind the user information. -/
def hostPort (authority : Bytes) : Bytes :=
  ((Bytes.splitOn 0x40 authority).getLast?).getD []

/-- The host of an authority, with the brackets of an eight-part address. -/
def hostName (authority : Bytes) : Bytes :=
  let s := hostPort authority
  if s.head? = some 0x5B then s.takeWhile (· != 0x5D) ++ [0x5D] else (Bytes.cut 0x3A s).1

/-- The port of an authority, unless it is the usual one. -/
def unusualPort? (authority : Bytes) : Option Bytes :=
  if !authority.contains 0x3A then none
  else
    let port := ((Bytes.splitOn 0x3A authority).getLast?).getD []
    let digits := if port.head? = some 0x2B then port.drop 1 else port
    match Bytes.toNat? digits with
    | some n => if n = 80 ∨ 65535 < n then none else some port
    | none => none

/-- The value of a `Host` field for an authority. -/
def hostField (authority : Bytes) : Bytes :=
  match unusualPort? authority with
  | some port => hostName authority ++ 0x3A :: port
  | none => hostName authority

/-- The target as it stands in the request line. -/
def sentTarget (method : Method) (u : Uri) : Bytes :=
  if method = .connect then u.authority?.getD []
  else u.path ++ (match u.query with | none => [] | some q => 0x3F :: q)

/-- The fields that are sent: a `Host` if there is none, and the length of a body that has no valid
one. -/
def sentHeaders (authority : Bytes) (h : Headers) (body : Bytes) : Headers :=
  let h := if h.contains .host then h else h.append .host (hostField authority)
  if body.isEmpty || (Wire.declaredLength? h).isSome then h
  else h.insert .contentLength (Bytes.ofNat body.length)

/-- The request that is sent for one that came in. -/
def contact (p : Proxy) (target : Uri) (r : Request) : Contact :=
  let headers := sentHeaders p.host (HopByHop.strip r.headers) r.body
  { line := r.method.text ++ 0x20 :: (sentTarget r.method target ++
      0x20 :: Wire.versionText r.version)
    headers
    body := r.body.take ((Wire.declaredLength? headers).getD 0) }

/-! ## The exchange with the server -/

/-- What is known after the exchange with the server: the request that reached it, if one did, and
its response. -/
def exchange (p : Proxy) (server : Server) (target : Uri) (r : Request) :
    Option Contact × Except ClientFault Wire.Reply :=
  let c := p.contact target r
  if r.version = .http09 ∨ r.version = .http3 then (none, .error .unsupportedVersion)
  else if r.version = .http10 ∧ r.method = .connect then (none, .error .unsupportedMethod)
  else
    match server c with
    | none => (none, .error .connect)
    | some reply =>
      if r.version = .http2 then (none, .error .unsupportedVersion)
      else if r.body.length < (Wire.declaredLength? c.headers).getD 0 ∧ !r.body.isEmpty then
        (none, .error .sendRequest)
      else
        match Wire.Reply.ofBytes? r.method reply with
        | none => (some c, .error .sendRequest)
        | some answer => (some c, .ok answer)

/-- Pass a response on. -/
def relay (reply : Wire.Reply) : Script (Except OriginError Status) :=
  .edit (fun h => h.appendAll (HopByHop.strip reply.head.headers)) <|
  .commit reply.head.status <|
  Script.writeAll (if reply.body.broken then .error (.body "error reading a body from connection")
    else .ok reply.head.status) reply.body.pieces

/-- Answer in the place of a server that gave no usable answer. -/
def giveUp (p : Proxy) (isHead : Bool) (fault : ClientFault) : Script (Except OriginError Status) :=
  .emit (.log (.error ("Upstream " ++ Utf8.lossy p.base.text ++ " unreachable: " ++
    fault.message))) <|
  Script.answerPlain .badGateway isHead (.error (.request fault.message))

/-- Answer requests with the server's help. -/
def responder (p : Proxy) (server : Server) : Responder := fun r =>
  match p.mapped r.uri with
  | .error e => .done (.error e)
  | .ok target =>
    let (contact, outcome) := p.exchange server target r
    let answer := match outcome with
      | .ok reply => relay reply
      | .error fault => p.giveUp r.isHead fault
    match contact with
    | some c => .emit (.contacted c) answer
    | none => answer

end Proxy
end EdgeCache
