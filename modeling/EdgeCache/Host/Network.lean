import EdgeCache.Failure
import EdgeCache.Host.Disk
import EdgeCache.Net.Address
import EdgeCache.Origin.Proxy
import Std.Async.DNS
import Std.Async.TCP

/-!
# The network

Listening on an address, and asking another server.
-/

set_option autoImplicit false

namespace EdgeCache.Host

open Std.Async Std.Net

/-! ## Addresses -/

/-- An IP address for the sockets. -/
def toIPAddr : Net.Ip → IPAddr
  | .v4 [a, b, c, d] => .v4 (.ofParts a.toUInt8 b.toUInt8 c.toUInt8 d.toUInt8)
  | .v6 [a, b, c, d, e, f, g, h] =>
    .v6 (.ofParts a.toUInt16 b.toUInt16 c.toUInt16 d.toUInt16 e.toUInt16 f.toUInt16 g.toUInt16
      h.toUInt16)
  | _ => default

/-- A socket address for the sockets. -/
def toSocketAddress (ip : IPAddr) (port : Nat) : SocketAddress :=
  match ip with
  | .v4 addr => .v4 ⟨addr, port.toUInt16⟩
  | .v6 addr => .v6 ⟨addr, port.toUInt16⟩

/-- A socket address from the sockets. -/
def ofSocketAddress : SocketAddress → Net.Address
  | .v4 a => { ip := .v4 (a.addr.octets.toList.map UInt8.toNat), port := a.port.toNat }
  | .v6 a => { ip := .v6 (a.addr.segments.toList.map UInt16.toNat), port := a.port.toNat }

/-! ## Listening -/

/-- What kind of failure the sockets or the disk report. -/
def kindOf : IO.Error → IoKind
  | .alreadyExists .. | .resourceBusy .. => .addrInUse
  | .unsupportedOperation .. => .addrNotAvailable
  | .permissionDenied .. => .permissionDenied
  | .noFileOrDirectory .. => .notFound
  | _ => .other

/-- How many connections may wait to be taken. -/
def backlog : UInt32 := 1024

/-- Listen on an address. -/
def listen (a : Net.Address) : IO (Except IoKind TCP.Socket.Server) := do
  try
    let server ← TCP.Socket.Server.mk
    server.bind (toSocketAddress (toIPAddr a.ip) a.port)
    server.listen backlog
    return .ok server
  catch e => return .error (kindOf e)

/-! ## Asking -/

/-- How much is read at once. -/
def readSize : UInt64 := 65536

/-- The usual port. -/
def usualPort : Nat := 80

/-- The addresses that an authority stands for. -/
def resolve (authority : Bytes) : IO (List SocketAddress) := do
  let text := Proxy.hostPort authority
  let spelled := Net.Address.parse? text <|>
    Net.Address.parse? (text ++ bytes (":" ++ toString usualPort))
  match spelled with
  | some a => return [toSocketAddress (toIPAddr a.ip) a.port]
  | none =>
    let port := ((Proxy.unusualPort? authority).bind Bytes.toNat?).getD usualPort
    let found ← (DNS.getAddrInfo (Utf8.lossy (Proxy.hostName authority)) (toString port)).block
    return found.toList.map fun ip => toSocketAddress ip port

/-- Read until the end, or until what has come is whole. -/
partial def readReply (client : TCP.Socket.Client) (isWhole : Bytes → Bool) (got : Bytes) :
    IO Bytes := do
  if isWhole got then return got
  let more ← try (client.recv? readSize).block catch _ => pure none
  match more with
  | none => return got
  | some data => readReply client isWhole (got ++ ofByteArray data)

/-- What the server at an authority answers; `none` if it cannot be reached. -/
def ask (authority : Bytes) (isWhole : Bytes → Bool) (text : Bytes) : IO (Option Bytes) := do
  let addresses ← try resolve authority catch _ => pure []
  for address in addresses do
    let client ← TCP.Socket.Client.mk
    let reached ← try (client.connect address).block; pure true catch _ => pure false
    if reached then
      try (client.send (toByteArray text)).block catch _ => pure ()
      return some (← readReply client isWhole [])
  return none

/-- The answer of a proxy to a request, with the help of the network. -/
def askFor (p : Proxy) (r : Request) : IO (Script (Except OriginError Status)) := do
  let contact := match p.mapped r.uri with
    | .error _ => none
    | .ok target => (p.exchange (fun _ => some []) target r).1
  let isWhole (s : Bytes) : Bool := (Wire.Reply.ofBytes? r.method s).any (·.isWhole r.method)
  let reply ← match contact with
    | some c => ask p.host isWhole c.text
    | none => pure none
  return p.responder (fun _ => reply) r

end EdgeCache.Host
