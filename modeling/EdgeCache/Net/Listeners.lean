import EdgeCache.Failure
import EdgeCache.Net.Address

/-!
# Listening sockets

Which addresses can be listened on.  A listener may be willing to share its address; two listeners
get in each other's way when their ports are the same, their addresses overlap, and not both of them
share.  An address overlaps with itself and with the wildcards that include it, and the wildcard of
eight parts includes the addresses of four parts as well.
-/

set_option autoImplicit false

namespace EdgeCache.Net

namespace Ip

/-- The four-part wildcard. -/
def anyFour : Ip := .v4 [0, 0, 0, 0]

/-- The eight-part wildcard. -/
def anyEight : Ip := .v6 [0, 0, 0, 0, 0, 0, 0, 0]

/-- The four-part form of an address, where it has one. -/
def plain : Ip → Ip
  | .v6 [0, 0, 0, 0, 0, 0xFFFF, a, b] => .v4 [a / 256, a % 256, b / 256, b % 256]
  | ip => ip

/-- Everything that reaches the second address would reach the first one too. -/
def includes (a b : Ip) : Bool :=
  match a.plain, b.plain with
  | .v4 [0, 0, 0, 0], .v4 _ => true
  | .v6 [0, 0, 0, 0, 0, 0, 0, 0], _ => true
  | a, b => a = b

/-- Two addresses can be reached by the same connection. -/
def overlaps (a b : Ip) : Bool := a.includes b || b.includes a

/-- The address belongs to this machine: a wildcard, or one that leads back to the machine
itself. -/
def isLocal (ip : Ip) : Bool :=
  match ip.plain with
  | .v4 (first :: _) => first = 127 || ip.plain = anyFour
  | .v6 groups => groups = [0, 0, 0, 0, 0, 0, 0, 1] || ip = anyEight
  | .v4 [] => false

end Ip

/-- A socket that listens. -/
structure Listener where
  address : Address
  /-- Other listeners may have the same address, if they too are willing to. -/
  shares : Bool
deriving DecidableEq

namespace Listener

/-- Two listeners cannot be there at once. -/
def conflicts (a b : Listener) : Bool :=
  a.address.port = b.address.port && a.address.ip.overlaps b.address.ip && !(a.shares && b.shares)

end Listener

/-- The listeners of a machine. -/
abbrev Listeners := List Listener

namespace Listeners

/-- The first of the ports that are given out to those who do not ask for one. -/
def firstFreePort : Nat := 32768

/-- A port that no listener has. -/
def freePort (ls : Listeners) : Nat :=
  let taken := ls.map fun l => l.address.port
  ((List.range (taken.length + 1)).map (· + firstFreePort)).find? (fun p => !taken.contains p)
    |>.getD firstFreePort

/-- Listen on an address, where the port 0 stands for any port. -/
def listen (ls : Listeners) (address : Address) (shares : Bool) :
    Except IoKind (Listener × Listeners) :=
  if !address.ip.isLocal then .error .addrNotAvailable
  else
    let port := if address.port = 0 then freePort ls else address.port
    let l : Listener := ⟨{ address with port }, shares⟩
    if ls.any l.conflicts then .error .addrInUse else .ok (l, l :: ls)

end Listeners
end EdgeCache.Net
