import EdgeCache.Exchange.World
import EdgeCache.Log.Journal
import EdgeCache.Log.Message
import EdgeCache.Serving.Connection
import EdgeCache.Serving.Lobby

/-!
# Serving connections

A service is a world of exchanges together with the connections that bring the requests and take the
responses.  A connection answers one request at a time: it waits for a complete request, lets an
exchange work on it, and writes the response as it is produced.  A connection whose response is
complete waits for the next request, unless one of the two sides wants it closed.  A connection does
not last longer than a time limit, whatever goes on on it.
-/

set_option autoImplicit false

namespace EdgeCache.Serving

/-- The terms on which connections are served. -/
structure Terms where
  front : Front
  /-- How many connections may be open at once. -/
  limit : Option Nat := none
  /-- How many seconds a connection may last. -/
  patience : Nat := 30
  /-- Connections stay open between requests. -/
  stays : Bool := true
  /-- Requests are logged. -/
  logsAccess : Bool := true
  /-- Local time, in minutes east of Greenwich. -/
  offset : Int := 0

/-- The terms that the settings ask for. -/
def Terms.ofSettings (s : Settings) (front : Front) : Terms :=
  { front := { front with
      debug := Log.Journal.asksForDebug s.logging.level, accessFormat := s.logging.accessLogFormat }
    limit := s.performance.maxConnections
    patience := max s.performance.readTimeout s.performance.writeTimeout
    stays := 0 < s.performance.keepAliveTimeout
    logsAccess := s.logging.accessLog }

/-- The connections of a server, and the exchanges on them. -/
structure Service where
  world : World := {}
  lobby : Lobby := {}
  connections : List Connection := []
  /-- The clock of the time limits, in seconds. -/
  clock : Nat := 0

namespace Service

/-- Log lines. -/
def note (s : Service) (t : Terms) (lines : List Log.Line) : Service :=
  { s with world := s.world.note t.front lines }

/-- Change one connection. -/
def put (s : Service) (k : Nat) (c : Connection) : Service :=
  { s with connections := s.connections.set k c }

/-! ## Coming and going -/

/-- Take a connection in without counting it; its requests may count as having come in another
version. -/
def attend (s : Service) (peer : Net.Address) (regarded : Option Version) : Service :=
  { s with connections := s.connections ++ [{ peer, regarded }] }

/-- A connection takes a step on its way in: it is counted, or it is let in or turned away; `none`
if it is not on its way. -/
def enter (s : Service) (t : Terms) (i : Nat) (peer : Net.Address) : Option Service :=
  (s.lobby.step i).map fun (lobby : Lobby) =>
    match lobby.visitors[i]? with
    | some .inside =>
      let c : Connection := { peer, place := some i, deadline := some (s.clock + t.patience) }
      ({ s with lobby, connections := s.connections ++ [c] } : Service).note t
        [Log.connectionAccepted peer.text]
    | some (.refused before) =>
      ({ s with lobby, connections := s.connections ++ [{ peer, closed := true }] } : Service).note
        t [Log.connectionRejected before.toNat (t.limit.getD 0)]
    | _ => { s with lobby }

/-- Take a connection in, or turn it away, while no other is on its way in. -/
def accept (s : Service) (t : Terms) (peer : Net.Address) : Service :=
  let i := s.lobby.visitors.length
  let s : Service := { s with lobby := s.lobby.arrive }
  let s := (s.enter t i peer).getD s
  (s.enter t i peer).getD s

/-- Close a connection: its exchange loses its client, and it no longer counts. -/
def close (s : Service) (k : Nat) (c : Connection) : Service :=
  let world := match c.turn with
    | some turn => s.world.abandon turn.exchange
    | none => s.world
  let lobby := (c.place.bind s.lobby.leave).getD s.lobby
  ({ s with world, lobby } : Service).put k c.close

/-- A connection breaks down. -/
def fail (s : Service) (t : Terms) (k : Nat) (c : Connection) (cause : Breakdown) : Service :=
  (s.close k c).note t [Log.connectionFailed cause.text]

/-- The response of a connection is complete. -/
def conclude (s : Service) (k : Nat) (c : Connection) (last : Bool) : Service :=
  if last then s.close k (c.flush) else s.put k (c.conclude false)

/-! ## Requests -/

/-- The access log entry of a request. -/
def accessOf (t : Terms) (clock : Instant) (peer : Net.Address) (r : Request) : Log.Access :=
  let field (name : HeaderName) := (r.headers.text? name).map Utf8.lossy
  { remoteAddr := peer.ip.text, time := { instant := clock, offset := t.offset }
    method := Utf8.lossy r.method.text, path := Utf8.lossy r.uri.path
    query := r.uri.query.map Utf8.lossy, httpVersion := r.version.label
    referer := field .referer, userAgent := field .userAgent }

/-- Begin to answer a request. -/
def begin (s : Service) (t : Terms) (k : Nat) (c : Connection) (head : Wire.RequestHead)
    (body : Bytes) (whole : Bool) (rest : Bytes) : Service :=
  let request : Request :=
    { method := head.method, uri := head.uri, version := c.regarded.getD head.version
      headers := head.headers, body }
  let access := if t.logsAccess then some (accessOf t s.world.clock c.peer request) else none
  let turn : Turn :=
    { exchange := s.world.exchanges.length
      asker := ⟨head.method, head.version, head.stays && t.stays && whole⟩ }
  let world := s.world.arrive request (Client.ofChannel t.front.settings.bodyBuffer) access
  ({ s with world } : Service).put k { c with received := rest, turn := some turn }

/-- Act on what has come in; `none` if there is nothing to act on. -/
def listen (s : Service) (t : Terms) (k : Nat) (c : Connection) : Option Service :=
  match Incoming.ofBytes c.received c.ended with
  | .waiting => none
  | .nothingLeft => some (s.close k c)
  | .request head body whole rest =>
    if whole && c.ended && rest.isEmpty then some (s.fail t k c .cutOff)
    else some (s.begin t k c head body whole rest)
  | .breakdown (.refused fault) =>
    let asker : Wire.Asker := ⟨.get, .http11, t.stays⟩
    let answer := Wire.AnswerHead.bare asker .http11 fault.status (LocalTime.stamp s.world.clock)
    some (s.fail t k (c.gather answer).flush (.refused fault))
  | .breakdown cause => some (s.fail t k c cause)

/-! ## Responses -/

/-- Write what there is of a response's body; `fuel` bounds the number of chunks. -/
def pour (t : Terms) (k : Nat) : (fuel : Nat) → Service → Connection → Turn → Service
  | 0, s, c, _ => s.put k c.flush
  | fuel + 1, s, c, turn =>
    let c := if c.isFull then c.flush else c
    let c := { c with turn := some turn }
    if turn.framing.isOver then
      ({ s with world := s.world.abandon turn.exchange } : Service).conclude k c turn.last
    else
      match s.world.take turn.exchange turn.reception with
      | (.chunk data, reception, world) =>
        let s := { s with world }
        if data.isEmpty then pour t k fuel s c { turn with reception }
        else
          let (piece, framing) := turn.framing.write data
          pour t k fuel s (c.gather piece) { turn with reception, framing }
      | (.finish, _, _) =>
        match turn.framing.finish with
        | none => s.fail t k c .shortBody
        | some piece =>
          s.conclude k (c.gather piece) (turn.last || turn.framing == .untilClose)
      | (.pending, _, _) | (.gone, _, _) => s.put k c.flush

/-- How many chunks of a response could be taken at once. -/
def available (x : Exchange) : Reception → Nat
  | .canned rest => rest.length
  | _ =>
    match x.client.link with
    | .channel ch => ch.queue.length
    | .tape _ => 0

/-- There is more to be written of a response whose head is out. -/
def hasMore (x : Exchange) (r : Reception) : Bool := 0 < available x r || x.client.released

/-- Go on with a response; `none` if there is nothing to go on with. -/
def answer (s : Service) (t : Terms) (k : Nat) (c : Connection) (turn : Turn) : Option Service :=
  match s.world.exchanges[turn.exchange]? with
  | none => none
  | some x =>
    match turn.reception with
    | .waiting =>
      match turn.reception.head? x.client with
      | none => none
      | some (head, reception) =>
        match Wire.AnswerHead.ofHead turn.asker head (LocalTime.stamp s.world.clock) with
        | .error instead => some (s.fail t k (c.gather instead).flush .badHead)
        | .ok out =>
          let turn := { turn with reception, framing := out.framing, last := out.last }
          -- The head is not one of the pieces that are counted.
          let c := { c with gathered := [out.text] }
          some (pour t k (available x reception + 2) s c turn)
    | reception =>
      if hasMore x reception then some (pour t k (available x reception + 2) s c turn) else none

/-- One turn of a connection; `none` if it has nothing to do. -/
def step (t : Terms) (s : Service) (k : Nat) : Option Service :=
  match s.connections[k]? with
  | none => none
  | some c =>
    if c.closed then none
    else
      match c.turn with
      | none => s.listen t k c
      | some turn => s.answer t k c turn

/-! ## What comes from outside -/

/-- Bytes come in on a connection. -/
def bring (s : Service) (k : Nat) (data : Bytes) : Service :=
  { s with
    connections := s.connections.modify k fun c => { c with received := c.received ++ data } }

/-- The other side of a connection sends nothing more.  In the middle of a request's answer, with no
further request at hand, that is a breakdown. -/
def hangUp (t : Terms) (s : Service) (k : Nat) : Service :=
  match s.connections[k]? with
  | none => s
  | some c =>
    if c.closed || c.ended then s
    else if c.turn.isSome && c.received.isEmpty then s.fail t k c .cutOff
    else s.put k { c with ended := true }

/-- Collect what a connection has sent. -/
def collect (s : Service) (k : Nat) : Bytes × Service :=
  match s.connections[k]? with
  | none => ([], s)
  | some c => (c.sent, s.put k { c with sent := [] })

/-- Time passes on the clock of the time limits. -/
def tick (s : Service) (seconds : Nat) : Service := { s with clock := s.clock + seconds }

/-! ## Running -/

/-- One turn of every connection; the second part tells whether any had something to do. -/
def round (t : Terms) (s : Service) : Service × Bool :=
  (List.range s.connections.length).foldl (fun (s, moved) k =>
    match s.step t k with
    | some s' => (s', true)
    | none => (s, moved)) (s, false)

/-- A connection runs into its time limit; `none` if there is time left. -/
def expire (t : Terms) (s : Service) (k : Nat) : Option Service :=
  match s.connections[k]? with
  | none => none
  | some c =>
    if !c.closed && c.deadline.any (· ≤ s.clock) then
      some ((s.close k c).note t [Log.connectionTimedOut c.peer.text t.patience])
    else none

/-- Let exchanges and connections go on in turn until all of them wait for something from outside,
and close the connections whose time is up; with at most `fuel` changes. -/
def run (t : Terms) : (fuel : Nat) → Service → Service
  | 0, s => s
  | fuel + 1, s =>
    match ({ s with world := s.world.settled t.front } : Service).round t with
    | (s, true) => run t fuel s
    | (s, false) =>
      match (List.range s.connections.length).findSome? (expire t s) with
      | some s => run t fuel s
      | none => s

/-- Run until nothing moves. -/
def settled (t : Terms) (s : Service) : Service := s.run t plenty

end Service
end EdgeCache.Serving
