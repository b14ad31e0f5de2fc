import EdgeCache.Host.Disk
import EdgeCache.Host.Network
import EdgeCache.Serving.Loop
import EdgeCache.Serving.Start
import Std.Async.Signal
import Std.Async.Timer
import Std.Sync.Channel
import Std.Time

/-!
# The program

Started with the name of a configuration, the program serves until it is told to stop.  Whatever
comes from outside is a `Notice`; notices are acted on one after another, each by letting the
server's loop and its service go on as far as they can and then sending and logging what has come of
it.
-/

set_option autoImplicit false

namespace EdgeCache.Host

open Std.Async

/-- What comes from outside. -/
inductive Notice where
  | accepted (client : TCP.Socket.Client)
  | failed (cause : String)
  /-- Bytes from the client of a number. -/
  | received (client : Nat) (data : Bytes)
  /-- The client of a number sends nothing more. -/
  | ended (client : Nat)
  /-- Time has passed. -/
  | passed
  | signal (name : String)
deriving Inhabited

/-- A server at work. -/
structure Work where
  running : Serving.Running
  cwd : Files.Place
  journal : Log.Journal
  loop : Serving.Loop
  /-- The clients of the connections, by a number of their own, until they are closed. -/
  clients : List (Nat × Option TCP.Socket.Client) := []
  /-- The number for the next client. -/
  next : Nat := 0
  /-- The reading of the clock at the start, in milliseconds. -/
  began : Nat

namespace Work

/-! ## The origin -/

/-- What the origin does for a request. -/
def answer (w : Work) (r : Request) : IO (Script (Except OriginError Status)) := do
  match w.running.source with
  | .site s => return s.responder (← drawSite w.cwd s r.uri.path) w.cwd r
  | .proxy p => askFor p r

/-- An origin of which nothing is known yet. -/
def waiting : Script (Except OriginError Status) := .await "" none (.done (.ok .ok))

/-- What origins do, by the numbers of their exchanges. -/
abbrev Answers := List (Nat × Script (Except OriginError Status))

/-- The terms of service, as far as answers are known. -/
def terms (w : Work) (offset : Int) (answers : Answers) : Serving.Terms :=
  let front := w.running.front fun i _ => (answers.lookup i).getD waiting
  { Serving.Terms.ofSettings w.running.settings front with offset }

/-- The exchanges that have asked an origin since. -/
def asked (before after : Serving.Service) : List (Nat × Request) :=
  after.world.exchanges.zipIdx.filterMap fun (x, i) =>
    if x.hasAsked && !(before.world.exchanges[i]?).any Exchange.hasAsked then some (i, x.request)
    else none

/-- Let everything go on as far as it can.  What an origin does is found out once it has been asked,
and then everything goes on again from the beginning. -/
partial def settled (w : Work) (offset : Int) (answers : Answers) (s : Serving.Service) :
    IO Serving.Service := do
  let after := s.settled (w.terms offset answers)
  let unanswered := (asked s after).filter fun (i, _) => (answers.lookup i).isNone
  if unanswered.isEmpty then return after
  let more ← unanswered.mapM fun (i, r) => return (i, ← w.answer r)
  w.settled offset (more ++ answers) s

/-! ## Acting -/

/-- Forget what is over, when nothing is under way. -/
def tidied (w : Work) : Work :=
  let s := w.loop.service
  if s.connections.all (·.turn.isNone) && s.world.exchanges.all Exchange.isOver then
    let left := (s.connections.zip w.clients).filter fun (c, _) => !c.closed
    let world := { s.world with
      exchanges := [], contacts := [], store := { s.world.store with visits := [] } }
    { w with
      clients := left.map (·.2)
      loop := { w.loop with service := { s with world, connections := left.map (·.1) } } }
  else w

/-- Send and log what there is to be sent and logged. -/
def deliver (w : Work) : IO Work := do
  let mut s := w.loop.service
  let mut clients : List (Nat × Option TCP.Socket.Client) := []
  for ((number, client?), k) in w.clients.zipIdx do
    let (sent, after) := s.collect k
    s := after
    let closed := (s.connections[k]?).any (·.closed)
    if let some client := client? then
      unless sent.isEmpty do discard (Async.toIO (client.send (toByteArray sent)))
      if closed then discard (Async.toIO client.shutdown)
    clients := clients ++ [(number, if closed then none else client?)]
  let journal ← publish w.journal (w.journal.writeAll s.world.log)
  let service := { s with world := { s.world with log := [] } }
  return { w with journal, clients, loop := { w.loop with service } }.tidied

/-- The time of day, and local time in minutes east of Greenwich. -/
def now : IO (Instant × Int) := do
  let stamp ← Std.Time.Timestamp.now
  let nanos := stamp.toNanosecondsSinceUnixEpoch.val
  let offset ← try
      let rules ← Std.Time.Database.defaultGetLocalZoneRules
      pure ((rules.timezoneAt stamp).offset.second.val / 60)
    catch _ => pure 0
  return (⟨nanos / 1000000000, (nanos % 1000000000).toNat⟩, offset)

/-- Act on a change of the loop. -/
def act (w : Work) (change : Serving.Terms → Serving.Loop → Serving.Loop) : IO Work := do
  let (time, offset) ← now
  let t := w.terms offset []
  let world := w.loop.service.world
  let world := (world.happen t.front (.tick time)).getD world
  let loop := change t { w.loop with service := { w.loop.service with world } }
  let seconds := ((← IO.monoMsNow) - w.began) / 1000
  let service := loop.service.tick (seconds - loop.service.clock)
  deliver { w with loop := { loop with service := ← w.settled offset [] service } }

/-- Act on a change of the connection of a client. -/
def actFor (w : Work) (client : Nat)
    (change : Serving.Terms → Serving.Service → Nat → Serving.Service) : IO Work :=
  match w.clients.findIdx? (·.1 == client) with
  | none => return w
  | some k => w.act fun t l => { l with service := change t l.service k }

/-! ## Notices -/

/-- Bring what a client sends to the attention of the server. -/
partial def attend (inbox : Std.Channel Notice) (number : Nat) (client : TCP.Socket.Client) :
    Async Unit := do
  let data? ← try client.recv? readSize catch _ => pure none
  match data? with
  | some data =>
    discard (inbox.send (.received number (ofByteArray data)))
    attend inbox number client
  | none => discard (inbox.send (.ended number))

/-- Bring new connections to the attention of the server. -/
partial def receive (inbox : Std.Channel Notice) (server : TCP.Socket.Server) : Async Unit := do
  let notice ←
    try pure (Notice.accepted (← server.accept)) catch e => pure (Notice.failed (toString e))
  discard (inbox.send notice)
  receive inbox server

/-- Let the server know that time passes. -/
partial def watch (inbox : Std.Channel Notice) : Async Unit := do
  sleep 1000
  discard (inbox.send .passed)
  watch inbox

/-- Let the server know of a signal. -/
def expect (inbox : Std.Channel Notice) (signal : Signal) (name : String) : IO Unit := do
  let waiter ← Signal.Waiter.mk signal false
  let came ← waiter.wait
  discard (AsyncTask.mapIO (fun _ => discard (inbox.send (.signal name))) came)

/-- Act on notices until a signal comes. -/
partial def serve (inbox : Std.Channel Notice) (w : Work) : IO Unit := do
  match ← IO.wait (← inbox.recv) with
  | .signal name =>
    discard (publish w.journal (w.journal.writeAll (Serving.stopping name)))
  | .accepted client =>
    let peer ← try pure (ofSocketAddress (← client.getPeerName)) catch _ => pure .loopback
    discard (Async.toIO (attend inbox w.next client))
    let w := { w with clients := w.clients ++ [(w.next, some client)], next := w.next + 1 }
    serve inbox (← w.act fun t l => l.heed t (.connection peer))
  | .failed cause => serve inbox (← w.act fun t l => l.heed t (.failure cause))
  | .received client data => serve inbox (← w.actFor client fun _ s k => s.bring k data)
  | .ended client => serve inbox (← w.actFor client fun t s k => s.hangUp t k)
  | .passed => serve inbox (← w.act fun _ l => l)

end Work

/-! ## Starting -/

/-- Listen on the address that the settings ask for, if they ask for one. -/
def listenFor (s : Except Settings.LoadError Settings) : IO (Except IoKind TCP.Socket.Server) := do
  match s with
  | .error _ => return .error .other
  | .ok s =>
    match Net.Address.ofHost? s.server.host s.server.port with
    | none => return .error .other
    | some address => listen address

/-- Start the server and let it serve; the exit code. -/
def run (args : List String) : IO UInt32 := do
  let env ← environment
  let cwd := placeOf (← IO.currentDir).toString
  let name := args.headD Serving.defaultName
  let tree ← drawSettings cwd name
  let settings := Settings.load tree cwd env name
  let tree ← match settings with
    | .ok s => drawLogs cwd tree s.logging
    | .error _ => pure tree
  let socket ← listenFor settings
  let before : Log.Journal := { tree, cwd }
  match Serving.start before env args fun _ => socket.map fun _ => () with
  | (journal, .error e) =>
    discard (publish before (e.reportTo journal))
    return e.exitCode.toUInt32
  | (journal, .ok running) =>
    let opened ← try pure (Except.ok (← publish before journal))
      catch e => pure (Except.error (Serving.StartError.logs (.ofKind (kindOf e))))
    match opened, socket with
    | .ok journal, .ok server =>
      let inbox ← Std.Channel.new
      Work.expect inbox .sigterm "SIGTERM"
      Work.expect inbox .sigint "SIGINT"
      discard (Async.toIO (Work.receive inbox server))
      discard (Async.toIO (Work.watch inbox))
      let lobby := { limit := running.settings.performance.maxConnections }
      Work.serve inbox { running, cwd, journal, loop := { service := { lobby } }
                         began := ← IO.monoMsNow }
      return 0
    | .error e, _ =>
      discard (publish {} (e.reportTo {}))
      return e.exitCode.toUInt32
    | _, _ => return 1

end EdgeCache.Host

/-- The program. -/
def main (args : List String) : IO UInt32 := EdgeCache.Host.run args
