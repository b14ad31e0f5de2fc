import EdgeCache.Exchange.Front
import EdgeCache.Schedule
import EdgeCache.Variant.Key
import EdgeCache.Log.Access

/-!
# Exchanges

An exchange is the work on one request.  It is done by up to three tasks, which take turns with each
other and with those of all other exchanges, one small step at a time:

* the **front** decides how to answer, visits the store, and replays a stored response itself;
* on a miss, the **origin** writes its response through a tee;
* after that a **copier** takes the chunks out of the tee's buffer, to store or to discard them.

A `World` holds everything they share: the clock, the store and the growing bodies in it, gates, and
the log.  `World.step` makes one step of one task, and is all there is to how exchanges run;
`World.happen` adds what comes from outside.
-/

set_option autoImplicit false

namespace EdgeCache

/-! ## Copying a body -/

/-- What a copier is about to do. -/
inductive Copying where
  | taking
  | writing (chunk : Bytes)
  | closing
  | stopped
deriving DecidableEq

/-- The task that empties the tee's buffer. -/
inductive Copier where
  /-- Discard the chunks. -/
  | drain (stopped : Bool)
  /-- Store the chunks in a growing body. -/
  | pump (sink body : Nat) (failed : Bool) (writes stored : Nat) (doing : Copying)

/-- The copier has nothing more to do. -/
def Copier.isOver : Copier → Bool
  | drain stopped => stopped
  | pump _ _ _ _ _ doing => doing == .stopped

/-! ## Exchanges -/

/-- What the front of an exchange is about to do. -/
inductive Stage where
  | arrived
  /-- The origin answers, and the cache is left alone. -/
  | forwarding (script : Script Handled)
  /-- The store is visited. -/
  | visiting (visit : Nat)
  /-- A stored body is read. -/
  | replaying (visit : Nat) (body : StoredBody) (reader : Reader)
  /-- A chunk of it is written to the client. -/
  | relaying (visit : Nat) (body : StoredBody) (reader : Reader) (chunk : Bytes)
  /-- The head of the origin's response is awaited. -/
  | fetching (visit : Nat) (draft : Entry)
  /-- The origin is awaited. -/
  | joining (result : VisitResult)
  /-- The copier is awaited. -/
  | closing (result : VisitResult)
  /-- The outcome is known. -/
  | reporting (outcome : Handled)
  | finished (outcome : Handled)
  /-- The task has died. -/
  | died

/-- The work on one request. -/
structure Exchange where
  request : Request
  /-- The client, until it is handed to the origin's tee. -/
  own : Client
  stage : Stage := .arrived
  /-- The status to be reported. -/
  status : Status := .internalServerError
  cache : CacheStatus := .miss
  fetch : Option Fetch := none
  copier : Option Copier := none
  /-- The tasks in the background are awaited before the end. -/
  joins : Bool := false
  /-- The access log entry to be completed and written. -/
  access : Option Log.Access := none

namespace Exchange

/-- The client of the exchange. -/
def client (x : Exchange) : Client :=
  match x.fetch with
  | some f => f.tee.client
  | none => x.own

/-- Change the client of the exchange. -/
def setClient (x : Exchange) (c : Client) : Exchange :=
  match x.fetch with
  | some f => { x with fetch := some { f with tee := { f.tee with client := c } } }
  | none => { x with own := c }

/-- The key that the exchange visits. -/
def key (x : Exchange) : Bytes := x.request.cacheKey

/-- The key as log lines show it. -/
def keyText (x : Exchange) : String := Utf8.lossy x.key

/-- The outcome, once it is reported. -/
def outcome? (x : Exchange) : Option Handled :=
  match x.stage with
  | .finished h => some h
  | _ => none

/-- The front has died. -/
def isDead (x : Exchange) : Bool :=
  match x.stage with
  | .died => true
  | _ => false

/-- The origin has been asked. -/
def hasAsked (x : Exchange) : Bool := x.fetch.isSome || x.cache = .skip

/-- No task of the exchange has anything more to do. -/
def isOver (x : Exchange) : Bool :=
  (x.outcome?.isSome || x.isDead) && x.fetch.all (·.ending.isSome) && x.copier.all Copier.isOver

/-- The access log entry with what is known at the end. -/
def completeAccess (x : Exchange) (now : Instant) (outcome : Handled) (entry : Log.Access) :
    Log.Access :=
  { entry with status := outcome.status.code, bodyBytes := x.client.bytesSent,
               requestTime := entry.time.instant.microsUntil now,
               cacheStatus := some outcome.cache.text }

end Exchange

/-! ## The world -/

/-- Everything that the exchanges share. -/
structure World where
  clock : Instant := default
  store : Store := {}
  bodies : List Growing := []
  exchanges : List Exchange := []
  gates : Gates := []
  log : List Log.Line := []
  /-- How often the origin has been asked. -/
  calls : Nat := 0
  /-- How many sinks have been opened, failed attempts included. -/
  sinks : Nat := 0
  /-- Requests that reached a server behind this one. -/
  contacts : List Contact := []

/-- The tasks of an exchange. -/
inductive Actor where
  | front
  | origin
  | copier
deriving DecidableEq

namespace World

/-- Change one exchange. -/
def put (w : World) (i : Nat) (x : Exchange) : World :=
  { w with exchanges := w.exchanges.set i x }

/-- Log lines. -/
def note (w : World) (front : Front) (lines : List Log.Line) : World :=
  { w with log := Log.extend front.debug w.log lines }

/-- Take account of what an origin does beside writing. -/
def absorb (w : World) (front : Front) : Option Event → World
  | none => w
  | some (.log line) => w.note front [line]
  | some (.contacted contact) => { w with contacts := w.contacts ++ [contact] }

/-- The producer of a visit has decided: the exchange goes back to its visit. -/
def conclude (w : World) (i : Nat) (x : Exchange) (visit : Nat) (outcome : Outcome) : World :=
  let store := (w.store.finish visit outcome).getD w.store
  { w with store }.put i { x with stage := .visiting visit }

/-- The task of the front dies, and with it its client and its visit. -/
def die (w : World) (i : Nat) (x : Exchange) (visit : Option Nat) : World :=
  let store := match visit with | some v => w.store.lose v | none => w.store
  { w with store }.put i { x with stage := .died, own := x.own.release }

/-! ### The front -/

/-- A new request: past the cache, or to the store. -/
def enter (w : World) (front : Front) (i : Nat) (x : Exchange) : World :=
  if front.eligible x.request then
    let (store, visit) := w.store.begin x.key fun e => e.answers x.request.headers
    { w with store }.put i { x with stage := .visiting visit }
  else
    let script := Front.forward x.request.isHead (front.respond i x.request)
    { w with calls := w.calls + 1 }.put i
      { x with own := x.own.edit (front.mark .skip), cache := .skip, stage := .forwarding script }

/-- Replay an entry: its head is committed, its body read from the start. -/
def replay (w : World) (front : Front) (i : Nat) (x : Exchange) (visit : Nat) (e : Entry) : World :=
  let client :=
    (x.own.edit fun h => (front.mark .hit h).appendAll e.head.headers).commit e.head.status
  let x := { x with own := client, cache := .hit, status := e.head.status }
  match e.body with
  | none => w.conclude i { x with own := client.release } visit .keep
  | some body => w.put i { x with stage := .replaying visit body {} }

/-- Ask the origin. -/
def ask (w : World) (front : Front) (i : Nat) (x : Exchange) (visit : Nat) : World :=
  let client := x.own.edit (front.mark .miss)
  match w.clock.add? front.settings.defaultWindow with
  | none => w.die i { x with own := client } (some visit)
  | some expiration =>
    let draft := Entry.speculative x.request.headers expiration
    let fetch := Fetch.start client front.settings.bodyBuffer x.request.isHead
      (front.respond i x.request)
    { w with calls := w.calls + 1 }.put i
      { x with own := client, fetch := some fetch, stage := .fetching visit draft }

/-- The head of the origin's response is known: keep the response if it may be kept. -/
def decide (w : World) (front : Front) (i : Nat) (x : Exchange) (f : Fetch) (visit : Nat)
    (draft : Entry) (head : Head) : World :=
  let unwatched := { x with fetch := some f.unwatch }
  match front.policy x.request head w.clock with
  | .error text => w.conclude i unwatched visit (.fail (.policy text))
  | .ok verdict =>
    let kept : Head := ⟨head.status, front.unmark head.headers⟩
    if !verdict.cacheable then
      let line := Log.Line.debug ("[Cache] " ++ x.keyText ++ " not cacheable (" ++
        head.status.describe ++ "), discarding body")
      (w.note front [line]).conclude i
        { x with copier := some (.drain false), joins := true, status := head.status }
        visit (.replace { draft with head := kept })
    else
      match front.faults.opening w.sinks with
      | some text =>
        { w with sinks := w.sinks + 1 }.conclude i unwatched visit (.fail (.storage text))
      | none =>
        let id := w.bodies.length
        let entry : Entry := { draft with
          isPublic := true, expiration := verdict.expiresAt, head := kept,
          body := some (.growing id) }
        ({ w with sinks := w.sinks + 1, bodies := w.bodies ++ [Growing.empty] }.note front
            [.debug ("[Cache] Opened body sink for " ++ x.keyText)]).conclude i
          { x with copier := some (.pump w.sinks id false 0 0 .taking), joins := true,
                   status := head.status }
          visit (.replace entry)

/-- One step of the front of an exchange. -/
def frontStep (front : Front) (w : World) (i : Nat) : Option World :=
  match w.exchanges[i]? with
  | none => none
  | some x =>
    match x.stage with
    | .arrived => some (w.enter front i x)
    | .forwarding script =>
      match script with
      | .done outcome => some (w.put i { x with own := x.own.release, stage := .reporting outcome })
      | .die _ => some (w.die i x none)
      | script =>
        match script.step Client.writer w.gates x.own with
        | none => none
        | some m =>
          some (({ w with gates := m.gates }.put i
            { x with own := m.writer, stage := .forwarding m.script }).absorb front m.event)
    | .visiting visit =>
      match w.store.handed visit with
      | some (some held) =>
        if held.entry.isPublic then some (w.replay front i x visit held.entry)
        else some (w.ask front i x visit)
      | some none => some (w.ask front i x visit)
      | none =>
        match w.store.result visit with
        | some result =>
          some ((w.note front [.debug ("[Cache] " ++ x.cache.text ++ " " ++ x.keyText)]).put i
            { x with stage := .joining result })
        | none => (w.store.step w.clock visit).map fun store => { w with store }
    | .replaying visit body reader =>
      match reader.read w.bodies body with
      | .pending => none
      | .turning r => some (w.put i { x with stage := .replaying visit body r })
      | .chunk data r => some (w.put i { x with stage := .relaying visit body r data })
      | .finish => some (w.conclude i { x with own := x.own.release } visit .keep)
      | .failure text =>
        some ((w.note front [.warning ("[Cache] Failed to read stored body: " ++
          (CacheError.storage text).message)]).conclude i
            { x with own := x.own.release } visit .keep)
    | .relaying visit body reader chunk =>
      match x.own.write chunk with
      | .blocked => none
      | .partly c => some (w.put i { x with own := c })
      | .finished c none =>
        some (w.put i { x with own := c, stage := .replaying visit body reader })
      | .finished c (some _) => some (w.conclude i { x with own := c.release } visit .keep)
    | .fetching visit draft =>
      match x.fetch with
      | none => none
      | some f =>
        match f.headEvent with
        | .pending => none
        | .committed head => some (w.decide front i x f visit draft head)
        | .lost =>
          some (w.conclude i { x with fetch := some f.unwatch } visit (.fail .headersUnavailable))
    | .joining result =>
      if !x.joins then some (w.put i { x with stage := .closing result })
      else
        match x.fetch with
        | none => none
        | some f =>
          if f.ending.isSome then
            some ((w.note front f.report).put i { x with stage := .closing result })
          else none
    | .closing result =>
      if x.joins && !((x.copier.map Copier.isOver).getD true) then none
      else
        let error := match result with | .ok _ => none | .error e => some e
        let lines := match error with
          | some e => [Log.Line.warning ("[Cache] " ++ x.keyText ++ ": " ++ e.message)]
          | none => []
        some ((w.note front lines).put i { x with stage := .reporting ⟨x.status, x.cache, error⟩ })
    | .reporting outcome =>
      let lines := match x.access with
        | some entry =>
          [⟨Log.Level.access, (x.completeAccess w.clock outcome entry).format front.accessFormat⟩]
        | none => []
      some ((w.note front lines).put i { x with stage := .finished outcome })
    | .finished _ | .died => none

/-! ### The origin -/

/-- One step of the origin of an exchange. -/
def originStep (front : Front) (w : World) (i : Nat) : Option World :=
  match w.exchanges[i]? with
  | none => none
  | some x =>
    match x.fetch with
    | none => none
    | some f =>
      match f.step w.gates with
      | none => none
      | some (f', gates, event) =>
        some (({ w with gates }.put i { x with fetch := some f' }).absorb front event)

/-! ### The copier -/

/-- Change one growing body. -/
def modifyBody (w : World) (id : Nat) (change : Growing → Growing) : World :=
  { w with bodies := w.bodies.modify id change }

/-- One step of the copier of an exchange. -/
def copierStep (front : Front) (w : World) (i : Nat) : Option World :=
  match w.exchanges[i]? with
  | none => none
  | some x =>
    match x.copier, x.fetch with
    | some (.drain false), some f =>
      match f.receive with
      | (.chunk _, f') => some (w.put i { x with fetch := some f' })
      | (.pending, _) => none
      | (_, _) => some (w.put i { x with copier := some (.drain true) })
    | some (.pump sink body failed writes stored .taking), some f =>
      match f.receive with
      | (.chunk data, f') =>
        let doing := if failed then Copying.taking else .writing data
        some (w.put i
          { x with fetch := some f', copier := some (.pump sink body failed writes stored doing) })
      | (.pending, _) => none
      | (_, _) =>
        some (w.put i { x with copier := some (.pump sink body failed writes stored .closing) })
    | some (.pump sink body failed writes stored (.writing data)), _ =>
      match front.faults.writing sink writes with
      | some text =>
        some ((w.note front [.warning ("[Cache] Failed to store body for " ++ x.keyText ++ ": " ++
          (CacheError.storage text).message)]).put i
            { x with copier := some (.pump sink body true (writes + 1) stored .taking) })
      | none =>
        let copier := Copier.pump sink body failed (writes + 1) (stored + data.length) .taking
        some ((w.modifyBody body fun g => g.write data).put i { x with copier := some copier })
    | some (.pump sink body failed writes stored .closing), _ =>
      let lines :=
        (match front.faults.closing sink with
          | some text =>
            [Log.Line.warning ("[Cache] Failed to close body for " ++ x.keyText ++ ": " ++
              (CacheError.storage text).message)]
          | none => []) ++
        [.debug ("[Cache] Stored " ++ toString stored ++ " bytes for " ++ x.keyText)]
      some (((w.modifyBody body Growing.close).note front lines).put i
        { x with copier := some (.pump sink body failed writes stored .stopped) })
    | _, _ => none

/-! ### Steps and happenings -/

/-- One step of one task of one exchange; `none` if that task cannot go on. -/
def step (front : Front) (w : World) (i : Nat) : Actor → Option World
  | .front => w.frontStep front i
  | .origin => w.originStep front i
  | .copier => w.copierStep front i

/-- What can happen to a world. -/
inductive Happening where
  /-- A task takes a step. -/
  | step (i : Nat) (actor : Actor)
  /-- A request arrives. -/
  | arrive (request : Request) (client : Client) (access : Option Log.Access)
  /-- A gate is released. -/
  | release (gate : String)
  /-- Time passes. -/
  | tick (now : Instant)
  /-- The connection takes a chunk of the response. -/
  | take (i : Nat)
  /-- The connection goes away. -/
  | abandon (i : Nat)

/-- A request arrives; it is worked on in an exchange of its own. -/
def arrive (w : World) (request : Request) (client : Client) (access : Option Log.Access) : World :=
  { w with exchanges := w.exchanges ++ [{ request, own := client, access }] }

/-- A gate is released. -/
def release (w : World) (gate : String) : World := { w with gates := w.gates.release gate }

/-- The connection takes a chunk of a response whose head it has. -/
def take (w : World) (i : Nat) (r : Reception) : Frame × Reception × World :=
  match w.exchanges[i]? with
  | none => (.gone, r, w)
  | some x =>
    match r.next x.client with
    | (frame, r', c) => (frame, r', w.put i (x.setClient c))

/-- The connection of an exchange goes away. -/
def abandon (w : World) (i : Nat) : World :=
  match w.exchanges[i]? with
  | none => w
  | some x => w.put i (x.setClient x.client.abandon)

/-- What becomes of the world; `none` if it cannot happen. -/
def happen (front : Front) (w : World) : Happening → Option World
  | .step i actor => w.step front i actor
  | .arrive request client access => some (w.arrive request client access)
  | .release gate => some (w.release gate)
  | .tick now => if w.clock.le now then some { w with clock := now } else none
  | .take i => some (w.take i .streaming).2.2
  | .abandon i => some (w.abandon i)

/-- The tasks of a world. -/
def tasks (w : World) : List (Nat × Actor) :=
  (List.range w.exchanges.length).flatMap fun i => [(i, .origin), (i, .copier), (i, .front)]

/-- Let the tasks of a world take turns until all of them are finished or wait for something from
outside. -/
def settled (front : Front) (w : World) : World :=
  runInTurn tasks (fun t w => w.step front t.1 t.2) plenty [] w

end World
end EdgeCache
