import EdgeCache.Delivery.Client
import EdgeCache.Http.Request
import EdgeCache.Log.Line
import EdgeCache.Schedule
import EdgeCache.Wire.Fields

/-!
# Behaviour of an origin

An origin answers a request by acting on a response writer.  What it does is a `Script`: a tree of
actions, where an action that learns something — the fields on the writer, whether the head is
committed, the outcome of a write — goes on in a way that depends on it.  One and the same script
can be run on any writer; `Writer` says what a writer has to offer, and `Script.step` runs a single
action.

Scripts may wait at a gate for an event from outside.  A gate lets its visitors through one at a
time, in the order of their arrival, as often as it has been released.
-/

set_option autoImplicit false

namespace EdgeCache

/-! ## Gates -/

/-- A gate: how many have asked to pass, and how often it has been released. -/
structure Gate where
  name : String
  tickets : Nat := 0
  releases : Nat := 0

/-- Gates by name; one that is not listed has neither visitors nor releases. -/
abbrev Gates := List Gate

namespace Gates

/-- Change one gate. -/
def modify (f : Gate → Gate) (name : String) : Gates → Gates
  | [] => [f { name }]
  | g :: gs => if g.name = name then f g :: gs else g :: modify f name gs

/-- The gate of a name. -/
def find (gs : Gates) (name : String) : Gate := (List.find? (·.name == name) gs).getD { name }

/-- Let one more visitor through. -/
def release (gs : Gates) (name : String) : Gates :=
  modify (fun g => { g with releases := g.releases + 1 }) name gs

/-- Take the next place in line. -/
def arrive (gs : Gates) (name : String) : Nat × Gates :=
  ((gs.find name).tickets, modify (fun g => { g with tickets := g.tickets + 1 }) name gs)

/-- The visitor in this place may pass. -/
def lets (gs : Gates) (name : String) (ticket : Nat) : Bool := ticket < (gs.find name).releases

end Gates

/-! ## Scripts -/

/-- A request that reached a server behind this one. -/
structure Contact where
  /-- The request line. -/
  line : Bytes
  headers : Headers
  body : Bytes

/-- A request for a target, with the length of a body that has none. -/
def Contact.ofRequest (target : Bytes) (version : Version) (r : Request) : Contact :=
  { line := r.method.text ++ 0x20 :: (target ++ 0x20 :: Wire.versionText version)
    headers := if r.body.isEmpty || r.headers.contains .contentLength then r.headers
      else r.headers.append .contentLength (Bytes.ofNat r.body.length)
    body := r.body }

/-- A request as it goes out. -/
def Contact.text (c : Contact) : Bytes := Wire.headText c.line c.headers ++ c.body

/-- Something that an origin does beside writing the response. -/
inductive Event where
  | log (line : Log.Line)
  | contacted (contact : Contact)

/-- The line of an event that is a line for the log. -/
def Event.line? : Event → Option Log.Line
  | log line => some line
  | contacted _ => none

/-- The request of an event that is a request to another server. -/
def Event.contact? : Event → Option Contact
  | log _ => none
  | contacted contact => some contact

/-- What is done to a response writer, ending with a value. -/
inductive Script (α : Type) : Type where
  | done (a : α)
  /-- The task dies without returning. -/
  | die (message : String)
  | edit (f : Headers → Headers) (rest : Script α)
  /-- Look at the header fields on the writer. -/
  | inspect (k : Headers → Script α)
  /-- Ask whether the head is committed. -/
  | observe (k : Bool → Script α)
  | commit (status : Status) (rest : Script α)
  | write (chunk : Bytes) (k : Option IoError → Script α)
  /-- Wait at a gate, in the given place in line once there is one. -/
  | await (gate : String) (ticket : Option Nat) (rest : Script α)
  | emit (event : Event) (rest : Script α)

namespace Script

/-- Go on with another script after the first has ended. -/
def bind {α β : Type} : Script α → (α → Script β) → Script β
  | done a, k => k a
  | die m, _ => die m
  | edit f rest, k => edit f (rest.bind k)
  | inspect g, k => inspect fun h => (g h).bind k
  | observe g, k => observe fun b => (g b).bind k
  | commit s rest, k => commit s (rest.bind k)
  | write c g, k => write c fun e => (g e).bind k
  | await g t rest, k => await g t (rest.bind k)
  | emit e rest, k => emit e (rest.bind k)

/-- Write a plain-text answer; for a `HEAD` request without its body. -/
def plain (status : Status) (isHead : Bool) : Script (Option IoError) :=
  edit (Plain.describe status) <| commit status <|
    if isHead then done none else write (Plain.body status) done

/-- Only where nothing is committed yet. -/
def ifUncommitted (s : Script Unit) : Script Unit :=
  observe fun committed => if committed then done () else s

end Script

/-- What an origin does with a request: a script that returns the status it sent, or why it
failed. -/
abbrev Responder := Request → Script (Except OriginError Status)

namespace Script

/-- Go on to a result, unless a write has failed. -/
def unlessFailed (result : Except OriginError Status) :
    Option IoError → Script (Except OriginError Status)
  | none => done result
  | some e => done (.error (.io e))

/-- A plain-text answer that ends with a result. -/
def answerPlain (status : Status) (isHead : Bool) (result : Except OriginError Status) :
    Script (Except OriginError Status) :=
  (plain status isHead).bind (unlessFailed result)

/-- Write chunks one after another as long as they are accepted, and end with a result. -/
def writeAll (result : Except OriginError Status) :
    List Bytes → Script (Except OriginError Status)
  | [] => done result
  | chunk :: rest => write chunk fun
    | none => writeAll result rest
    | some e => done (.error (.io e))

end Script

/-! ## Running a script -/

/-- The operations of a response writer. -/
structure Writer (σ : Type) where
  headers : σ → Headers
  edit : (Headers → Headers) → σ → σ
  isCommitted : σ → Bool
  commit : Status → σ → σ
  write : Bytes → σ → Progress σ

/-- A client as a writer. -/
def Client.writer : Writer Client :=
  { headers := Client.headers, edit := Client.edit, isCommitted := Client.isCommitted,
    commit := Client.commit, write := Client.write }

/-- Where a script stands after an action. -/
structure Moved (σ α : Type) where
  script : Script α
  writer : σ
  gates : Gates
  event : Option Event := none

/-- Run one action; `none` if the script has ended or has to wait. -/
def Script.step {σ α : Type} (on : Writer σ) (gates : Gates) (w : σ) :
    Script α → Option (Moved σ α)
  | done _ => none
  | die _ => none
  | edit f rest => some ⟨rest, on.edit f w, gates, none⟩
  | inspect k => some ⟨k (on.headers w), w, gates, none⟩
  | observe k => some ⟨k (on.isCommitted w), w, gates, none⟩
  | commit s rest => some ⟨rest, on.commit s w, gates, none⟩
  | write chunk k =>
    match on.write chunk w with
    | .blocked => none
    | .partly w' => some ⟨write chunk k, w', gates, none⟩
    | .finished w' failure => some ⟨k failure, w', gates, none⟩
  | await gate none rest =>
    let (ticket, gates') := gates.arrive gate
    some ⟨await gate (some ticket) rest, w, gates', none⟩
  | await gate (some ticket) rest =>
    if gates.lets gate ticket then some ⟨rest, w, gates, none⟩ else none
  | emit e rest => some ⟨rest, w, gates, some e⟩

/-- Run a script on a client as far as it goes: the client, what is left of the script, and what it
did beside writing. -/
def Script.run {α : Type} (c : Client) (s : Script α) : Client × Script α × List Event :=
  settle (fun _ => [fun (c, s, es) => (s.step Client.writer [] c).map fun m =>
    (m.writer, m.script, es ++ m.event.toList)]) plenty (c, s, [])

end EdgeCache
