import EdgeCache.Origin.Script

/-!
# Fetching a response while watching it

On a miss the origin's script runs as a task of its own, on a `Tee`: a writer that passes everything
on to the client and shows a consumer the committed head, once, and a copy of every chunk.  A chunk
is written to the client first and then put into a buffer of bounded room; when the buffer is full
the origin waits for the consumer, and when the consumer has gone the copies stop while the client
is still served.

`Fetch` is the task: the tee, what is left of the script, and how it ended.
-/

set_option autoImplicit false

namespace EdgeCache

/-- A writer that feeds a client and a consumer. -/
structure Tee where
  client : Client
  /-- The head, as it was committed through this writer. -/
  announced : Option Head := none
  /-- How many chunks may be buffered; at least one may in any case.  As with a channel, the number
  is taken to be one that a buffer can have (`Channel.capacity`). -/
  capacity : Nat
  buffer : List Bytes := []
  /-- Chunks are still copied. -/
  feeding : Bool := true
  /-- The consumer may still take chunks. -/
  consumed : Bool := true
  /-- The outcome of a write whose chunk has gone to the client but not yet into the buffer. -/
  halfway : Option (Option IoError) := none

namespace Tee

def headers (t : Tee) : Headers := t.client.headers

def edit (f : Headers → Headers) (t : Tee) : Tee := { t with client := t.client.edit f }

def isCommitted (t : Tee) : Bool := t.client.isCommitted

/-- Commit the head and announce it, unless one is committed already. -/
def commit (status : Status) (t : Tee) : Tee :=
  if t.isCommitted then t
  else { t with client := t.client.commit status, announced := some ⟨status, t.headers⟩ }

/-- There is room for one more chunk. -/
def hasRoom (t : Tee) : Bool := t.buffer.length < max 1 t.capacity

/-- Put a chunk into the buffer; `none` while there is no room. -/
def feed (chunk : Bytes) (t : Tee) : Option Tee :=
  if !t.consumed then some { t with feeding := false }
  else if t.hasRoom then some { t with buffer := t.buffer ++ [chunk] }
  else none

/-- Write a chunk: commit `200 OK` first if nothing is committed, then write to the client, then
feed the buffer, whether or not the client took the chunk. -/
def write (chunk : Bytes) (t : Tee) : Progress Tee :=
  match t.halfway with
  | some failure =>
    match t.feed chunk with
    | some t' => .finished { t' with halfway := none } failure
    | none => .blocked
  | none =>
    if !t.isCommitted then .partly (t.commit .ok)
    else
      match t.client.write chunk with
      | .blocked => .blocked
      | .partly c => .partly { t with client := c }
      | .finished c failure =>
        if t.feeding then .partly { t with client := c, halfway := some failure }
        else .finished { t with client := c } failure

/-- The tee as a writer. -/
def writer : Writer Tee := { headers, edit, isCommitted, commit, write }

end Tee

/-! ## The task -/

/-- How a task has ended. -/
inductive Ending where
  | returned
  | died (message : String)
deriving DecidableEq

/-- An origin at work on a tee. -/
structure Fetch where
  tee : Tee
  script : Script Unit
  ending : Option Ending := none

/-- What is known of the head. -/
inductive HeadEvent where
  | pending
  | committed (head : Head)
  /-- The task has ended without a head. -/
  | lost
deriving DecidableEq

namespace Fetch

/-- What becomes of an origin's result: a status that was returned without a commit is committed
now, and a failure before the commit is answered with a plain `502 Bad Gateway`. -/
def supervise (isHead : Bool) (s : Script (Except OriginError Status)) : Script Unit :=
  s.bind fun
    | .ok status => Script.ifUncommitted (.commit status (.done ()))
    | .error cause =>
      .emit (.log (.warning ("[Cache] Upstream responder failed: " ++ cause.message))) <|
        Script.ifUncommitted ((Script.plain .badGateway isHead).bind fun _ => .done ())

/-- Start an origin's script for a client. -/
def start (client : Client) (capacity : Nat) (isHead : Bool)
    (s : Script (Except OriginError Status)) : Fetch :=
  { tee := { client, capacity }, script := supervise isHead s }

/-- The task ends, and the client is released. -/
def close (f : Fetch) (ending : Ending) : Fetch :=
  { f with ending := some ending, tee := { f.tee with client := f.tee.client.release } }

/-- The next step of the task. -/
def step (gates : Gates) (f : Fetch) : Option (Fetch × Gates × Option Event) :=
  match f.ending with
  | some _ => none
  | none =>
    match f.script with
    | .done () => some (f.close .returned, gates, none)
    | .die message => some (f.close (.died message), gates, none)
    | s =>
      match s.step Tee.writer gates f.tee with
      | none => none
      | some m => some ({ f with script := m.script, tee := m.writer }, m.gates, m.event)

/-- The task when it has gone as far as it can: with the gates, and what it did beside writing. -/
def settled (gates : Gates) (f : Fetch) : Fetch × Gates × List Event :=
  settle (fun _ => [fun (f, gates, es) => (f.step gates).map fun (f, gates, e) =>
    (f, gates, es ++ e.toList)]) plenty (f, gates, [])

/-! ## The consumer -/

/-- What the consumer knows of the head. -/
def headEvent (f : Fetch) : HeadEvent :=
  match f.tee.announced with
  | some h => .committed h
  | none => if f.ending.isSome then .lost else .pending

/-- The consumer takes the next chunk. -/
def receive (f : Fetch) : Frame × Fetch :=
  if !f.tee.consumed then (.gone, f)
  else
    match f.tee.buffer with
    | chunk :: rest => (.chunk chunk, { f with tee := { f.tee with buffer := rest } })
    | [] => (if f.ending.isSome then .finish else .pending, f)

/-- The consumer goes away, and what is buffered is lost. -/
def unwatch (f : Fetch) : Fetch := { f with tee := { f.tee with consumed := false, buffer := [] } }

/-- The line that reports how the task ended, if it died. -/
def report (f : Fetch) : List Log.Line :=
  match f.ending with
  | some (.died message) =>
    [.error ("[Cache] Background task failed: task N panicked with message \"" ++ message ++ "\"")]
  | _ => []

end Fetch
end EdgeCache
