import EdgeCache.Proofs.Origin.Tees
import EdgeCache.Proofs.Runs

/-!
# A writer and its connection

A response is written at one end of a channel and taken at the other.  `Sending` is the system of
the two: the writer is called in any order, a write that waits for room may be given up, and the
connection takes the head and the chunks when it likes, or goes away.

What a run has been is read off its record: the heads that the calls have asked for, the writes that
have ended with what they reported, and what the connection has got.
-/

set_option autoImplicit false

namespace EdgeCache

/-- A writer of a response and the connection that takes it. -/
structure Sending where
  client : Client
  reception : Reception := .waiting
  /-- The chunk of a write that has been called and has not ended. -/
  writing : Option Bytes := none

namespace Sending

/-- A response of which nothing has been written, behind a channel of the given room. -/
def start (capacity : Nat) : Sending := { client := .ofChannel capacity }

/-- The writer is there, and no write is under way. -/
def isIdle (s : Sending) : Bool := !s.client.released && s.writing.isNone

/-- The connection has gone away. -/
def isGone (s : Sending) : Bool :=
  match s.reception with
  | .gone => true
  | _ => false

/-- What can happen to a response. -/
inductive Move where
  /-- The header fields are edited. -/
  | edit (f : Headers → Headers)
  /-- The head is to be fixed. -/
  | commit (status : Status)
  /-- A write is called. -/
  | write (chunk : Bytes)
  /-- The write goes on. -/
  | proceed
  /-- The write is given up. -/
  | giveUp
  /-- The writer is dropped. -/
  | release
  /-- The connection takes the head. -/
  | resolve
  /-- The connection asks for a chunk. -/
  | read
  /-- The connection goes away. -/
  | leave

/-- What becomes of a response; `none` if it cannot happen. -/
def move (s : Sending) : Move → Option Sending
  | .edit f => if s.isIdle then some { s with client := s.client.edit f } else none
  | .commit status => if s.isIdle then some { s with client := s.client.commit status } else none
  | .write chunk => if s.isIdle then some { s with writing := some chunk } else none
  | .proceed =>
    s.writing.bind fun chunk =>
      match s.client.write chunk with
      | .blocked => none
      | .partly client => some { s with client }
      | .finished client _ => some { s with client, writing := none }
  | .giveUp => s.writing.map fun _ => { s with writing := none }
  | .release =>
    if s.client.released then none
    else some { s with client := s.client.release, writing := none }
  | .resolve => (s.reception.head? s.client).map fun r => { s with reception := r.2 }
  | .read =>
    let (_, reception, client) := s.reception.next s.client
    some { s with reception, client }
  | .leave => some { s with client := s.client.abandon, reception := .gone }

/-! ## The record -/

/-- The head that a call fixes if none has been fixed before. -/
def asks? (p : Sending × Move) : Option Head :=
  match p.2 with
  | .commit status => some ⟨status, p.1.client.headers⟩
  | .proceed => p.1.writing.map fun _ => ⟨.ok, p.1.client.headers⟩
  | _ => none

/-- The chunk of a write that ends, with what it reports. -/
def reports? (p : Sending × Move) : Option (Bytes × Option IoError) :=
  match p.2 with
  | .proceed => p.1.writing.bind fun chunk => (p.1.client.reports chunk).map (chunk, ·)
  | _ => none

/-- The chunk of a write that ends without a failure. -/
def accepts? (p : Sending × Move) : Option Bytes :=
  (reports? p).bind fun r => if r.2 = none then some r.1 else none

/-- The head that the connection takes. -/
def resolves? (p : Sending × Move) : Option Head :=
  match p.2 with
  | .resolve => (p.1.reception.head? p.1.client).map (·.1)
  | _ => none

/-- What the connection gets when it asks for a chunk. -/
def frame? (p : Sending × Move) : Option Frame :=
  match p.2 with
  | .read => some (p.1.reception.next p.1.client).1
  | _ => none

/-- The chunk that the connection takes. -/
def takes? (p : Sending × Move) : Option Bytes := (frame? p).bind Frame.chunk?

section Record

variable (t : List (Sending × Move))

/-- The heads that the calls have asked for, in order. -/
def asked : List Head := t.filterMap asks?

/-- The chunks whose write has ended without a failure. -/
def accepted : List Bytes := t.filterMap accepts?

/-- The heads that the connection has taken. -/
def resolved : List Head := t.filterMap resolves?

/-- What the connection has got. -/
def frames : List Frame := t.filterMap frame?

/-- The chunks that the connection has taken. -/
def taken : List Bytes := t.filterMap takes?

/-- The head of the response: the first one asked for, or that of an error. -/
def answer : Head := (asked t).head?.getD (Plain.response .badGateway).head

/-- The chunks of the response so far: those accepted, or that of an error. -/
def body : List Bytes := if asked t = [] then [Plain.body .badGateway] else accepted t

variable {t} {p : Sending × Move}

theorem asked_append : asked (t ++ [p]) = asked t ++ (asks? p).toList := by
  cases h : asks? p <;> simp [asked, h]

theorem accepted_append : accepted (t ++ [p]) = accepted t ++ (accepts? p).toList := by
  cases h : accepts? p <;> simp [accepted, h]

theorem resolved_append : resolved (t ++ [p]) = resolved t ++ (resolves? p).toList := by
  cases h : resolves? p <;> simp [resolved, h]

theorem frames_append : frames (t ++ [p]) = frames t ++ (frame? p).toList := by
  cases h : frame? p <;> simp [frames, h]

theorem taken_append : taken (t ++ [p]) = taken t ++ (takes? p).toList := by
  cases h : takes? p <;> simp [taken, h]

end Record

end Sending
end EdgeCache
