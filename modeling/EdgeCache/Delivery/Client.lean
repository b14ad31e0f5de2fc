import EdgeCache.Failure
import EdgeCache.Http.Plain

/-!
# Delivering a response

A response is written through a `Client`: its header fields may be edited until the head is
committed, the first commit fixes status and fields for good, and chunks of the body follow.  Where
the chunks go is its `Link`:

* a `Channel` of bounded room towards a connection that takes them out again, and that may go away;
* a `Tape` that records what it accepts, and refuses the writes it is told to refuse.

`Reception` is the other end of a channel: the head once it is known, then the chunks in order.
-/

set_option autoImplicit false

namespace EdgeCache

/-! ## Links -/

/-- Chunks on their way to a connection. -/
structure Channel where
  /-- How many chunks may wait; at least one may in any case.  A queue can have at most `2 ^ 61 - 1`
  places, and the number is taken to be one that it can have. -/
  capacity : Nat
  queue : List Bytes := []
  /-- Total length of the chunks that were accepted.  It stands for a counter of 64 bits, which one
  response does not fill: `2 ^ 64` bytes take over fifty years even at ten gigabytes a second. -/
  accepted : Nat := 0
  /-- The connection no longer takes the response. -/
  abandoned : Bool := false

namespace Channel

/-- There is room for one more chunk. -/
def hasRoom (ch : Channel) : Bool := ch.queue.length < max 1 ch.capacity

end Channel

/-- A record of the chunks that were accepted. -/
structure Tape where
  chunks : List Bytes := []
  /-- Writes so far, refused ones included. -/
  attempts : Nat := 0
  /-- Which write, counted from zero, is refused. -/
  refuses : Nat → Bool := fun _ => false
  /-- A refused write commits the head first, as an accepted one does. -/
  commitsFirst : Bool := false
  /-- What a refused write reports. -/
  failure : IoError := IoError.clientGone

/-- Where the chunks of a response go. -/
inductive Link where
  | channel (ch : Channel)
  | tape (t : Tape)

/-! ## Clients -/

/-- The receiver of one response. -/
structure Client where
  headers : Headers := {}
  /-- The committed head. -/
  head : Option Head := none
  link : Link
  /-- Nothing more will be written. -/
  released : Bool := false

/-- How far a write has come. -/
inductive Progress (σ : Type) where
  /-- It waits for room. -/
  | blocked
  /-- It has come a step further. -/
  | partly (s : σ)
  /-- It is over, with the failure it reports if there is one. -/
  | finished (s : σ) (failure : Option IoError)

namespace Client

/-- A client behind a channel of the given room. -/
def ofChannel (capacity : Nat) : Client := { link := .channel { capacity } }

def isCommitted (c : Client) : Bool := c.head.isSome

/-- Change the header fields.  After the commit this no longer shows. -/
def edit (f : Headers → Headers) (c : Client) : Client := { c with headers := f c.headers }

/-- Fix status and header fields, unless they are fixed already. -/
def commit (status : Status) (c : Client) : Client :=
  match c.head with
  | some _ => c
  | none => { c with head := some ⟨status, c.headers⟩ }

/-- The next write fixes the head before anything else. -/
def commitsOnWrite (c : Client) : Bool :=
  match c.link with
  | .channel _ => true
  | .tape t => t.commitsFirst || !t.refuses t.attempts

/-- Put a chunk on the link. -/
def send (chunk : Bytes) (c : Client) : Progress Client :=
  match c.link with
  | .channel ch =>
    if ch.abandoned then .finished c (some .clientGone)
    else if ch.hasRoom then
      .finished { c with link := .channel { ch with
        queue := ch.queue ++ [chunk], accepted := ch.accepted + chunk.length } } none
    else .blocked
  | .tape t =>
    if t.refuses t.attempts then
      .finished { c with link := .tape { t with attempts := t.attempts + 1 } } (some t.failure)
    else
      .finished { c with link := .tape { t with
        attempts := t.attempts + 1, chunks := t.chunks ++ [chunk] } } none

/-- Write a chunk: commit `200 OK` first if nothing is committed, then send it. -/
def write (chunk : Bytes) (c : Client) : Progress Client :=
  if !c.isCommitted && c.commitsOnWrite then .partly (c.commit .ok) else c.send chunk

/-- Nothing more will be written. -/
def release (c : Client) : Client := { c with released := true }

/-- The chunks on a tape. -/
def recorded (c : Client) : List Bytes :=
  match c.link with
  | .tape t => t.chunks
  | .channel _ => []

/-- Bytes accepted by a channel. -/
def bytesSent (c : Client) : Nat :=
  match c.link with
  | .channel ch => ch.accepted
  | .tape _ => 0

end Client

/-! ## The connection's end of a channel -/

/-- What a connection holds of the response it is sent. -/
inductive Reception where
  /-- The head has not been taken yet. -/
  | waiting
  /-- Chunks are taken from the channel. -/
  | streaming
  /-- The rest of a ready-made body. -/
  | canned (rest : List Bytes)
  /-- It has been given up. -/
  | gone

/-- What taking a chunk gives. -/
inductive Frame where
  | chunk (data : Bytes)
  | pending
  | finish
  | gone
deriving DecidableEq

namespace Reception

/-- Take the head, once it is committed.  If the writer is gone without a commit the answer is a
plain `502 Bad Gateway`. -/
def head? (r : Reception) (c : Client) : Option (Head × Reception) :=
  match r with
  | .waiting =>
    match c.head with
    | some h => some (h, .streaming)
    | none =>
      if c.released then
        let answer := Plain.response .badGateway
        some (answer.head, .canned [answer.body])
      else none
  | _ => none

/-- Take the next chunk. -/
def next (r : Reception) (c : Client) : Frame × Reception × Client :=
  match r with
  | .waiting | .gone => (.gone, r, c)
  | .canned [] => (.finish, r, c)
  | .canned (b :: rest) => (.chunk b, .canned rest, c)
  | .streaming =>
    match c.link with
    | .tape _ => (.gone, r, c)
    | .channel ch =>
      match ch.queue with
      | b :: rest => (.chunk b, r, { c with link := .channel { ch with queue := rest } })
      | [] => (if c.released then .finish else .pending, r, c)

end Reception

/-- The connection goes away: chunks under way are lost and later writes are refused. -/
def Client.abandon (c : Client) : Client :=
  match c.link with
  | .channel ch => { c with link := .channel { ch with abandoned := true, queue := [] } }
  | .tape _ => c

end EdgeCache
