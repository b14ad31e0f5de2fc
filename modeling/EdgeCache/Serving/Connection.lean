import EdgeCache.Net.Address
import EdgeCache.Wire.Answer
import EdgeCache.Wire.RequestHead
import EdgeCache.Delivery.Client

/-!
# A connection

What a connection has received and not used yet, the request that is being answered on it — its
`Turn` — and what is on its way out.  Pieces of a response are gathered before they are sent: what
is gathered when a connection breaks down is lost.
-/

set_option autoImplicit false

namespace EdgeCache.Serving

/-- Why a connection breaks down. -/
inductive Breakdown where
  /-- What came in is no request. -/
  | refused (fault : Wire.Fault)
  /-- What came in is meant for another version of the protocol. -/
  | otherProtocol
  /-- The other side has ended in the middle of something. -/
  | cutOff
  /-- The head of a response cannot be sent. -/
  | badHead
  /-- A response has ended before its announced length. -/
  | shortBody
deriving DecidableEq

def Breakdown.text : Breakdown → String
  | refused .malformed => "invalid HTTP request"
  | refused .tooLarge => "message head is too large"
  | refused .longTarget => "request target is too long"
  | otherProtocol => "invalid HTTP version"
  | cutOff => "connection closed before message completed"
  | badHead => "invalid response head"
  | shortBody => "response body ended early"

/-- The answering of a request. -/
structure Turn where
  /-- The number of the exchange. -/
  exchange : Nat
  asker : Wire.Asker
  /-- What is held of the response. -/
  reception : Reception := .waiting
  /-- How the rest of the body is framed. -/
  framing : Wire.Framing := .length 0
  /-- The connection is closed behind the response. -/
  last : Bool := false

/-- A connection, seen from this side. -/
structure Connection where
  peer : Net.Address
  /-- Its place among those who are counted. -/
  place : Option Nat := none
  /-- The version that its requests count as having come in, if not their own. -/
  regarded : Option Version := none
  /-- When its time is up. -/
  deadline : Option Nat := none
  /-- What has come in and is not used yet. -/
  received : Bytes := []
  /-- Nothing more will come in. -/
  ended : Bool := false
  turn : Option Turn := none
  /-- Pieces that wait to be sent. -/
  gathered : List Bytes := []
  /-- What has been sent and not been collected yet. -/
  sent : Bytes := []
  closed : Bool := false

namespace Connection

/-- A piece is to be sent. -/
def gather (c : Connection) (piece : Bytes) : Connection :=
  { c with gathered := c.gathered ++ [piece] }

/-- Everything gathered is sent. -/
def flush (c : Connection) : Connection :=
  { c with sent := c.sent ++ c.gathered.flatten, gathered := [] }

/-- How many pieces are gathered at most. -/
def maxPieces : Nat := 16

/-- How many bytes are gathered before they are sent in any case. -/
def maxGathered : Nat := 417792

/-- No further piece is gathered. -/
def isFull (c : Connection) : Bool :=
  maxPieces ≤ c.gathered.length || maxGathered ≤ (c.gathered.map List.length).foldl (· + ·) 0

/-- Close the connection; what is gathered is lost. -/
def close (c : Connection) : Connection := { c with closed := true, turn := none, gathered := [] }

/-- The response is complete: send it, and close the connection or wait for the next request. -/
def conclude (c : Connection) (last : Bool) : Connection :=
  if last then c.flush.close else { c.flush with turn := none }

end Connection

/-- What the bytes that have come in amount to. -/
inductive Incoming where
  /-- Nothing that could be acted on yet. -/
  | waiting
  /-- The other side has ended, and nothing is left to do. -/
  | nothingLeft
  /-- A request, whether its body is complete, and what follows it. -/
  | request (head : Wire.RequestHead) (body : Bytes) (whole : Bool) (rest : Bytes)
  | breakdown (cause : Breakdown)

/-- See what has come in.  A request counts as soon as its body is complete, or nothing more of it
can come. -/
def Incoming.ofBytes (s : Bytes) (ended : Bool) : Incoming :=
  match Wire.RequestHead.read s with
  | .complete head rest =>
    let body := head.framing.read rest
    if !body.broken then .request head body.pieces.flatten true body.rest
    else if ended then .request head body.pieces.flatten false []
    else .waiting
  | .incomplete =>
    if ended then if Wire.RequestHead.isBlank s then .nothingLeft else .breakdown .cutOff
    else if Wire.RequestHead.maxSize ≤ s.length then .breakdown (.refused .tooLarge)
    else .waiting
  | .refused fault =>
    if Wire.RequestHead.nextProtocol.isPrefixOf s then .breakdown .otherProtocol
    else .breakdown (.refused fault)

end EdgeCache.Serving
