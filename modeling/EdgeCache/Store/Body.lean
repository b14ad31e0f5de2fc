import EdgeCache.Schedule
import EdgeCache.Variant.Entry

/-!
# Bodies that are read while they are written

A `Growing` body is written once, chunk by chunk, by one sink, which ends by closing it or by being
dropped.  Any number of readers start at any time at the first chunk.  A reader that has come to the
end of what is written remembers the version it has seen and waits for another version, or for the
sink to be gone.
-/

set_option autoImplicit false

namespace EdgeCache

/-- A body in memory. -/
structure Growing where
  chunks : List Bytes := []
  closed : Bool := false
  /-- Counts the changes. -/
  version : Nat := 0
  /-- The sink has not been dropped. -/
  attached : Bool := true
deriving DecidableEq

namespace Growing

/-- A body of which nothing is written yet. -/
def empty : Growing := {}

/-- The sink writes a chunk. -/
def write (g : Growing) (chunk : Bytes) : Growing :=
  { g with chunks := g.chunks ++ [chunk], version := g.version + 1 }

/-- The sink is dropped without having closed the body. -/
def detach (g : Growing) : Growing := { g with attached := false }

/-- The sink closes the body, and is dropped with that. -/
def close (g : Growing) : Growing :=
  { g with closed := true, version := g.version + 1, attached := false }

/-- Nothing more will be written. -/
def complete (g : Growing) : Bool := g.closed || !g.attached

end Growing

/-- A reader's place in a body. -/
structure Reader where
  /-- How many chunks it has read. -/
  index : Nat := 0
  /-- The version it last looked at. -/
  seen : Nat := 0
  /-- It has found nothing to read and waits for a change. -/
  waiting : Bool := false
deriving DecidableEq

/-- What a reader meets. -/
inductive Reading where
  /-- Nothing has changed since it last looked. -/
  | pending
  /-- It looks again, or begins to wait. -/
  | turning (r : Reader)
  | chunk (data : Bytes) (r : Reader)
  | finish
  | failure (text : String)
deriving DecidableEq

namespace Reader

/-- One look at a growing body.  A waiting reader first notices a change it has not seen, and only
then that the sink is gone. -/
def step (r : Reader) (g : Growing) : Reading :=
  if r.waiting then
    if r.seen ≠ g.version then .turning { r with waiting := false, seen := g.version }
    else if !g.attached then .finish
    else .pending
  else
    match g.chunks[r.index]? with
    | some data => .chunk data { r with index := r.index + 1, seen := g.version }
    | none => if g.closed then .finish else .turning { r with waiting := true, seen := g.version }

/-- One look at a stored body, where `bodies` are the growing ones. -/
def read (r : Reader) (bodies : List Growing) : StoredBody → Reading
  | .growing id => r.step (bodies.getD id { attached := false })
  | .fixed chunks failure =>
    match chunks[r.index]? with
    | some data => .chunk data { r with index := r.index + 1 }
    | none =>
      match failure with
      | some text => .failure text
      | none => .finish

/-- The reader when it has looked again, or begun to wait, as often as it has to. -/
def turned (r : Reader) (bodies : List Growing) (body : StoredBody) : Reader :=
  let turn (r : Reader) : Option Reader :=
    match r.read bodies body with
    | .turning r' => some r'
    | _ => none
  settle (fun _ => [turn]) 4 r

end Reader

/-- Where the body of a fresh reader ends. -/
inductive Tail where
  /-- The body is complete. -/
  | finish
  /-- More may be written. -/
  | open
  | failure (text : String)
deriving DecidableEq

/-- What a fresh reader gets without waiting. -/
def StoredBody.available (bodies : List Growing) : StoredBody → List Bytes × Tail
  | .growing id =>
    let g := bodies.getD id { attached := false }
    (g.chunks, if g.complete then .finish else .open)
  | .fixed chunks failure =>
    (chunks, match failure with | some text => .failure text | none => .finish)

end EdgeCache
