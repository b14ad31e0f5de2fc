import EdgeCache.Origin.Script
import EdgeCache.Schedule
import EdgeCache.Store.Basic

/-!
# Calls on a store

A call visits a key with a producer of its own.  The producer is a script that ends with an outcome;
it runs as soon as the visit hands it what is stored, and may wait at gates.
-/

set_option autoImplicit false

namespace EdgeCache

/-- A visit with its producer. -/
structure Call where
  visit : Nat
  producer : Script Outcome
  /-- What the producer was handed, once it has been. -/
  handed : Option (Option Held) := none

/-- A store with the calls on it. -/
structure Calls where
  clock : Instant := default
  store : Store := {}
  gates : Gates := []
  calls : List Call := []

namespace Calls

/-- Begin a call; the second part is its number. -/
def begin (s : Calls) (key : Bytes) (accepts : Entry → Bool) (producer : Script Outcome) :
    Calls × Nat :=
  let (store, visit) := s.store.begin key accepts
  ({ s with store, calls := s.calls ++ [{ visit, producer }] }, s.calls.length)

/-- One step of a call: of its visit, or of its producer; `none` if it has to wait or is over. -/
def step (i : Nat) (s : Calls) : Option Calls :=
  match s.calls[i]? with
  | none => none
  | some c =>
    match s.store.handed c.visit with
    | none => (s.store.step s.clock c.visit).map fun store => { s with store }
    | some h =>
      let c := { c with handed := some h }
      match c.producer with
      | .done outcome =>
        (s.store.finish c.visit outcome).map fun store => { s with store, calls := s.calls.set i c }
      | producer =>
        (producer.step Client.writer s.gates { link := .tape {} }).map fun m =>
          { s with gates := m.gates, calls := s.calls.set i { c with producer := m.script } }

/-- Let the calls take turns until each is over or waits at a gate. -/
def settled (s : Calls) : Calls :=
  runInTurn (fun s => List.range s.calls.length) step plenty [] s

/-- How a call has ended. -/
def result (s : Calls) (i : Nat) : Option VisitResult :=
  (s.calls[i]?).bind fun c => s.store.result c.visit

end Calls

/-- Store an entry by a call of its own; nothing is changed if others are in the way. -/
def Store.put (s : Store) (now : Instant) (key : Bytes) (entry : Entry) : Store :=
  let calls : Calls := { clock := now, store := s }
  let (calls, i) := calls.begin key (fun _ => false) (.done (.replace entry))
  let calls := calls.settled
  if (calls.result i).isSome then calls.store else s

end EdgeCache
