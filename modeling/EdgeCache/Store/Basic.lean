import EdgeCache.Failure
import EdgeCache.Variant.Entry

/-!
# The variant store

The store keeps a *slot* for each key that has variants or visitors: the list of variants stored
under the key.  A **visit** looks a key up and lets a producer decide what is stored there.  Visits
run side by side; each is a sequence of small steps, and what one has to wait for is read off the
phases of the others:

* the map from keys to slots is worked on by one visit at a time (`Phase.atMap`);
* a slot's variants are read by any number of visits together (`Phase.reading`), or changed by one
  alone (`Phase.writing`);
* a slot stays in use as long as a visit has a handle of it (`Phase.handle`).

Visits that wait for one of these are let in by the order in which they began to wait (`since`).

A visit first looks among the variants for a match while others may look too.  A fresh public match
is handed to the producer with no lock held.  Otherwise the visit takes the slot for itself, drops
what has expired, and looks again: a public match that has turned up is again handed out with no
lock held, and in every other case the producer runs while the slot is kept, so that it is the only
one to build something new for the key.

Letting go of a lock and beginning to wait for the next one are a single step, so that nobody comes
in between.  On several processors somebody may, and then stands before the visit in the queue
instead of behind it.  What is shown of the store does not depend on that.  What is stored and
handed out is derived from the moves that the locks allow, whoever is first in a queue (`Turn`).
That nobody waits in vain takes a first one in every queue (`exists_first`), and that keys do not
disturb each other takes a queue's order to be the same with and without the other keys (`Mirrors`);
neither asks what the order is.
-/

set_option autoImplicit false

namespace EdgeCache

/-- A stored entry, told apart from equal ones by a number of its own. -/
structure Held where
  id : Nat
  entry : Entry
deriving DecidableEq

/-- What a producer decides. -/
inductive Outcome where
  /-- Store this entry in place of the one handed to the producer. -/
  | replace (entry : Entry)
  /-- Leave the stored variants as they are. -/
  | keep
  | fail (cause : CacheError)
deriving DecidableEq

/-- How a visit ends. -/
abbrev VisitResult := Except CacheError Unit

namespace Store

/-- Where a visit stands. -/
inductive Phase where
  /-- Waits for the map, to find its slot there. -/
  | arriving
  /-- Has the map. -/
  | finding
  /-- Has a handle of its slot and still has the map. -/
  | found (slot : Nat)
  /-- Has a handle, and nothing else. -/
  | entering (slot : Nat)
  /-- Has read the clock and waits to read the variants. -/
  | queueing (slot : Nat) (now : Instant)
  /-- Reads the variants as of an earlier clock reading. -/
  | scanning (slot : Nat) (now : Instant)
  /-- Waits to have the slot for itself. -/
  | claiming (slot : Nat)
  /-- Has the slot for itself. -/
  | sweeping (slot : Nat)
  /-- The producer runs while the slot is kept. -/
  | producing (slot : Nat) (previous : Option Held)
  /-- The producer runs on a public entry, with no lock held. -/
  | reusing (slot : Nat) (previous : Held)
  /-- Waits to put a replacement of a public entry in its place. -/
  | returning (slot : Nat) (previous : Held) (entry : Entry)
  /-- Has the slot for itself to do so. -/
  | swapping (slot : Nat) (previous : Held) (entry : Entry)
  /-- Waits for the map, to give the slot up. -/
  | leaving (slot : Nat) (result : VisitResult)
  /-- Has the map for the last time. -/
  | checking (slot : Nat) (result : VisitResult)
  /-- Has left the map, but not yet its handle. -/
  | dropping (slot : Nat) (result : VisitResult)
  | ended (result : VisitResult)
  /-- The task that made the visit is gone, and the handle with it. -/
  | lost

namespace Phase

/-- The visit works on the map. -/
def atMap : Phase → Bool
  | finding | found _ | checking _ _ => true
  | _ => false

/-- The slot that the visit has a handle of. -/
def handle : Phase → Option Nat
  | arriving | finding | ended _ | lost => none
  | found s | entering s | queueing s _ | scanning s _ | claiming s | sweeping s | producing s _
  | reusing s _ | returning s _ _ | swapping s _ _ | leaving s _ | checking s _ | dropping s _ =>
    some s

/-- The visit reads the variants of this slot. -/
def reading (slot : Nat) : Phase → Bool
  | scanning s _ => s == slot
  | _ => false

/-- The visit has this slot for itself. -/
def writing (slot : Nat) : Phase → Bool
  | sweeping s | producing s _ | swapping s _ _ => s == slot
  | _ => false

/-- The visit waits for the map. -/
def wantsMap : Phase → Bool
  | arriving | leaving _ _ => true
  | _ => false

/-- The visit waits to read this slot. -/
def wantsRead (slot : Nat) : Phase → Bool
  | queueing s _ => s == slot
  | _ => false

/-- The visit waits to have this slot for itself. -/
def wantsWrite (slot : Nat) : Phase → Bool
  | claiming s | returning s _ _ => s == slot
  | _ => false

/-- How the visit has ended. -/
def result : Phase → Option VisitResult
  | ended r => some r
  | _ => none

/-- What the producer has been handed, while it runs. -/
def handed : Phase → Option (Option Held)
  | producing _ previous => some previous
  | reusing _ previous => some (some previous)
  | _ => none

end Phase

/-- A visit of a key. -/
structure Visit where
  key : Bytes
  /-- The entries that would do. -/
  accepts : Entry → Bool
  phase : Phase := .arriving
  /-- Its place among those that wait. -/
  since : Nat

end Store

/-- The store with all visits so far. -/
structure Store where
  /-- The slots in use, by key. -/
  map : List (Bytes × Nat) := []
  /-- The variants of each slot there has been. -/
  slots : List (List Held) := []
  visits : List Store.Visit := []
  /-- The number for the next entry. -/
  nextId : Nat := 0
  /-- The place for the next visit that waits. -/
  nextPlace : Nat := 0

namespace Store

/-! ## Views -/

/-- The slot of a key. -/
def slotOf (s : Store) (key : Bytes) : Option Nat := (s.map.find? (·.1 == key)).map (·.2)

/-- The variants in a slot. -/
def variants (s : Store) (slot : Nat) : List Held := s.slots.getD slot []

/-- The variants stored under a key. -/
def variantsOf (s : Store) (key : Bytes) : List Held :=
  match s.slotOf key with
  | some slot => s.variants slot
  | none => []

/-- How many visits have a handle of a slot. -/
def handles (s : Store) (slot : Nat) : Nat :=
  s.visits.countP fun v => v.phase.handle == some slot

/-- Some visit works on the map. -/
def mapTaken (s : Store) : Bool := s.visits.any fun v => v.phase.atMap

/-- Some visit has the slot for itself. -/
def slotTaken (s : Store) (slot : Nat) : Bool := s.visits.any fun v => v.phase.writing slot

/-- Some visit reads the slot. -/
def slotRead (s : Store) (slot : Nat) : Bool := s.visits.any fun v => v.phase.reading slot

/-- No visit for which `wants` holds began to wait before this place. -/
def isFirst (s : Store) (wants : Phase → Bool) (place : Nat) : Bool :=
  s.visits.all fun v => !wants v.phase || place ≤ v.since

/-- The map is free, and the visit in this place is the first to want it. -/
def mapOpens (s : Store) (place : Nat) : Bool := !s.mapTaken && s.isFirst Phase.wantsMap place

/-- The visit in this place may read the slot: nobody has it for itself, nor waits for that
longer. -/
def readOpens (s : Store) (slot place : Nat) : Bool :=
  !s.slotTaken slot && s.isFirst (Phase.wantsWrite slot) place

/-- The visit in this place may have the slot for itself: nobody uses it, nor waits for it
longer. -/
def writeOpens (s : Store) (slot place : Nat) : Bool :=
  !s.slotTaken slot && !s.slotRead slot &&
    s.isFirst (fun p => p.wantsRead slot || p.wantsWrite slot) place

/-! ## Changes -/

/-- Change one visit. -/
def setVisit (s : Store) (i : Nat) (v : Visit) : Store := { s with visits := s.visits.set i v }

/-- A visit moves on without having to wait. -/
def moveTo (s : Store) (i : Nat) (v : Visit) (phase : Phase) : Store :=
  s.setVisit i { v with phase }

/-- A visit begins to wait. -/
def waitIn (s : Store) (i : Nat) (v : Visit) (phase : Phase) : Store :=
  { s.setVisit i { v with phase, since := s.nextPlace } with nextPlace := s.nextPlace + 1 }

/-- Change the variants in a slot. -/
def setVariants (s : Store) (slot : Nat) (held : List Held) : Store :=
  { s with slots := s.slots.set slot held }

/-- Begin a visit; the second part is its number. -/
def begin (s : Store) (key : Bytes) (accepts : Entry → Bool) : Store × Nat :=
  ({ s with
      visits := s.visits ++ [{ key, accepts, since := s.nextPlace }]
      nextPlace := s.nextPlace + 1 },
    s.visits.length)

/-- The slot of a key, made when there is none. -/
def ensureSlot (s : Store) (key : Bytes) : Store × Nat :=
  match s.slotOf key with
  | some slot => (s, slot)
  | none =>
    ({ s with map := s.map ++ [(key, s.slots.length)], slots := s.slots ++ [[]] }, s.slots.length)

/-- Take the slot of a key out of the map. -/
def dropSlot (s : Store) (key : Bytes) : Store :=
  { s with map := s.map.filter fun p => p.1 != key }

/-- Put an entry after the variants of a slot, in place of the one handed to the producer: that very
one is taken out, if it is still there. -/
def replaceIn (s : Store) (slot : Nat) (previous : Option Held) (entry : Entry) : Store :=
  let kept :=
    match previous with
    | some p => (s.variants slot).filter fun h => h.id != p.id
    | none => s.variants slot
  { s.setVariants slot (kept ++ [⟨s.nextId, entry⟩]) with nextId := s.nextId + 1 }

/-! ## Steps -/

/-- The first variant that is fresh and would do, if it is public. -/
def freshPublic (accepts : Entry → Bool) (now : Instant) (held : List Held) : Option Held :=
  match held.find? fun h => !h.entry.expired now && accepts h.entry with
  | some h => if h.entry.isPublic then some h else none
  | none => none

/-- The slot is given up when nobody else has a handle of it, it is the key's slot in the map, and
it holds nothing. -/
def givesUp (s : Store) (key : Bytes) (slot : Nat) : Bool :=
  s.handles slot == 1 && s.slotOf key == some slot && !s.slotTaken slot && (s.variants slot).isEmpty

/-- The next step of a visit at a clock reading; `none` while it waits, while its producer runs, and
when it is over. -/
def step (s : Store) (now : Instant) (i : Nat) : Option Store :=
  match s.visits[i]? with
  | none => none
  | some v =>
    match v.phase with
    | .arriving => if s.mapOpens v.since then some (s.moveTo i v .finding) else none
    | .finding =>
      let (s', slot) := s.ensureSlot v.key
      some (s'.moveTo i v (.found slot))
    | .found slot => some (s.moveTo i v (.entering slot))
    | .entering slot => some (s.waitIn i v (.queueing slot now))
    | .queueing slot read =>
      if s.readOpens slot v.since then some (s.moveTo i v (.scanning slot read)) else none
    | .scanning slot read =>
      match freshPublic v.accepts read (s.variants slot) with
      | some h => some (s.moveTo i v (.reusing slot h))
      | none => some (s.waitIn i v (.claiming slot))
    | .claiming slot =>
      if s.writeOpens slot v.since then some (s.moveTo i v (.sweeping slot)) else none
    | .sweeping slot =>
      let fresh := (s.variants slot).filter fun h => !h.entry.expired now
      let s' := s.setVariants slot fresh
      match fresh.find? fun h => v.accepts h.entry with
      | some h =>
        if h.entry.isPublic then some (s'.moveTo i v (.reusing slot h))
        else some (s'.moveTo i v (.producing slot (some h)))
      | none => some (s'.moveTo i v (.producing slot none))
    | .producing _ _ | .reusing _ _ => none
    | .returning slot previous entry =>
      if s.writeOpens slot v.since then some (s.moveTo i v (.swapping slot previous entry))
      else none
    | .swapping slot previous entry =>
      some ((s.replaceIn slot (some previous) entry).waitIn i v (.leaving slot (.ok ())))
    | .leaving slot result =>
      if s.mapOpens v.since then some (s.moveTo i v (.checking slot result)) else none
    | .checking slot result =>
      let s' := if s.givesUp v.key slot then s.dropSlot v.key else s
      some (s'.moveTo i v (.dropping slot result))
    | .dropping _ result => some (s.moveTo i v (.ended result))
    | .ended _ | .lost => none

/-- The producer of a visit decides; `none` unless it runs. -/
def finish (s : Store) (i : Nat) (outcome : Outcome) : Option Store :=
  match s.visits[i]? with
  | none => none
  | some v =>
    match v.phase, outcome with
    | .producing slot previous, .replace entry =>
      some ((s.replaceIn slot previous entry).waitIn i v (.leaving slot (.ok ())))
    | .producing slot _, .keep | .reusing slot _, .keep =>
      some (s.waitIn i v (.leaving slot (.ok ())))
    | .producing slot _, .fail e | .reusing slot _, .fail e =>
      some (s.waitIn i v (.leaving slot (.error e)))
    | .reusing slot previous, .replace entry => some (s.waitIn i v (.returning slot previous entry))
    | _, _ => none

/-- The task that made the visit is gone: every lock is free again, and nothing is looked after. -/
def lose (s : Store) (i : Nat) : Store :=
  match s.visits[i]? with
  | none => s
  | some v => s.moveTo i v .lost

/-! ## What a visitor sees -/

/-- What the producer of a visit has been handed, while it runs. -/
def handed (s : Store) (i : Nat) : Option (Option Held) :=
  (s.visits[i]?).bind fun v => v.phase.handed

/-- How a visit has ended. -/
def result (s : Store) (i : Nat) : Option VisitResult :=
  (s.visits[i]?).bind fun v => v.phase.result

/-- The key's slot is taken by a visit whose producer runs. -/
def blocked (s : Store) (key : Bytes) : Bool :=
  match s.slotOf key with
  | some slot => s.slotTaken slot
  | none => false

/-- The unexpired entries of a key, in the order of the store. -/
def unexpired (s : Store) (key : Bytes) (now : Instant) : List Entry :=
  ((s.variantsOf key).map (·.entry)).filter fun e => !e.expired now

end Store
end EdgeCache
