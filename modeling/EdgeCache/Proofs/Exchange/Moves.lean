import EdgeCache.Proofs.Store.Contents
import EdgeCache.Exchange.World

/-!
# The moves of a world

`Turn` says once what a step of a task can be: in which stage the exchange is, what becomes of the
exchange, and what of the rest of the world.  `happen_cases` reads everything that can happen as a
turn of one exchange, or as something from outside (`Outside`), which at most adds an exchange or
changes the links of clients; and every turn can be taken (`Turn.happens`).  What a turn logs is
left open; but for that (`accesses_step`) no later proof unfolds `World.step`.
-/

set_option autoImplicit false

namespace EdgeCache

/-- The client of a hit, with the head of the entry. -/
def Client.present (c : Client) (front : Front) (e : Entry) : Client :=
  (c.edit fun h => (front.mark .hit h).appendAll e.head.headers).commit e.head.status

/-- The head as it is stored: without the indicator. -/
def Front.kept (front : Front) (head : Head) : Head := ⟨head.status, front.unmark head.headers⟩

/-- What is stored of a response that may not be replayed. -/
def Front.privately (front : Front) (draft : Entry) (head : Head) : Entry :=
  { draft with head := front.kept head }

/-- What is stored of a response that may be replayed until then, with a growing body. -/
def Front.publicly (front : Front) (draft : Entry) (head : Head) (expiration : Instant) (id : Nat) :
    Entry :=
  { draft with isPublic := true, expiration, head := front.kept head, body := some (.growing id) }

/-- Why a visit has failed, if it has. -/
def failureOf : VisitResult → Option CacheError
  | .ok _ => none
  | .error e => some e

namespace World

/-- The world when the producer of a visit has decided. -/
def concluding (w : World) (visit : Nat) (outcome : Outcome) : World :=
  { w with store := (w.store.finish visit outcome).getD w.store }

/-- The world without the task that made a visit. -/
def losing (w : World) (visit : Nat) : World := { w with store := w.store.lose visit }

/-- The world with one more growing body. -/
def opening (w : World) : World :=
  { w with sinks := w.sinks + 1, bodies := w.bodies ++ [Growing.empty] }

/-! ## What changes of a world leave as it was -/

section Frame

variable (w : World) (front : Front)

@[simp] theorem absorb_exchanges (e : Option Event) :
    (w.absorb front e).exchanges = w.exchanges := by
  rcases e with _ | _ | _ <;> rfl

@[simp] theorem absorb_store (e : Option Event) : (w.absorb front e).store = w.store := by
  rcases e with _ | _ | _ <;> rfl

@[simp] theorem absorb_bodies (e : Option Event) : (w.absorb front e).bodies = w.bodies := by
  rcases e with _ | _ | _ <;> rfl

@[simp] theorem absorb_clock (e : Option Event) : (w.absorb front e).clock = w.clock := by
  rcases e with _ | _ | _ <;> rfl

@[simp] theorem absorb_calls (e : Option Event) : (w.absorb front e).calls = w.calls := by
  rcases e with _ | _ | _ <;> rfl

@[simp] theorem absorb_sinks (e : Option Event) : (w.absorb front e).sinks = w.sinks := by
  rcases e with _ | _ | _ <;> rfl

@[simp] theorem note_exchanges (lines : List Log.Line) :
    (w.note front lines).exchanges = w.exchanges := rfl

@[simp] theorem note_store (lines : List Log.Line) : (w.note front lines).store = w.store := rfl

@[simp] theorem note_bodies (lines : List Log.Line) : (w.note front lines).bodies = w.bodies := rfl

@[simp] theorem concluding_exchanges (visit : Nat) (o : Outcome) :
    (w.concluding visit o).exchanges = w.exchanges := rfl

@[simp] theorem concluding_bodies (visit : Nat) (o : Outcome) :
    (w.concluding visit o).bodies = w.bodies := rfl

@[simp] theorem losing_exchanges (visit : Nat) : (w.losing visit).exchanges = w.exchanges := rfl

@[simp] theorem losing_bodies (visit : Nat) : (w.losing visit).bodies = w.bodies := rfl

@[simp] theorem opening_exchanges : w.opening.exchanges = w.exchanges := rfl

@[simp] theorem opening_store : w.opening.store = w.store := rfl

@[simp] theorem opening_bodies : w.opening.bodies = w.bodies ++ [Growing.empty] := rfl

@[simp] theorem modifyBody_exchanges (id : Nat) (change : Growing → Growing) :
    (w.modifyBody id change).exchanges = w.exchanges := rfl

@[simp] theorem modifyBody_store (id : Nat) (change : Growing → Growing) :
    (w.modifyBody id change).store = w.store := rfl

@[simp] theorem modifyBody_bodies (id : Nat) (change : Growing → Growing) :
    (w.modifyBody id change).bodies = w.bodies.modify id change := rfl

@[simp] theorem put_store (i : Nat) (x : Exchange) : (w.put i x).store = w.store := rfl

@[simp] theorem put_bodies (i : Nat) (x : Exchange) : (w.put i x).bodies = w.bodies := rfl

@[simp] theorem put_exchanges (i : Nat) (x : Exchange) :
    (w.put i x).exchanges = w.exchanges.set i x := rfl

end Frame

/-! ## Turns -/

/-- One step of one task of the exchange `x` of number `i`: what becomes of the exchange, and of the
rest of the world. -/
inductive Turn (front : Front) (w : World) (i : Nat) (x : Exchange) :
    Actor → Exchange → World → Prop
  | enter (h : x.stage = .arrived) (he : front.eligible x.request = true) :
      Turn front w i x .front { x with stage := .visiting w.store.visits.length }
        { w with store := (w.store.begin x.key fun e => e.answers x.request.headers).1 }
  | skip (h : x.stage = .arrived) (he : front.eligible x.request = false) :
      Turn front w i x .front
        { x with
            own := x.own.edit (front.mark .skip), cache := .skip
            stage := .forwarding (Front.forward x.request.isHead (front.respond i x.request)) }
        { w with calls := w.calls + 1 }
  | forward {script : Script Handled} {m : Moved Client Handled} (h : x.stage = .forwarding script)
      (hm : script.step Client.writer w.gates x.own = some m) :
      Turn front w i x .front { x with own := m.writer, stage := .forwarding m.script }
        ({ w with gates := m.gates }.absorb front m.event)
  | forwarded {outcome : Handled} (h : x.stage = .forwarding (.done outcome)) :
      Turn front w i x .front { x with own := x.own.release, stage := .reporting outcome } w
  | dieForwarding {message : String} (h : x.stage = .forwarding (.die message)) :
      Turn front w i x .front { x with stage := .died, own := x.own.release } w
  | replay {visit : Nat} {held : Held} {body : StoredBody} (h : x.stage = .visiting visit)
      (hh : w.store.handed visit = some (some held)) (hpublic : held.entry.isPublic = true)
      (hbody : held.entry.body = some body) :
      Turn front w i x .front
        { x with
            own := x.own.present front held.entry, cache := .hit, status := held.entry.head.status
            stage := .replaying visit body {} } w
  | replayHead {visit : Nat} {held : Held} (h : x.stage = .visiting visit)
      (hh : w.store.handed visit = some (some held)) (hpublic : held.entry.isPublic = true)
      (hbody : held.entry.body = none) :
      Turn front w i x .front
        { x with
            own := (x.own.present front held.entry).release, cache := .hit
            status := held.entry.head.status, stage := .visiting visit }
        (w.concluding visit .keep)
  | ask {visit : Nat} {previous : Option Held} {expiration : Instant}
      (h : x.stage = .visiting visit)
      (hh : w.store.handed visit = some previous)
      (hprivate : ∀ held, previous = some held → held.entry.isPublic = false)
      (hexp : w.clock.add? front.settings.defaultWindow = some expiration) :
      Turn front w i x .front
        { x with
            own := x.own.edit (front.mark .miss)
            fetch := some (Fetch.start (x.own.edit (front.mark .miss)) front.settings.bodyBuffer
              x.request.isHead (front.respond i x.request))
            stage := .fetching visit (Entry.speculative x.request.headers expiration) }
        { w with calls := w.calls + 1 }
  | dieAsking {visit : Nat} {previous : Option Held} (h : x.stage = .visiting visit)
      (hh : w.store.handed visit = some previous)
      (hprivate : ∀ held, previous = some held → held.entry.isPublic = false)
      (hexp : w.clock.add? front.settings.defaultWindow = none) :
      Turn front w i x .front
        { x with own := (x.own.edit (front.mark .miss)).release, stage := .died } (w.losing visit)
  | leave {visit : Nat} {result : VisitResult} (lines : List Log.Line)
      (h : x.stage = .visiting visit) (hh : w.store.handed visit = none)
      (hr : w.store.result visit = some result) :
      Turn front w i x .front { x with stage := .joining result } (w.note front lines)
  | step {visit : Nat} {store : Store} (h : x.stage = .visiting visit)
      (hh : w.store.handed visit = none) (hr : w.store.result visit = none)
      (hs : w.store.step w.clock visit = some store) : Turn front w i x .front x { w with store }
  | turn {visit : Nat} {body : StoredBody} {reader r : Reader}
      (h : x.stage = .replaying visit body reader) (hr : reader.read w.bodies body = .turning r) :
      Turn front w i x .front { x with stage := .replaying visit body r } w
  | read {visit : Nat} {body : StoredBody} {reader r : Reader} {data : Bytes}
      (h : x.stage = .replaying visit body reader)
      (hr : reader.read w.bodies body = .chunk data r) :
      Turn front w i x .front { x with stage := .relaying visit body r data } w
  | readAll {visit : Nat} {body : StoredBody} {reader : Reader}
      (h : x.stage = .replaying visit body reader) (hr : reader.read w.bodies body = .finish) :
      Turn front w i x .front { x with own := x.own.release, stage := .visiting visit }
        (w.concluding visit .keep)
  | readFailed {visit : Nat} {body : StoredBody} {reader : Reader} {text : String}
      (lines : List Log.Line) (h : x.stage = .replaying visit body reader)
      (hr : reader.read w.bodies body = .failure text) :
      Turn front w i x .front { x with own := x.own.release, stage := .visiting visit }
        ((w.note front lines).concluding visit .keep)
  | relayPartly {visit : Nat} {body : StoredBody} {reader : Reader} {chunk : Bytes} {c : Client}
      (h : x.stage = .relaying visit body reader chunk) (hc : x.own.write chunk = .partly c) :
      Turn front w i x .front { x with own := c } w
  | relay {visit : Nat} {body : StoredBody} {reader : Reader} {chunk : Bytes} {c : Client}
      (h : x.stage = .relaying visit body reader chunk)
      (hc : x.own.write chunk = .finished c none) :
      Turn front w i x .front { x with own := c, stage := .replaying visit body reader } w
  | relayFailed {visit : Nat} {body : StoredBody} {reader : Reader} {chunk : Bytes} {c : Client}
      {failure : IoError} (h : x.stage = .relaying visit body reader chunk)
      (hc : x.own.write chunk = .finished c (some failure)) :
      Turn front w i x .front { x with own := c.release, stage := .visiting visit }
        (w.concluding visit .keep)
  | decideFail {visit : Nat} {draft : Entry} {f : Fetch} {head : Head} {text : String}
      (h : x.stage = .fetching visit draft) (hf : x.fetch = some f)
      (hhead : f.tee.announced = some head)
      (hpol : front.policy x.request head w.clock = .error text) :
      Turn front w i x .front { x with fetch := some f.unwatch, stage := .visiting visit }
        (w.concluding visit (.fail (.policy text)))
  | discard {visit : Nat} {draft : Entry} {f : Fetch} {head : Head} {verdict : Cacheability}
      (lines : List Log.Line) (h : x.stage = .fetching visit draft) (hf : x.fetch = some f)
      (hhead : f.tee.announced = some head)
      (hpol : front.policy x.request head w.clock = .ok verdict)
      (hv : verdict.cacheable = false) :
      Turn front w i x .front
        { x with
            copier := some (.drain false), joins := true, status := head.status
            stage := .visiting visit }
        ((w.note front lines).concluding visit (.replace (front.privately draft head)))
  | openFail {visit : Nat} {draft : Entry} {f : Fetch} {head : Head} {verdict : Cacheability}
      {text : String}
      (h : x.stage = .fetching visit draft) (hf : x.fetch = some f)
      (hhead : f.tee.announced = some head)
      (hpol : front.policy x.request head w.clock = .ok verdict)
      (hv : verdict.cacheable = true) (ho : front.faults.opening w.sinks = some text) :
      Turn front w i x .front { x with fetch := some f.unwatch, stage := .visiting visit }
        ({ w with sinks := w.sinks + 1 }.concluding visit (.fail (.storage text)))
  | keep {visit : Nat} {draft : Entry} {f : Fetch} {head : Head} {verdict : Cacheability}
      (lines : List Log.Line) (h : x.stage = .fetching visit draft) (hf : x.fetch = some f)
      (hhead : f.tee.announced = some head)
      (hpol : front.policy x.request head w.clock = .ok verdict)
      (hv : verdict.cacheable = true) (ho : front.faults.opening w.sinks = none) :
      Turn front w i x .front
        { x with
            copier := some (.pump w.sinks w.bodies.length false 0 0 .taking), joins := true
            status := head.status, stage := .visiting visit }
        ((w.opening.note front lines).concluding visit
          (.replace (front.publicly draft head verdict.expiresAt w.bodies.length)))
  | loseHead {visit : Nat} {draft : Entry} {f : Fetch} (h : x.stage = .fetching visit draft)
      (hf : x.fetch = some f) (hhead : f.tee.announced = none) (hend : f.ending.isSome = true) :
      Turn front w i x .front { x with fetch := some f.unwatch, stage := .visiting visit }
        (w.concluding visit (.fail .headersUnavailable))
  | join {result : VisitResult} (lines : List Log.Line) (h : x.stage = .joining result)
      (hj : x.joins = true → ∃ f, x.fetch = some f ∧ f.ending.isSome = true) :
      Turn front w i x .front { x with stage := .closing result } (w.note front lines)
  | close {result : VisitResult} (lines : List Log.Line) (h : x.stage = .closing result)
      (hj : x.joins = true → (x.copier.map Copier.isOver).getD true = true) :
      Turn front w i x .front
        { x with stage := .reporting ⟨x.status, x.cache, failureOf result⟩ } (w.note front lines)
  | report {outcome : Handled} (h : x.stage = .reporting outcome) :
      Turn front w i x .front { x with stage := .finished outcome }
        (w.note front (match x.access with
          | some entry =>
            [⟨Log.Level.access, (x.completeAccess w.clock outcome entry).format front.accessFormat⟩]
          | none => []))
  | origin {f f' : Fetch} {gates : Gates} {event : Option Event} (hf : x.fetch = some f)
      (hs : f.step w.gates = some (f', gates, event)) :
      Turn front w i x .origin { x with fetch := some f' } ({ w with gates }.absorb front event)
  | drain {f f' : Fetch} {data : Bytes} (hc : x.copier = some (.drain false))
      (hf : x.fetch = some f)
      (hr : f.receive = (.chunk data, f')) : Turn front w i x .copier { x with fetch := some f' } w
  | drained {f : Fetch} (hc : x.copier = some (.drain false)) (hf : x.fetch = some f)
      (hr : f.receive.1 = .finish ∨ f.receive.1 = .gone) :
      Turn front w i x .copier { x with copier := some (.drain true) } w
  | pump {sink body writes stored : Nat} {failed : Bool} {f f' : Fetch} {data : Bytes}
      (hc : x.copier = some (.pump sink body failed writes stored .taking)) (hf : x.fetch = some f)
      (hr : f.receive = (.chunk data, f')) :
      Turn front w i x .copier
        { x with
            fetch := some f'
            copier := some (.pump sink body failed writes stored
              (if failed then .taking else .writing data)) } w
  | pumped {sink body writes stored : Nat} {failed : Bool} {f : Fetch}
      (hc : x.copier = some (.pump sink body failed writes stored .taking)) (hf : x.fetch = some f)
      (hr : f.receive.1 = .finish ∨ f.receive.1 = .gone) :
      Turn front w i x .copier
        { x with copier := some (.pump sink body failed writes stored .closing) } w
  | writeFail {sink body writes stored : Nat} {failed : Bool} {data : Bytes} {text : String}
      (lines : List Log.Line)
      (hc : x.copier = some (.pump sink body failed writes stored (.writing data)))
      (hw : front.faults.writing sink writes = some text) :
      Turn front w i x .copier
        { x with copier := some (.pump sink body true (writes + 1) stored .taking) }
        (w.note front lines)
  | write {sink body writes stored : Nat} {failed : Bool} {data : Bytes}
      (hc : x.copier = some (.pump sink body failed writes stored (.writing data)))
      (hw : front.faults.writing sink writes = none) :
      Turn front w i x .copier
        { x with
            copier := some (.pump sink body failed (writes + 1) (stored + data.length) .taking) }
        (w.modifyBody body fun g => g.write data)
  | stop {sink body writes stored : Nat} {failed : Bool} (lines : List Log.Line)
      (hc : x.copier = some (.pump sink body failed writes stored .closing)) :
      Turn front w i x .copier
        { x with copier := some (.pump sink body failed writes stored .stopped) }
        ((w.modifyBody body Growing.close).note front lines)

theorem put_absorb (w : World) (front : Front) (i : Nat) (x : Exchange) (event : Option Event) :
    (w.put i x).absorb front event = (w.absorb front event).put i x := by
  cases event with
  | none => rfl
  | some e => cases e <;> rfl

theorem put_self {w : World} {i : Nat} {x : Exchange} (hx : w.exchanges[i]? = some x) :
    w.put i x = w := by
  obtain ⟨hi, rfl⟩ := List.getElem?_eq_some_iff.1 hx
  rw [put, List.set_getElem_self]

theorem replay_turn {front : Front} {w : World} {i visit : Nat} {x : Exchange} {held : Held}
    (h : x.stage = .visiting visit) (hh : w.store.handed visit = some (some held))
    (hpublic : held.entry.isPublic = true) :
    ∃ x' b, Turn front w i x .front x' b ∧ w.replay front i x visit held.entry = b.put i x' := by
  cases hbody : held.entry.body with
  | none =>
    refine ⟨_, _, .replayHead h hh hpublic hbody, ?_⟩
    rw [replay, hbody]
    rfl
  | some body =>
    refine ⟨_, _, .replay h hh hpublic hbody, ?_⟩
    rw [replay, hbody]
    rfl

theorem ask_turn {front : Front} {w : World} {i visit : Nat} {x : Exchange} {previous : Option Held}
    (h : x.stage = .visiting visit) (hh : w.store.handed visit = some previous)
    (hprivate : ∀ held, previous = some held → held.entry.isPublic = false) :
    ∃ x' b, Turn front w i x .front x' b ∧ w.ask front i x visit = b.put i x' := by
  cases hexp : w.clock.add? front.settings.defaultWindow with
  | none =>
    refine ⟨_, _, .dieAsking h hh hprivate hexp, ?_⟩
    simp only [ask, hexp]
    rfl
  | some expiration =>
    refine ⟨_, _, .ask h hh hprivate hexp, ?_⟩
    simp only [ask, hexp]

theorem decide_turn {front : Front} {w : World} {i visit : Nat} {x : Exchange} {f : Fetch}
    {draft : Entry} {head : Head} (h : x.stage = .fetching visit draft) (hf : x.fetch = some f)
    (hhead : f.tee.announced = some head) :
    ∃ x' b, Turn front w i x .front x' b ∧ w.decide front i x f visit draft head = b.put i x' := by
  cases hpol : front.policy x.request head w.clock with
  | error text =>
    refine ⟨_, _, .decideFail h hf hhead hpol, ?_⟩
    simp only [decide, hpol, conclude]
    rfl
  | ok verdict =>
    cases hv : verdict.cacheable with
    | false =>
      refine ⟨_, _, .discard [.debug ("[Cache] " ++ x.keyText ++ " not cacheable (" ++
        head.status.describe ++ "), discarding body")] h hf hhead hpol hv, ?_⟩
      simp only [decide, hpol, hv, Bool.not_false, if_true]
      rfl
    | true =>
      cases ho : front.faults.opening w.sinks with
      | some text =>
        refine ⟨_, _, .openFail h hf hhead hpol hv ho, ?_⟩
        simp only [decide, hpol, hv, ho, Bool.not_true, Bool.false_eq_true, if_false]
        rfl
      | none =>
        refine ⟨_, _, .keep [.debug ("[Cache] Opened body sink for " ++ x.keyText)] h hf hhead
          hpol hv
          ho, ?_⟩
        simp only [decide, hpol, hv, ho, Bool.not_true, Bool.false_eq_true, if_false]
        rfl

/-- What the front does is a turn. -/
theorem frontStep_cases {front : Front} {w w' : World} {i : Nat}
    (h : w.frontStep front i = some w') :
    ∃ x x' b, w.exchanges[i]? = some x ∧ Turn front w i x .front x' b ∧ w' = b.put i x' := by
  rw [frontStep] at h
  cases hx : w.exchanges[i]? with
  | none => simp [hx] at h
  | some x =>
    simp only [hx] at h
    refine ⟨x, ?_⟩
    suffices hsuff : ∃ x' b, Turn front w i x .front x' b ∧ w' = b.put i x' by
      obtain ⟨x', b, ht, hw⟩ := hsuff
      exact ⟨x', b, rfl, ht, hw⟩
    cases hs : x.stage with
    | arrived =>
      simp only [hs, Option.some.injEq] at h
      subst h
      cases he : front.eligible x.request with
      | true => exact ⟨_, _, .enter hs he, by simp only [enter, he, if_true]; rfl⟩
      | false => exact ⟨_, _, .skip hs he, by simp only [enter, he]; rfl⟩
    | forwarding script =>
      simp only [hs] at h
      split at h
      · rw [Option.some.injEq] at h
        exact ⟨_, _, .forwarded hs, h.symm⟩
      · rw [Option.some.injEq] at h
        exact ⟨_, _, .dieForwarding hs, h.symm⟩
      · split at h
        · exact absurd h (by simp)
        · next m hm =>
          rw [Option.some.injEq] at h
          exact ⟨_, _, .forward hs hm, by rw [← h, put_absorb]⟩
    | visiting visit =>
      simp only [hs] at h
      split at h
      · next held hh =>
        split at h <;> rw [Option.some.injEq] at h <;> subst h
        · next hpublic => exact replay_turn hs hh hpublic
        · next hprivate =>
          refine ask_turn hs hh ?_
          rintro held' ⟨rfl⟩
          simpa using hprivate
      · next hh =>
        rw [Option.some.injEq] at h
        subst h
        exact ask_turn hs hh (by simp)
      · next hh =>
        split at h
        · next result hr =>
          rw [Option.some.injEq] at h
          exact ⟨_, _, .leave _ hs hh hr, h.symm⟩
        · next hr =>
          obtain ⟨store, hst, rfl⟩ := Option.map_eq_some_iff.1 h
          refine ⟨_, _, .step hs hh hr hst, ?_⟩
          rw [put_self (by exact hx)]
    | replaying visit body reader =>
      simp only [hs] at h
      split at h
      · exact absurd h (by simp)
      · next hr => exact ⟨_, _, .turn hs hr, (Option.some.inj h).symm⟩
      · next hr => exact ⟨_, _, .read hs hr, (Option.some.inj h).symm⟩
      · next hr => exact ⟨_, _, .readAll hs hr, (Option.some.inj h).symm⟩
      · next hr => exact ⟨_, _, .readFailed _ hs hr, (Option.some.inj h).symm⟩
    | relaying visit body reader chunk =>
      simp only [hs] at h
      split at h
      · exact absurd h (by simp)
      · next hc => exact ⟨_, _, .relayPartly hs hc, by rw [← Option.some.inj h, hs]⟩
      · next hc => exact ⟨_, _, .relay hs hc, (Option.some.inj h).symm⟩
      · next hc => exact ⟨_, _, .relayFailed hs hc, (Option.some.inj h).symm⟩
    | fetching visit draft =>
      simp only [hs] at h
      split at h
      · exact absurd h (by simp)
      · next f hf =>
        rw [Fetch.headEvent] at h
        cases hhead : f.tee.announced with
        | some head =>
          simp only [hhead, Option.some.injEq] at h
          subst h
          exact decide_turn hs hf hhead
        | none =>
          cases hend : f.ending.isSome with
          | false => simp [hhead, hend] at h
          | true =>
            simp only [hhead, hend, if_true, Option.some.injEq] at h
            exact ⟨_, _, .loseHead hs hf hhead hend, h.symm⟩
    | joining result =>
      simp only [hs] at h
      split at h
      · next hj =>
        rw [Option.some.injEq] at h
        refine ⟨_, _, .join [] hs ?_, by rw [← h]; simp [note, Log.extend]⟩
        simp_all
      · next hj =>
        split at h
        · exact absurd h (by simp)
        · next f hf =>
          split at h
          · next hend =>
            rw [Option.some.injEq] at h
            exact ⟨_, _, .join _ hs fun _ => ⟨f, hf, hend⟩, h.symm⟩
          · exact absurd h (by simp)
    | closing result =>
      simp only [hs] at h
      split at h
      · exact absurd h (by simp)
      · next hj =>
        rw [Option.some.injEq] at h
        refine ⟨_, _, .close _ hs ?_, h.symm⟩
        simp_all
    | reporting outcome =>
      simp only [hs, Option.some.injEq] at h
      exact ⟨_, _, .report hs, h.symm⟩
    | finished outcome => simp [hs] at h
    | died => simp [hs] at h

theorem originStep_cases {front : Front} {w w' : World} {i : Nat}
    (h : w.originStep front i = some w') :
    ∃ x x' b, w.exchanges[i]? = some x ∧ Turn front w i x .origin x' b ∧ w' = b.put i x' := by
  rw [originStep] at h
  split at h
  · exact absurd h (by simp)
  · next x hx =>
    split at h
    · exact absurd h (by simp)
    · next f hf =>
      split at h
      · exact absurd h (by simp)
      · next f' gates event hs =>
        rw [Option.some.injEq] at h
        exact ⟨x, _, _, hx, .origin hf hs, by rw [← h, put_absorb]⟩

theorem copierStep_cases {front : Front} {w w' : World} {i : Nat}
    (h : w.copierStep front i = some w') :
    ∃ x x' b, w.exchanges[i]? = some x ∧ Turn front w i x .copier x' b ∧ w' = b.put i x' := by
  rw [copierStep] at h
  split at h
  · exact absurd h (by simp)
  · next x hx =>
    refine ⟨x, ?_⟩
    suffices hsuff : ∃ x' b, Turn front w i x .copier x' b ∧ w' = b.put i x' by
      obtain ⟨x', b, ht, hw⟩ := hsuff
      exact ⟨x', b, hx, ht, hw⟩
    split at h
    · next f hc hf =>
      split at h
      · next hr => exact ⟨_, _, .drain hc hf hr, (Option.some.inj h).symm⟩
      · exact absurd h (by simp)
      · next frame _ hne hne' hr =>
        refine ⟨_, _, .drained hc hf ?_, (Option.some.inj h).symm⟩
        cases frame <;> simp_all
    · next hc hf =>
      split at h
      · next hr => exact ⟨_, _, .pump hc hf hr, (Option.some.inj h).symm⟩
      · exact absurd h (by simp)
      · next frame _ hne hne' hr =>
        refine ⟨_, _, .pumped hc hf ?_, (Option.some.inj h).symm⟩
        cases frame <;> simp_all
    · next hc =>
      split at h <;> rw [Option.some.injEq] at h
      · next hw => exact ⟨_, _, .writeFail _ hc hw, h.symm⟩
      · next hw => exact ⟨_, _, .write hc hw, h.symm⟩
    · next hc =>
      rw [Option.some.injEq] at h
      exact ⟨_, _, .stop _ hc, h.symm⟩
    · exact absurd h (by simp)

/-! ### And back

What a turn says is what becomes of the world, but for the lines that are logged. -/

theorem Turn.frontStep_eq {front : Front} {w b : World} {i : Nat} {x x' : Exchange}
    (ht : Turn front w i x .front x' b) (hx : w.exchanges[i]? = some x) :
    ∃ log, w.frontStep front i = some { b.put i x' with log } := by
  cases ht with
  | enter h he =>
    simp only [frontStep, hx, h, World.enter, he, if_true]
    exact ⟨_, rfl⟩
  | skip h he =>
    simp only [frontStep, hx, h, World.enter, he, Bool.false_eq_true, if_false]
    exact ⟨_, rfl⟩
  | @forward script m h hm =>
    refine ⟨(w.absorb front m.event).log, ?_⟩
    cases script with
    | done | die => exact absurd hm (by simp [Script.step])
    | _ =>
      simp only [frontStep, hx, h, hm]
      rw [put_absorb]
      rcases m.event with _ | _ | _ <;> rfl
  | forwarded h | dieForwarding h | report h =>
    simp only [frontStep, hx, h]
    exact ⟨_, rfl⟩
  | replay h hh hpublic hbody | replayHead h hh hpublic hbody =>
    simp only [frontStep, hx, h, hh, hpublic, if_true, World.replay, hbody]
    exact ⟨_, rfl⟩
  | @ask visit previous expiration h hh hprivate hexp =>
    cases previous with
    | none =>
      simp only [frontStep, hx, h, hh, World.ask, hexp]
      exact ⟨_, rfl⟩
    | some held =>
      simp only [frontStep, hx, h, hh, hprivate held rfl, Bool.false_eq_true, if_false,
        World.ask, hexp]
      exact ⟨_, rfl⟩
  | @dieAsking visit previous h hh hprivate hexp =>
    cases previous with
    | none =>
      simp only [frontStep, hx, h, hh, World.ask, hexp]
      exact ⟨_, rfl⟩
    | some held =>
      simp only [frontStep, hx, h, hh, hprivate held rfl, Bool.false_eq_true, if_false,
        World.ask, hexp]
      exact ⟨_, rfl⟩
  | leave lines h hh hr =>
    simp only [frontStep, hx, h, hh, hr]
    exact ⟨_, rfl⟩
  | @step visit store h hh hr hs =>
    simp only [frontStep, hx, h, hh, hr, hs, Option.map_some]
    refine ⟨w.log, ?_⟩
    rw [put_self (by exact hx)]
  | turn h hr | read h hr | readAll h hr | readFailed lines h hr =>
    simp only [frontStep, hx, h, hr]
    exact ⟨_, rfl⟩
  | relayPartly h hc =>
    simp only [frontStep, hx, h, hc]
    exact ⟨w.log, by rw [← h]; rfl⟩
  | relay h hc | relayFailed h hc =>
    simp only [frontStep, hx, h, hc]
    exact ⟨_, rfl⟩
  | decideFail h hf hhead hpol =>
    simp only [frontStep, hx, h, hf, Fetch.headEvent, hhead, World.decide, hpol]
    exact ⟨_, rfl⟩
  | discard lines h hf hhead hpol hv =>
    simp only [frontStep, hx, h, hf, Fetch.headEvent, hhead, World.decide, hpol, hv,
      Bool.not_false, if_true]
    exact ⟨_, rfl⟩
  | openFail h hf hhead hpol hv ho =>
    simp only [frontStep, hx, h, hf, Fetch.headEvent, hhead, World.decide, hpol, hv, ho,
      Bool.not_true, Bool.false_eq_true, if_false]
    exact ⟨_, rfl⟩
  | keep lines h hf hhead hpol hv ho =>
    simp only [frontStep, hx, h, hf, Fetch.headEvent, hhead, World.decide, hpol, hv, ho,
      Bool.not_true, Bool.false_eq_true, if_false]
    exact ⟨_, rfl⟩
  | loseHead h hf hhead hend =>
    simp only [frontStep, hx, h, hf, Fetch.headEvent, hhead, hend, if_true]
    exact ⟨_, rfl⟩
  | join lines h hj =>
    cases hjoins : x.joins with
    | false =>
      simp only [frontStep, hx, h, hjoins, Bool.not_false, if_true]
      exact ⟨_, rfl⟩
    | true =>
      obtain ⟨f, hf, hend⟩ := hj hjoins
      simp only [frontStep, hx, h, hjoins, Bool.not_true, Bool.false_eq_true, if_false, hf,
        hend, if_true]
      exact ⟨_, rfl⟩
  | close lines h hj =>
    have hwaits : (x.joins && !(x.copier.map Copier.isOver).getD true) = false := by
      cases hjoins : x.joins with
      | false => rfl
      | true => rw [hj hjoins]; rfl
    simp only [frontStep, hx, h, hwaits, Bool.false_eq_true, if_false]
    exact ⟨_, rfl⟩

theorem Turn.originStep_eq {front : Front} {w b : World} {i : Nat} {x x' : Exchange}
    (ht : Turn front w i x .origin x' b) (hx : w.exchanges[i]? = some x) :
    ∃ log, w.originStep front i = some { b.put i x' with log } := by
  cases ht with
  | @origin f f' gates event hf hs =>
    simp only [originStep, hx, hf, hs]
    refine ⟨(w.absorb front event).log, ?_⟩
    rw [put_absorb]
    rcases event with _ | _ | _ <;> rfl

theorem Turn.copierStep_eq {front : Front} {w b : World} {i : Nat} {x x' : Exchange}
    (ht : Turn front w i x .copier x' b) (hx : w.exchanges[i]? = some x) :
    ∃ log, w.copierStep front i = some { b.put i x' with log } := by
  cases ht with
  | drain hc hf hr =>
    simp only [copierStep, hx, hc, hf, hr]
    exact ⟨_, rfl⟩
  | @drained f hc hf hr =>
    obtain ⟨f', hf'⟩ : ∃ f', f.receive = (f.receive.1, f') := ⟨_, rfl⟩
    rcases hr with hr | hr <;> rw [hr] at hf' <;> simp only [copierStep, hx, hc, hf, hf'] <;>
      exact ⟨_, rfl⟩
  | pump hc hf hr =>
    simp only [copierStep, hx, hc, hf, hr]
    exact ⟨_, rfl⟩
  | @pumped sink body writes stored failed f hc hf hr =>
    obtain ⟨f', hf'⟩ : ∃ f', f.receive = (f.receive.1, f') := ⟨_, rfl⟩
    rcases hr with hr | hr <;> rw [hr] at hf' <;> simp only [copierStep, hx, hc, hf, hf'] <;>
      exact ⟨_, rfl⟩
  | writeFail lines hc hw =>
    simp only [copierStep, hx, hc, hw]
    exact ⟨_, rfl⟩
  | write hc hw =>
    simp only [copierStep, hx, hc, hw]
    exact ⟨_, rfl⟩
  | stop lines hc =>
    simp only [copierStep, hx, hc]
    exact ⟨_, rfl⟩

/-- **A turn can be taken.** -/
theorem Turn.happens {front : Front} {w b : World} {i : Nat} {x x' : Exchange} {actor : Actor}
    (ht : Turn front w i x actor x' b) (hx : w.exchanges[i]? = some x) :
    ∃ log, w.step front i actor = some { b.put i x' with log } := by
  cases actor with
  | front => exact ht.frontStep_eq hx
  | origin => exact ht.originStep_eq hx
  | copier => exact ht.copierStep_eq hx

/-! ### What turns leave alone -/

/-- A turn changes no exchange but its own. -/
theorem Turn.exchanges {front : Front} {w b : World} {i : Nat} {x x' : Exchange} {actor : Actor}
    (ht : Turn front w i x actor x' b) : b.exchanges = w.exchanges := by
  cases ht <;> simp

theorem Turn.request {front : Front} {w b : World} {i : Nat} {x x' : Exchange} {actor : Actor}
    (ht : Turn front w i x actor x' b) : x'.request = x.request := by
  cases ht <;> rfl

theorem Turn.key {front : Front} {w b : World} {i : Nat} {x x' : Exchange} {actor : Actor}
    (ht : Turn front w i x actor x' b) : x'.key = x.key := by
  rw [Exchange.key, Exchange.key, ht.request]

/-- An exchange after a turn is the one whose turn it was, or another one as it was. -/
theorem Turn.exchange_cases {front : Front} {w b : World} {i j : Nat} {x x' y : Exchange}
    {actor : Actor} (ht : Turn front w i x actor x' b) (hy : (b.put i x').exchanges[j]? = some y) :
    (j = i ∧ y = x') ∨ (j ≠ i ∧ w.exchanges[j]? = some y) := by
  rw [put_exchanges, ht.exchanges, List.getElem?_set] at hy
  by_cases hij : i = j
  · subst hij
    rw [if_pos rfl] at hy
    split at hy
    · exact .inl ⟨rfl, (Option.some.inj hy).symm⟩
    · exact absurd hy (by simp)
  · rw [if_neg hij] at hy
    exact .inr ⟨Ne.symm hij, hy⟩

/-- After a turn every other exchange is there as it was. -/
theorem Turn.exchange_ne {front : Front} {w b : World} {i j : Nat} {x x' : Exchange} {actor : Actor}
    (ht : Turn front w i x actor x' b) (hij : j ≠ i) :
    (b.put i x').exchanges[j]? = w.exchanges[j]? := by
  rw [put_exchanges, ht.exchanges, List.getElem?_set_ne (Ne.symm hij)]

theorem Turn.exchange_self {front : Front} {w b : World} {i : Nat} {x x' : Exchange} {actor : Actor}
    (ht : Turn front w i x actor x' b) (hx : w.exchanges[i]? = some x) :
    (b.put i x').exchanges[i]? = some x' := by
  rw [put_exchanges, ht.exchanges, List.getElem?_set_self (List.getElem?_eq_some_iff.1 hx).1]

/-! ## Everything that can happen -/

/-- `y` is the exchange `x` but for the link of its client. -/
inductive Relinked (x y : Exchange) : Prop
  | own (link : Link) (hf : x.fetch = none) (hy : y = { x with own := { x.own with link } })
  | tee {f : Fetch} (link : Link) (hf : x.fetch = some f)
      (hy : y = { x with
        fetch := some { f with tee := { f.tee with client := { f.tee.client with link } } } })

theorem Relinked.refl (x : Exchange) : Relinked x x := by
  cases hf : x.fetch with
  | none => exact .own x.own.link hf rfl
  | some f =>
    refine .tee f.tee.client.link hf ?_
    cases x
    subst hf
    rfl

theorem relinked_setClient (x : Exchange) (link : Link) :
    Relinked x (x.setClient { x.client with link }) := by
  cases hf : x.fetch with
  | none => exact .own link hf (by simp [Exchange.setClient, Exchange.client, hf])
  | some f => exact .tee link hf (by simp [Exchange.setClient, Exchange.client, hf])

namespace Relinked

variable {x y : Exchange}

theorem stage (h : Relinked x y) : y.stage = x.stage := by
  cases h with
  | own link hf hy | tee link hf hy => rw [hy]

theorem request (h : Relinked x y) : y.request = x.request := by
  cases h with
  | own link hf hy | tee link hf hy => rw [hy]

theorem key (h : Relinked x y) : y.key = x.key := by
  rw [Exchange.key, Exchange.key, h.request]

theorem status (h : Relinked x y) : y.status = x.status := by
  cases h with
  | own link hf hy | tee link hf hy => rw [hy]

theorem cache (h : Relinked x y) : y.cache = x.cache := by
  cases h with
  | own link hf hy | tee link hf hy => rw [hy]

theorem copier (h : Relinked x y) : y.copier = x.copier := by
  cases h with
  | own link hf hy | tee link hf hy => rw [hy]

theorem joins (h : Relinked x y) : y.joins = x.joins := by
  cases h with
  | own link hf hy | tee link hf hy => rw [hy]

theorem head (h : Relinked x y) : y.own.head = x.own.head := by
  cases h with
  | own link hf hy | tee link hf hy => rw [hy]

theorem headers (h : Relinked x y) : y.own.headers = x.own.headers := by
  cases h with
  | own link hf hy | tee link hf hy => rw [hy]

theorem fetch_eq_none (h : Relinked x y) (hf : x.fetch = none) : y.fetch = none := by
  cases h with
  | own link hf' hy => rw [hy, hf]
  | tee link hf' hy => simp [hf] at hf'

theorem fetch_eq_some (h : Relinked x y) {f : Fetch} (hf : x.fetch = some f) :
    ∃ link, y.fetch =
      some { f with tee := { f.tee with client := { f.tee.client with link } } } := by
  cases h with
  | own link hf' hy => simp [hf] at hf'
  | tee link hf' hy =>
    obtain rfl := Option.some.inj (hf.symm.trans hf')
    exact ⟨link, by rw [hy]⟩

end Relinked

/-- What comes from outside leaves the tasks alone: a new exchange is added, or links of clients
change. -/
structure Outside (w : World) (a : Happening) (w' : World) : Prop where
  noStep : ∀ (i : Nat) (actor : Actor), a ≠ .step i actor
  store : w'.store = w.store
  bodies : w'.bodies = w.bodies
  calls : w'.calls = w.calls
  sinks : w'.sinks = w.sinks
  /-- An exchange was there, or it has just arrived. -/
  exchange : ∀ (j : Nat) (y : Exchange), w'.exchanges[j]? = some y →
    (∃ x, w.exchanges[j]? = some x ∧ Relinked x y) ∨
      ∃ request client access, a = .arrive request client access ∧
        j = w.exchanges.length ∧ y = { request, own := client, access }
  /-- An exchange that was there still is. -/
  still : ∀ (j : Nat) (x : Exchange), w.exchanges[j]? = some x →
    ∃ y, w'.exchanges[j]? = some y ∧ Relinked x y

/-- Something from outside that changes no exchange. -/
theorem outside_of_exchanges_eq {w w' : World} {a : Happening}
    (ha : ∀ (i : Nat) (actor : Actor), a ≠ .step i actor) (hs : w'.store = w.store)
    (hb : w'.bodies = w.bodies) (hc : w'.calls = w.calls) (hk : w'.sinks = w.sinks)
    (hx : w'.exchanges = w.exchanges) : Outside w a w' :=
  ⟨ha, hs, hb, hc, hk, fun _ y hy => .inl ⟨y, hx ▸ hy, .refl y⟩,
    fun _ x h => ⟨x, hx ▸ h, .refl x⟩⟩

theorem outside_setClient {w : World} {a : Happening} {i : Nat} {x : Exchange} {link : Link}
    (ha : ∀ (i : Nat) (actor : Actor), a ≠ .step i actor) (hx : w.exchanges[i]? = some x) :
    Outside w a (w.put i (x.setClient { x.client with link })) := by
  have hi : i < w.exchanges.length := (List.getElem?_eq_some_iff.1 hx).1
  refine ⟨ha, rfl, rfl, rfl, rfl, fun j y hy => .inl ?_, fun j y hy => ?_⟩
  · by_cases hij : i = j
    · subst hij
      rw [put_exchanges, List.getElem?_set_self hi, Option.some.injEq] at hy
      exact ⟨x, hx, hy ▸ relinked_setClient x link⟩
    · rw [put_exchanges, List.getElem?_set_ne hij] at hy
      exact ⟨y, hy, .refl y⟩
  · by_cases hij : i = j
    · subst hij
      obtain rfl : x = y := Option.some.inj (hx.symm.trans hy)
      exact ⟨_, by rw [put_exchanges, List.getElem?_set_self hi], relinked_setClient x link⟩
    · exact ⟨y, by rw [put_exchanges, List.getElem?_set_ne hij, hy], .refl y⟩

theorem outside_arrive (w : World) (request : Request) (client : Client)
    (access : Option Log.Access) :
    Outside w (.arrive request client access) (w.arrive request client access) := by
  refine ⟨nofun, rfl, rfl, rfl, rfl, fun j y hy => ?_, fun j y hy => ⟨y, ?_, .refl y⟩⟩
  · simp only [arrive, List.getElem?_append, List.getElem?_singleton] at hy
    split at hy
    · exact .inl ⟨y, hy, .refl y⟩
    · next hj =>
      split at hy
      · next hj' =>
        rw [Option.some.injEq] at hy
        exact .inr ⟨request, client, access, rfl, by omega, hy.symm⟩
      · exact absurd hy (by simp)
  · rw [arrive, List.getElem?_append_left (List.getElem?_eq_some_iff.1 hy).1]
    exact hy

/-- **What can happen to a world.**  A task takes a turn, or something comes from outside. -/
theorem happen_cases {front : Front} {w w' : World} {a : Happening}
    (h : w.happen front a = some w') :
    (∃ i actor x x' b, a = .step i actor ∧ w.exchanges[i]? = some x ∧
      Turn front w i x actor x' b ∧ w' = b.put i x') ∨ Outside w a w' := by
  cases a with
  | step i actor =>
    refine .inl ⟨i, actor, ?_⟩
    suffices hsuff : ∃ x x' b, w.exchanges[i]? = some x ∧ Turn front w i x actor x' b ∧
        w' = b.put i x' by
      obtain ⟨x, x', b, hx, ht, hw⟩ := hsuff
      exact ⟨x, x', b, rfl, hx, ht, hw⟩
    cases actor with
    | front => exact frontStep_cases h
    | origin => exact originStep_cases h
    | copier => exact copierStep_cases h
  | arrive request client access =>
    rw [happen, Option.some.injEq] at h
    subst h
    exact .inr (outside_arrive w request client access)
  | release gate =>
    rw [happen, Option.some.injEq] at h
    subst h
    exact .inr (outside_of_exchanges_eq nofun rfl rfl rfl rfl rfl)
  | tick now =>
    rw [happen, Option.ite_none_right_eq_some, Option.some.injEq] at h
    obtain ⟨hle, rfl⟩ := h
    exact .inr (outside_of_exchanges_eq nofun rfl rfl rfl rfl rfl)
  | take i =>
    rw [happen, Option.some.injEq] at h
    subst h
    rw [take]
    cases hx : w.exchanges[i]? with
    | none => exact .inr (outside_of_exchanges_eq nofun rfl rfl rfl rfl rfl)
    | some x =>
      simp only [Reception.next]
      split
      · exact .inr (outside_setClient nofun hx)
      · split
        · exact .inr (outside_setClient nofun hx)
        · exact .inr (outside_setClient nofun hx)
  | abandon i =>
    rw [happen, Option.some.injEq] at h
    subst h
    rw [abandon]
    cases hx : w.exchanges[i]? with
    | none => exact .inr (outside_of_exchanges_eq nofun rfl rfl rfl rfl rfl)
    | some x =>
      simp only [Client.abandon]
      split
      · exact .inr (outside_setClient nofun hx)
      · exact .inr (outside_setClient nofun hx)

/-! ## Exchanges are not forgotten -/

theorem Outside.length_le {w w' : World} {a : Happening} (h : Outside w a w') :
    w.exchanges.length ≤ w'.exchanges.length := by
  rcases Nat.eq_zero_or_pos w.exchanges.length with h0 | hpos
  · omega
  · obtain ⟨y, hy, -⟩ := h.still (w.exchanges.length - 1) _ (List.getElem?_eq_getElem (by omega))
    have := (List.getElem?_eq_some_iff.1 hy).1
    omega

theorem length_le {front : Front} {w w' : World} {a : Happening}
    (h : w.happen front a = some w') : w.exchanges.length ≤ w'.exchanges.length := by
  rcases happen_cases h with ⟨i, actor, x, x', b, rfl, hx, ht, rfl⟩ | hout
  · exact Nat.le_of_eq (by rw [put_exchanges, List.length_set, ht.exchanges])
  · exact hout.length_le

/-- An exchange stays, with its request, -/
theorem exists_exchange {front : Front} {w w' : World} {a : Happening} {i : Nat} {x : Exchange}
    (hx : w.exchanges[i]? = some x) (h : w.happen front a = some w') :
    ∃ y, w'.exchanges[i]? = some y ∧ y.request = x.request := by
  rcases happen_cases h with ⟨j, actor, x₀, x', b, rfl, hx₀, ht, rfl⟩ | hout
  · by_cases hij : i = j
    · subst hij
      obtain rfl : x = x₀ := Option.some.inj (hx.symm.trans hx₀)
      exact ⟨x', ht.exchange_self hx, ht.request⟩
    · exact ⟨x, (ht.exchange_ne hij).trans hx, rfl⟩
  · obtain ⟨y, hy, hr⟩ := hout.still i x hx
    exact ⟨y, hy, hr.request⟩

/-- as long as the world lasts. -/
theorem exists_exchange_of_run {front : Front} {w₀ w : World} {t : List (World × Happening)}
    {i : Nat} {x : Exchange} (hx : w₀.exchanges[i]? = some x)
    (hrun : Run (World.happen front) w₀ t w) :
    ∃ y, w.exchanges[i]? = some y ∧ y.request = x.request := by
  refine hrun.invariant (P := fun w => ∃ y, w.exchanges[i]? = some y ∧ y.request = x.request) ?_
    ⟨x, hx, rfl⟩
  rintro w a w' ⟨y, hy, hreq⟩ ha
  obtain ⟨y', hy', hreq'⟩ := exists_exchange hy ha
  exact ⟨y', hy', hreq'.trans hreq⟩

theorem length_le_of_run {front : Front} {w₀ w : World} {t : List (World × Happening)}
    (hrun : Run (World.happen front) w₀ t w) :
    w₀.exchanges.length ≤ w.exchanges.length ∧
      ∀ p ∈ t, p.1.exchanges.length ≤ w.exchanges.length := by
  induction hrun with
  | start => exact ⟨Nat.le_refl _, by simp⟩
  | @next t s₁ s₂ a _ ha ih =>
    have hle := length_le ha
    refine ⟨Nat.le_trans ih.1 hle, fun p hp => ?_⟩
    rcases List.mem_append.1 hp with hp | hp
    · exact Nat.le_trans (ih.2 p hp) hle
    · rw [List.mem_singleton.1 hp]
      exact hle

end World
end EdgeCache
