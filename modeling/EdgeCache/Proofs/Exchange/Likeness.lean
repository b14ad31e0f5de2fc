import EdgeCache.Proofs.Exchange.Order
import EdgeCache.Proofs.Origin.Lines
import EdgeCache.Proofs.Store.Mirrors

/-!
# Exchanges that are alike

What an exchange of a key does depends on its request, on the clock, on the gates, and on what is
stored under the key.  In two worlds where these are alike (`World.Alike`), exchanges that are alike
but for the numbers they mention can take the same turns, and are alike after them
(`World.Alike.turn`), provided that origin and storage do not go by the numbers either
(`Front.Impartial`).
-/

set_option autoImplicit false

namespace EdgeCache

/-- The origin answers every request by itself, whichever exchange it comes from; and so does the
storage take the bodies. -/
structure Front.Impartial (front : Front) : Prop where
  respond : ∀ i j, front.respond i = front.respond j
  opening : ∀ sink sink', front.faults.opening sink = front.faults.opening sink'
  writing : ∀ sink sink', front.faults.writing sink = front.faults.writing sink'

/-! ## Entries -/

section Entries

variable {L : Links}

/-- An entry without a body does not mention any number. -/
theorem Entry.Alike.of_body_eq_none {e : Entry} (h : e.body = none) : e.Alike L e := by
  refine ⟨rfl, rfl, rfl, rfl, ?_⟩
  rw [h]
  exact .none

theorem Entry.Alike.publicly {front : Front} {draft : Entry} {head : Head} {expiration : Instant}
    {id id' : Nat} (hid : L.body id id') :
    (front.publicly draft head expiration id).Alike L (front.publicly draft head expiration id') :=
  ⟨rfl, rfl, rfl, rfl, .some (.growing hid)⟩

/-- A hit is presented in the same way. -/
theorem Held.Alike.present {h h' : Held} {own : Client} (hh : h.Alike L h') (front : Front) :
    own.present front h'.entry = own.present front h.entry := by
  rw [Client.present, Client.present, hh.entry.head]

theorem private_of_rel {previous previous' : Option Held}
    (h : Option.Rel (Held.Alike L) previous previous')
    (hprivate : ∀ held, previous = some held → held.entry.isPublic = false) :
    ∀ held, previous' = some held → held.entry.isPublic = false := by
  rintro held rfl
  cases h with
  | some hh => exact hh.entry.isPublic.trans (hprivate _ rfl)

end Entries

/-! ## Exchanges -/

/-- Stages are alike if they are the same but for visits that are linked, bodies that are alike, and
places in line. -/
inductive Stage.Alike (L : Links) : Stage → Stage → Prop
  | arrived : Alike L .arrived .arrived
  | forwarding {s s' : Script Handled} (hs : s.Ahead s') : Alike L (.forwarding s) (.forwarding s')
  | visiting {v v' : Nat} (hv : L.visit v v') : Alike L (.visiting v) (.visiting v')
  | replaying {v v' : Nat} {body body' : StoredBody} (reader : Reader) (hv : L.visit v v')
      (hb : body.Alike L body') : Alike L (.replaying v body reader) (.replaying v' body' reader)
  | relaying {v v' : Nat} {body body' : StoredBody} (reader : Reader) (chunk : Bytes)
      (hv : L.visit v v') (hb : body.Alike L body') :
      Alike L (.relaying v body reader chunk) (.relaying v' body' reader chunk)
  | fetching {v v' : Nat} (draft : Entry) (hv : L.visit v v') (hd : draft.body = none) :
      Alike L (.fetching v draft) (.fetching v' draft)
  | joining (r : VisitResult) : Alike L (.joining r) (.joining r)
  | closing (r : VisitResult) : Alike L (.closing r) (.closing r)
  | reporting (outcome : Handled) : Alike L (.reporting outcome) (.reporting outcome)
  | finished (outcome : Handled) : Alike L (.finished outcome) (.finished outcome)
  | died : Alike L .died .died

/-- Copiers are alike if they are the same but for their sinks, and for bodies that are linked. -/
inductive Copier.Alike (L : Links) : Copier → Copier → Prop
  | drain (stopped : Bool) : Alike L (.drain stopped) (.drain stopped)
  | pump (sink sink' : Nat) {id id' : Nat} (failed : Bool) (writes stored : Nat) (doing : Copying)
      (hb : L.body id id') :
      Alike L (.pump sink id failed writes stored doing)
        (.pump sink' id' failed writes stored doing)

/-- Exchanges are alike if they are the same but for numbers that are linked, sinks, and places in
line. -/
structure Exchange.Alike (L : Links) (x x' : Exchange) : Prop where
  request : x'.request = x.request
  own : x'.own = x.own
  stage : x.stage.Alike L x'.stage
  status : x'.status = x.status
  cache : x'.cache = x.cache
  fetch : Option.Rel Fetch.Ahead x.fetch x'.fetch
  copier : Option.Rel (Copier.Alike L) x.copier x'.copier
  joins : x'.joins = x.joins
  access : x'.access = x.access

section Mono

variable {L L' : Links}

theorem Stage.Alike.mono {s s' : Stage} (h : s.Alike L s') (hL : L.Within L') : s.Alike L' s' := by
  cases h with
  | visiting hv => exact .visiting (hL.visit hv)
  | replaying reader hv hb => exact .replaying reader (hL.visit hv) (hb.mono hL)
  | relaying reader chunk hv hb => exact .relaying reader chunk (hL.visit hv) (hb.mono hL)
  | fetching draft hv hd => exact .fetching draft (hL.visit hv) hd
  | forwarding hs => exact .forwarding hs
  | arrived => exact .arrived
  | joining r => exact .joining r
  | closing r => exact .closing r
  | reporting outcome => exact .reporting outcome
  | finished outcome => exact .finished outcome
  | died => exact .died

theorem Copier.Alike.mono {c c' : Copier} (h : c.Alike L c') (hL : L.Within L') :
    c.Alike L' c' := by
  cases h with
  | drain stopped => exact .drain stopped
  | pump sink sink' failed writes stored doing hb =>
    exact .pump sink sink' failed writes stored doing (hL.body hb)

theorem Exchange.Alike.mono {x x' : Exchange} (h : x.Alike L x') (hL : L.Within L') :
    x.Alike L' x' :=
  { h with stage := h.stage.mono hL, copier := rel_imp h.copier fun hc => hc.mono hL }

theorem Copier.Alike.isOver {c c' : Copier} (h : c.Alike L c') : c'.isOver = c.isOver := by
  cases h <;> rfl

theorem Exchange.Alike.key {x x' : Exchange} (h : x.Alike L x') : x'.key = x.key := by
  rw [Exchange.key, Exchange.key, h.request]

/-- Their clients are the same, -/
theorem Exchange.Alike.client {x x' : Exchange} (h : x.Alike L x') : x'.client = x.client := by
  have hf := h.fetch
  rw [Exchange.client, Exchange.client, h.own]
  generalize x.fetch = f, x'.fetch = f' at hf
  cases hf with
  | none => rfl
  | some hf => simp only [hf.tee]

/-- and so are their outcomes. -/
theorem Exchange.Alike.outcome {x x' : Exchange} (h : x.Alike L x') : x'.outcome? = x.outcome? := by
  have hs := h.stage
  rw [Exchange.outcome?, Exchange.outcome?]
  generalize x.stage = s, x'.stage = s' at hs
  cases hs <;> rfl

theorem Exchange.Alike.visit? {x x' : Exchange} (h : x.Alike L x') :
    Option.Rel L.visit x.stage.visit? x'.stage.visit? := by
  have hs := h.stage
  generalize x.stage = s, x'.stage = s' at hs
  cases hs <;> first | exact .none | exact .some ‹_›

/-- When both clients are changed in the same way, the exchanges stay alike. -/
theorem Exchange.Alike.setClient {x x' : Exchange} (h : x.Alike L x') (c : Client) :
    (x.setClient c).Alike L (x'.setClient c) := by
  obtain ⟨request, own, stage, status, cache, fetch, copier, joins, access⟩ := x
  obtain ⟨request', own', stage', status', cache', fetch', copier', joins', access'⟩ := x'
  have hf := h.fetch
  simp only at hf
  cases hf with
  | none => exact { h with own := rfl, fetch := .none }
  | some hf => exact { h with fetch := .some ⟨by rw [hf.tee], hf.ending, hf.script⟩ }

end Mono

/-! ### What is alike to a stage -/

section Inversion

variable {L : Links} {s : Stage} {v : Nat}

theorem Stage.Alike.arrived_inv (h : Stage.Alike L .arrived s) : s = .arrived := by
  cases h
  rfl

theorem Stage.Alike.forwarding_inv {script : Script Handled}
    (h : Stage.Alike L (.forwarding script) s) :
    ∃ script', s = .forwarding script' ∧ script.Ahead script' := by
  cases h with
  | forwarding hs => exact ⟨_, rfl, hs⟩

theorem Stage.Alike.visiting_inv (h : Stage.Alike L (.visiting v) s) :
    ∃ v', s = .visiting v' ∧ L.visit v v' := by
  cases h with
  | visiting hv => exact ⟨_, rfl, hv⟩

theorem Stage.Alike.replaying_inv {body : StoredBody} {reader : Reader}
    (h : Stage.Alike L (.replaying v body reader) s) :
    ∃ v' body', s = .replaying v' body' reader ∧ L.visit v v' ∧ body.Alike L body' := by
  cases h with
  | replaying reader hv hb => exact ⟨_, _, rfl, hv, hb⟩

theorem Stage.Alike.relaying_inv {body : StoredBody} {reader : Reader} {chunk : Bytes}
    (h : Stage.Alike L (.relaying v body reader chunk) s) :
    ∃ v' body', s = .relaying v' body' reader chunk ∧ L.visit v v' ∧ body.Alike L body' := by
  cases h with
  | relaying reader chunk hv hb => exact ⟨_, _, rfl, hv, hb⟩

theorem Stage.Alike.fetching_inv {draft : Entry} (h : Stage.Alike L (.fetching v draft) s) :
    ∃ v', s = .fetching v' draft ∧ L.visit v v' ∧ draft.body = none := by
  cases h with
  | fetching draft hv hd => exact ⟨_, rfl, hv, hd⟩

theorem Stage.Alike.joining_inv {r : VisitResult} (h : Stage.Alike L (.joining r) s) :
    s = .joining r := by
  cases h
  rfl

theorem Stage.Alike.closing_inv {r : VisitResult} (h : Stage.Alike L (.closing r) s) :
    s = .closing r := by
  cases h
  rfl

theorem Stage.Alike.reporting_inv {outcome : Handled} (h : Stage.Alike L (.reporting outcome) s) :
    s = .reporting outcome := by
  cases h
  rfl

end Inversion

namespace Exchange.Alike

variable {L : Links} {x x' : Exchange}

theorem fetch_some {f : Fetch} (h : x.Alike L x') (hf : x.fetch = some f) :
    ∃ f', x'.fetch = some f' ∧ f.Ahead f' :=
  rel_some (hf ▸ h.fetch)

theorem drain {stopped : Bool} (h : x.Alike L x') (hc : x.copier = some (.drain stopped)) :
    x'.copier = some (.drain stopped) := by
  obtain ⟨c, hc', hcc⟩ := rel_some (hc ▸ h.copier)
  cases hcc
  exact hc'

theorem pump {sink id writes stored : Nat} {failed : Bool} {doing : Copying} (h : x.Alike L x')
    (hc : x.copier = some (.pump sink id failed writes stored doing)) :
    ∃ sink' id', x'.copier = some (.pump sink' id' failed writes stored doing) ∧
      L.body id id' := by
  obtain ⟨c, hc', hcc⟩ := rel_some (hc ▸ h.copier)
  cases hcc with
  | pump sink sink' failed writes stored doing hb => exact ⟨_, _, hc', hb⟩

theorem arrived (h : x.Alike L x') (hs : x.stage = .arrived) : x'.stage = .arrived :=
  (hs ▸ h.stage).arrived_inv

theorem copier_isOver (h : x.Alike L x') :
    (x'.copier.map Copier.isOver).getD true = (x.copier.map Copier.isOver).getD true := by
  have hc := h.copier
  generalize x.copier = c, x'.copier = c' at hc
  cases hc with
  | none => rfl
  | some hc => simp only [Option.map_some, Option.getD_some, hc.isOver]

end Exchange.Alike

/-! ## What a consumer takes -/

section Fetch

variable {f f' g : Fetch}

theorem Fetch.Ahead.unwatch (h : f.Ahead f') : f.unwatch.Ahead f'.unwatch :=
  ⟨by rw [Fetch.unwatch, Fetch.unwatch, h.tee], h.ending, h.script⟩

theorem Fetch.Ahead.receive {frame : Frame} (h : f.Ahead f') (hr : f.receive = (frame, g)) :
    ∃ g', f'.receive = (frame, g') ∧ g.Ahead g' := by
  rw [Fetch.receive] at hr ⊢
  rw [h.tee, h.ending]
  cases hc : f.tee.consumed with
  | false =>
    simp only [hc, Bool.not_false, if_true, Prod.mk.injEq] at hr ⊢
    exact ⟨f', ⟨hr.1, rfl⟩, hr.2 ▸ h⟩
  | true =>
    simp only [hc, Bool.not_true, Bool.false_eq_true, if_false] at hr ⊢
    cases hb : f.tee.buffer with
    | nil =>
      simp only [hb, Prod.mk.injEq] at hr ⊢
      exact ⟨f', ⟨hr.1, rfl⟩, hr.2 ▸ h⟩
    | cons chunk rest =>
      simp only [hb, Prod.mk.injEq] at hr ⊢
      exact ⟨_, ⟨hr.1, rfl⟩, hr.2 ▸ ⟨rfl, rfl, h.script⟩⟩

theorem Fetch.Ahead.receive_fst (h : f.Ahead f') : f'.receive.1 = f.receive.1 := by
  have hr : f.receive = (f.receive.1, f.receive.2) := rfl
  obtain ⟨g', hg', -⟩ := h.receive hr
  rw [hg']

end Fetch

namespace World

/-! ## What exchanges share -/

/-- What the exchanges share is alike, as far as those of the key see it. -/
structure Alike (k : Bytes) (L : Links) (w w' : World) : Prop where
  clock : w'.clock = w.clock
  gates : w.gates.Fewer w'.gates
  store : w.store.Mirrors k L w'.store
  bodies : Matched L.body w.bodies.length w'.bodies.length
  body : ∀ {id id' : Nat}, L.body id id' → w'.bodies[id']? = w.bodies[id]?

section Alike

variable {front : Front} {k : Bytes} {L : Links} {w w' : World}

theorem Alike.read (h : w.Alike k L w') {body body' : StoredBody} (hb : body.Alike L body')
    (reader : Reader) : reader.read w'.bodies body' = reader.read w.bodies body := by
  cases hb with
  | fixed => rfl
  | growing hid =>
    rw [Reader.read, Reader.read, List.getD_eq_getElem?_getD, List.getD_eq_getElem?_getD,
      h.body hid]

/-- An origin acts in both. -/
theorem Alike.acted {gs gs' : Gates} (h : w.Alike k L w') (hgs : gs.Fewer gs')
    (event : Option Event) :
    (({ w with gates := gs } : World).absorb front event).Alike k L
      (({ w' with gates := gs' } : World).absorb front event) := by
  rcases event with _ | _ | _ <;> exact { h with gates := hgs }

theorem Alike.concluding {v v' : Nat} {o o' : Outcome} (h : w.Alike k L w') (hv : L.visit v v')
    (ho : Outcome.Alike L o o') :
    ∃ L', L.Within L' ∧ L'.body = L.body ∧ (w.concluding v o).Alike k L' (w'.concluding v' o') := by
  obtain ⟨ε, hε, hstore⟩ := h.store.finish hv ho
  exact ⟨{ L with entry := ε }, ⟨id, id, hε, id⟩, rfl, { h with store := hstore }⟩

theorem Alike.handed_some {v v' : Nat} {held : Held} (h : w.Alike k L w') (hv : L.visit v v')
    (hh : w.store.handed v = some (some held)) :
    ∃ held', w'.store.handed v' = some (some held') ∧ held.Alike L held' := by
  obtain ⟨previous', hh', hprev⟩ := rel_some (hh ▸ h.store.handed hv)
  obtain ⟨held', rfl, hheld⟩ := rel_some hprev
  exact ⟨held', hh', hheld⟩

theorem Alike.losing {v v' : Nat} (h : w.Alike k L w') (hv : L.visit v v') :
    (w.losing v).Alike k L (w'.losing v') :=
  { h with store := h.store.lose hv }

/-- Bodies that are linked change in the same way. -/
theorem Alike.modifyBody {id id' : Nat} (h : w.Alike k L w') (hid : L.body id id')
    (change : Growing → Growing) :
    (w.modifyBody id change).Alike k L (w'.modifyBody id' change) where
  clock := h.clock
  gates := h.gates
  store := h.store
  bodies := by simpa only [modifyBody_bodies, List.length_modify] using h.bodies
  body hj := by
    rw [modifyBody_bodies, modifyBody_bodies, List.getElem?_modify, List.getElem?_modify, h.body hj]
    have hiff := h.bodies.one hid hj
    simp only [hiff]

/-- Two bodies are opened. -/
theorem Alike.opening (h : w.Alike k L w') :
    w.opening.Alike k (L.alsoBody w.bodies.length w'.bodies.length) w'.opening where
  clock := h.clock
  gates := h.gates
  store := h.store.alsoBody _ _
  bodies := by
    simp only [opening_bodies, List.length_append, List.length_singleton]
    exact h.bodies.also
  body hj := by
    rw [opening_bodies, opening_bodies]
    rcases hj with hj | ⟨rfl, rfl⟩
    · obtain ⟨hlt, hlt'⟩ := h.bodies.lt hj
      rw [List.getElem?_append_left hlt, List.getElem?_append_left hlt', h.body hj]
    · simp

/-- A visit of the key begins in both. -/
theorem Alike.begin {accepts : Entry → Bool} (h : w.Alike k L w') (hb : Blindfold accepts) :
    ({ w with store := (w.store.begin k accepts).1 } : World).Alike k
      (L.alsoVisit w.store.visits.length w'.store.visits.length)
      { w' with store := (w'.store.begin k accepts).1 } :=
  { h with store := h.store.begin hb }

/-- A visit takes its step in both. -/
theorem Alike.step {v v' : Nat} {store : Store} (h : w.Alike k L w') (hv : L.visit v v')
    (hs : w.store.step w.clock v = some store) :
    ∃ L' store', L.Within L' ∧ L'.body = L.body ∧ w'.store.step w'.clock v' = some store' ∧
      ({ w with store } : World).Alike k L' { w' with store := store' } := by
  obtain ⟨σ, ε, store', hσ, hε, hs', hstore⟩ := h.store.step hv hs
  exact ⟨{ L with slot := σ, entry := ε }, store', ⟨id, hσ, hε, id⟩, rfl, h.clock ▸ hs',
    { h with store := hstore }⟩

end Alike

/-! ## The same turns -/

section Turn

variable {front : Front} {k : Bytes} {L : Links} {w w' b : World} {i : Nat} {x x' x₁ : Exchange}

/-- What is linked stays so, and bodies that are newly linked have no smaller numbers than that. -/
structure Extends (n : Nat) (L L' : Links) : Prop where
  within : L.Within L'
  fresh : ∀ {id id' : Nat}, L'.body id id' → L.body id id' ∨ n ≤ id

theorem Extends.refl (n : Nat) (L : Links) : Extends n L L := ⟨.refl L, .inl⟩

theorem Extends.of_body_eq {L' : Links} (n : Nat) (hL : L.Within L') (hb : L'.body = L.body) :
    Extends n L L' :=
  ⟨hL, fun h => .inl (hb ▸ h)⟩

/-- An exchange that is alike can take a turn that makes of it, and of its world, what is alike to
this. -/
def Mirrored (front : Front) (k : Bytes) (L : Links) (w w' : World) (i' : Nat) (x' : Exchange)
    (actor : Actor) (x₁ : Exchange) (b : World) : Prop :=
  ∃ L₁ x₁' b', Extends w.bodies.length L L₁ ∧ Turn front w' i' x' actor x₁' b' ∧
    x₁.Alike L₁ x₁' ∧ b.Alike k L₁ b'

theorem Alike.turn_copier (hf : front.Impartial) (h : w.Alike k L w') (hal : x.Alike L x')
    (ht : Turn front w i x .copier x₁ b) (i' : Nat) :
    Mirrored front k L w w' i' x' .copier x₁ b := by
  cases ht with
  | drain hc hf hr =>
    obtain ⟨f', hf', hff⟩ := hal.fetch_some hf
    obtain ⟨g', hr', hg⟩ := hff.receive hr
    exact ⟨L, _, _, .refl _ L, .drain (hal.drain hc) hf' hr', { hal with fetch := .some hg }, h⟩
  | drained hc hf hr =>
    obtain ⟨f', hf', hff⟩ := hal.fetch_some hf
    rw [← hff.receive_fst] at hr
    exact ⟨L, _, _, .refl _ L, .drained (hal.drain hc) hf' hr,
      { hal with copier := .some (.drain true) }, h⟩
  | pump hc hf hr =>
    obtain ⟨f', hf', hff⟩ := hal.fetch_some hf
    obtain ⟨g', hr', hg⟩ := hff.receive hr
    obtain ⟨sink', id', hc', hid⟩ := hal.pump hc
    exact ⟨L, _, _, .refl _ L, .pump hc' hf' hr',
      { hal with fetch := .some hg, copier := .some (.pump _ _ _ _ _ _ hid) }, h⟩
  | pumped hc hf hr =>
    obtain ⟨f', hf', hff⟩ := hal.fetch_some hf
    rw [← hff.receive_fst] at hr
    obtain ⟨sink', id', hc', hid⟩ := hal.pump hc
    exact ⟨L, _, _, .refl _ L, .pumped hc' hf' hr,
      { hal with copier := .some (.pump _ _ _ _ _ _ hid) }, h⟩
  | @writeFail sink id writes stored failed data text lines hc hw =>
    obtain ⟨sink', id', hc', hid⟩ := hal.pump hc
    rw [hf.writing sink sink'] at hw
    exact ⟨L, _, _, .refl _ L, .writeFail lines hc' hw,
      { hal with copier := .some (.pump _ _ _ _ _ _ hid) }, { h with }⟩
  | @write sink id writes stored failed data hc hw =>
    obtain ⟨sink', id', hc', hid⟩ := hal.pump hc
    rw [hf.writing sink sink'] at hw
    exact ⟨L, _, _, .refl _ L, .write hc' hw,
      { hal with copier := .some (.pump _ _ _ _ _ _ hid) }, h.modifyBody hid _⟩
  | stop lines hc =>
    obtain ⟨sink', id', hc', hid⟩ := hal.pump hc
    exact ⟨L, _, _, .refl _ L, .stop lines hc',
      { hal with copier := .some (.pump _ _ _ _ _ _ hid) }, { h.modifyBody hid Growing.close with }⟩

theorem Alike.turn_origin (h : w.Alike k L w') (hal : x.Alike L x')
    (ht : Turn front w i x .origin x₁ b) (i' : Nat) :
    Mirrored front k L w w' i' x' .origin x₁ b := by
  cases ht with
  | origin hf hs =>
    obtain ⟨f', hf', hff⟩ := hal.fetch_some hf
    obtain ⟨f₁', gates', hs', hff', hgates⟩ := hff.step h.gates hs
    exact ⟨L, _, _, .refl _ L, .origin hf' hs', { hal with fetch := .some hff' },
      h.acted hgates _⟩

/-- A decision is mirrored by the same decision. -/
theorem Alike.mirrored_concluding {c c' : World} {v v' : Nat} {o o' : Outcome} {y y' : Exchange}
    (h : c.Alike k L c') (hv : L.visit v v') (ho : Outcome.Alike L o o') (hy : y.Alike L y')
    {i' : Nat} {actor : Actor} (ht : Turn front w' i' x' actor y' (c'.concluding v' o')) :
    Mirrored front k L w w' i' x' actor y (c.concluding v o) := by
  obtain ⟨L₁, hL, hbody, hc⟩ := h.concluding hv ho
  exact ⟨L₁, y', _, .of_body_eq _ hL hbody, ht, hy.mono hL, hc⟩

theorem Alike.turn_front (hf : front.Impartial) (h : w.Alike k L w') (hk : x.key = k)
    (hal : x.Alike L x') (ht : Turn front w i x .front x₁ b) (i' : Nat) :
    Mirrored front k L w w' i' x' .front x₁ b := by
  have hreq := hal.request
  have hown := hal.own
  have hclock := h.clock
  have hrespond : front.respond i' = front.respond i := hf.respond i' i
  cases ht with
  | enter hs he =>
    refine ⟨_, _, _, .of_body_eq _ (L.within_alsoVisit _ _) rfl,
      .enter (hal.arrived hs) (hreq ▸ he),
      { hal.mono (L.within_alsoVisit _ _) with stage := .visiting (.inr ⟨rfl, rfl⟩) }, ?_⟩
    rw [hal.key, hk, hreq]
    exact h.begin (blindfold_answers _)
  | skip hs he =>
    refine ⟨L, _, _, .refl _ L, .skip (hal.arrived hs) (hreq ▸ he), ?_, { h with }⟩
    rw [hreq, hown, hrespond]
    exact ⟨rfl, rfl, .forwarding (.refl _), hal.status, rfl, hal.fetch, hal.copier, hal.joins,
      hal.access⟩
  | forward hs hm =>
    obtain ⟨s', hs', hss⟩ := (hs ▸ hal.stage).forwarding_inv
    obtain ⟨m', hm', hmm⟩ := hss.step h.gates hm
    refine ⟨L, _, _, .refl _ L, .forward hs' (hown ▸ hm'),
      { hal with own := hmm.writer, stage := .forwarding hmm.script }, ?_⟩
    rw [hmm.event]
    exact h.acted hmm.gates _
  | forwarded hs =>
    obtain ⟨s', hs', hss⟩ := (hs ▸ hal.stage).forwarding_inv
    obtain rfl := hss.eq_done
    exact ⟨L, _, _, .refl _ L, .forwarded hs',
      { hal with own := by rw [hown], stage := .reporting _ }, h⟩
  | dieForwarding hs =>
    obtain ⟨s', hs', hss⟩ := (hs ▸ hal.stage).forwarding_inv
    obtain rfl := hss.eq_die
    exact ⟨L, _, _, .refl _ L, .dieForwarding hs',
      { hal with own := by rw [hown], stage := .died }, h⟩
  | replay hs hh hpublic hbody =>
    obtain ⟨v', hs', hv⟩ := (hs ▸ hal.stage).visiting_inv
    obtain ⟨held', hh', hheld⟩ := h.handed_some hv hh
    obtain ⟨body', hbody', hbb⟩ := rel_some (hbody ▸ hheld.entry.body)
    have hpublic' := hheld.entry.isPublic.trans hpublic
    refine ⟨L, _, _, .refl _ L, .replay hs' hh' hpublic' hbody', ?_, h⟩
    exact { hal with
      own := hown ▸ hheld.present front, cache := rfl
      status := by rw [hheld.entry.head], stage := .replaying {} hv hbb }
  | replayHead hs hh hpublic hbody =>
    obtain ⟨v', hs', hv⟩ := (hs ▸ hal.stage).visiting_inv
    obtain ⟨held', hh', hheld⟩ := h.handed_some hv hh
    have hbody' := rel_none (hbody ▸ hheld.entry.body)
    have hpublic' := hheld.entry.isPublic.trans hpublic
    refine h.mirrored_concluding hv .keep ?_ (.replayHead hs' hh' hpublic' hbody')
    exact { hal with
      own := by rw [hown, hheld.present front], cache := rfl
      status := by rw [hheld.entry.head], stage := .visiting hv }
  | ask hs hh hprivate hexp =>
    obtain ⟨v', hs', hv⟩ := (hs ▸ hal.stage).visiting_inv
    obtain ⟨previous', hh', hprev⟩ := rel_some (hh ▸ h.store.handed hv)
    refine ⟨L, _, _, .refl _ L, .ask hs' hh' (private_of_rel hprev hprivate) (hclock ▸ hexp), ?_,
      { h with }⟩
    rw [hown, hreq, hrespond]
    exact ⟨rfl, rfl, .fetching _ hv rfl, hal.status, hal.cache, .some (.refl _), hal.copier,
      hal.joins, hal.access⟩
  | dieAsking hs hh hprivate hexp =>
    obtain ⟨v', hs', hv⟩ := (hs ▸ hal.stage).visiting_inv
    obtain ⟨previous', hh', hprev⟩ := rel_some (hh ▸ h.store.handed hv)
    exact ⟨L, _, _, .refl _ L, .dieAsking hs' hh' (private_of_rel hprev hprivate) (hclock ▸ hexp),
      { hal with own := by rw [hown], stage := .died }, h.losing hv⟩
  | leave lines hs hh hr =>
    obtain ⟨v', hs', hv⟩ := (hs ▸ hal.stage).visiting_inv
    have hh' := rel_none (hh ▸ h.store.handed hv)
    have hr' := (h.store.result hv).trans hr
    exact ⟨L, _, _, .refl _ L, .leave lines hs' hh' hr', { hal with stage := .joining _ },
      { h with }⟩
  | step hs hh hr hst =>
    obtain ⟨v', hs', hv⟩ := (hs ▸ hal.stage).visiting_inv
    have hh' := rel_none (hh ▸ h.store.handed hv)
    have hr' := (h.store.result hv).trans hr
    obtain ⟨L₁, store', hL, hbody, hst', halike⟩ := h.step hv hst
    exact ⟨L₁, _, _, .of_body_eq _ hL hbody, .step hs' hh' hr' hst', hal.mono hL, halike⟩
  | turn hs hr =>
    obtain ⟨v', body', hs', hv, hb⟩ := (hs ▸ hal.stage).replaying_inv
    exact ⟨L, _, _, .refl _ L, .turn hs' ((h.read hb _).trans hr),
      { hal with stage := .replaying _ hv hb }, h⟩
  | read hs hr =>
    obtain ⟨v', body', hs', hv, hb⟩ := (hs ▸ hal.stage).replaying_inv
    exact ⟨L, _, _, .refl _ L, .read hs' ((h.read hb _).trans hr),
      { hal with stage := .relaying _ _ hv hb }, h⟩
  | readAll hs hr =>
    obtain ⟨v', body', hs', hv, hb⟩ := (hs ▸ hal.stage).replaying_inv
    refine h.mirrored_concluding hv .keep ?_ (.readAll hs' ((h.read hb _).trans hr))
    exact { hal with own := by rw [hown], stage := .visiting hv }
  | readFailed lines hs hr =>
    obtain ⟨v', body', hs', hv, hb⟩ := (hs ▸ hal.stage).replaying_inv
    have hnoted : (w.note front lines).Alike k L (w'.note front lines) := { h with }
    refine hnoted.mirrored_concluding hv .keep ?_ (.readFailed lines hs' ((h.read hb _).trans hr))
    exact { hal with own := by rw [hown], stage := .visiting hv }
  | relayPartly hs hc =>
    obtain ⟨v', body', hs', hv, hb⟩ := (hs ▸ hal.stage).relaying_inv
    rw [← hown] at hc
    exact ⟨L, _, _, .refl _ L, .relayPartly hs' hc, { hal with own := rfl }, h⟩
  | relay hs hc =>
    obtain ⟨v', body', hs', hv, hb⟩ := (hs ▸ hal.stage).relaying_inv
    rw [← hown] at hc
    exact ⟨L, _, _, .refl _ L, .relay hs' hc,
      { hal with own := rfl, stage := .replaying _ hv hb }, h⟩
  | relayFailed hs hc =>
    obtain ⟨v', body', hs', hv, hb⟩ := (hs ▸ hal.stage).relaying_inv
    rw [← hown] at hc
    refine h.mirrored_concluding hv .keep ?_ (.relayFailed hs' hc)
    exact { hal with own := rfl, stage := .visiting hv }
  | decideFail hs hfetch hhead hpol =>
    obtain ⟨v', hs', hv, -⟩ := (hs ▸ hal.stage).fetching_inv
    obtain ⟨f', hf', hff⟩ := hal.fetch_some hfetch
    rw [← hff.tee] at hhead
    rw [← hreq, ← hclock] at hpol
    refine h.mirrored_concluding hv (.fail _) ?_ (.decideFail hs' hf' hhead hpol)
    exact { hal with fetch := .some hff.unwatch, stage := .visiting hv }
  | @discard visit draft f head verdict lines hs hfetch hhead hpol hcacheable =>
    obtain ⟨v', hs', hv, hdraft⟩ := (hs ▸ hal.stage).fetching_inv
    obtain ⟨f', hf', hff⟩ := hal.fetch_some hfetch
    rw [← hff.tee] at hhead
    rw [← hreq, ← hclock] at hpol
    have hnoted : (w.note front lines).Alike k L (w'.note front lines) := { h with }
    have he : (front.privately draft head).Alike L (front.privately draft head) :=
      .of_body_eq_none hdraft
    refine hnoted.mirrored_concluding hv (.replace he) ?_
      (.discard lines hs' hf' hhead hpol hcacheable)
    exact { hal with
      copier := .some (.drain false), joins := rfl, status := rfl, stage := .visiting hv }
  | openFail hs hfetch hhead hpol hcacheable ho =>
    obtain ⟨v', hs', hv, -⟩ := (hs ▸ hal.stage).fetching_inv
    obtain ⟨f', hf', hff⟩ := hal.fetch_some hfetch
    rw [← hff.tee] at hhead
    rw [← hreq, ← hclock] at hpol
    rw [hf.opening w.sinks w'.sinks] at ho
    have hopened : ({ w with sinks := w.sinks + 1 } : World).Alike k L
      { w' with sinks := w'.sinks + 1 } := { h with }
    refine hopened.mirrored_concluding hv (.fail _) ?_ (.openFail hs' hf' hhead hpol hcacheable ho)
    exact { hal with fetch := .some hff.unwatch, stage := .visiting hv }
  | @keep visit draft f head verdict lines hs hfetch hhead hpol hcacheable ho =>
    obtain ⟨v', hs', hv, -⟩ := (hs ▸ hal.stage).fetching_inv
    obtain ⟨f', hf', hff⟩ := hal.fetch_some hfetch
    rw [← hff.tee] at hhead
    rw [← hreq, ← hclock] at hpol
    rw [hf.opening w.sinks w'.sinks] at ho
    -- the two bodies that are opened stand for each other
    have hL := L.within_alsoBody w.bodies.length w'.bodies.length
    have hid : (L.alsoBody w.bodies.length w'.bodies.length).body w.bodies.length
      w'.bodies.length := .inr ⟨rfl, rfl⟩
    have hopened : (w.opening.note front lines).Alike k
      (L.alsoBody w.bodies.length w'.bodies.length) (w'.opening.note front lines) :=
      { h.opening with }
    obtain ⟨L₁, hL₁, hbody, hc⟩ := hopened.concluding (hL.visit hv) (.replace (.publicly hid))
    refine ⟨L₁, _, _, ⟨hL.trans hL₁, fun hb => ?_⟩,
      .keep lines hs' hf' hhead hpol hcacheable ho, ?_, hc⟩
    · rw [hbody] at hb
      exact hb.imp_right fun heq => Nat.le_of_eq heq.1.symm
    · exact { hal.mono (hL.trans hL₁) with
        copier := .some (.pump _ _ _ _ _ _ (hL₁.body hid)), joins := rfl, status := rfl
        stage := .visiting (hL₁.visit (hL.visit hv)) }
  | loseHead hs hfetch hhead hend =>
    obtain ⟨v', hs', hv, -⟩ := (hs ▸ hal.stage).fetching_inv
    obtain ⟨f', hf', hff⟩ := hal.fetch_some hfetch
    rw [← hff.tee] at hhead
    rw [← hff.ending] at hend
    refine h.mirrored_concluding hv (.fail _) ?_ (.loseHead hs' hf' hhead hend)
    exact { hal with fetch := .some hff.unwatch, stage := .visiting hv }
  | join lines hs hj =>
    refine ⟨L, _, _, .refl _ L, .join lines (hs ▸ hal.stage).joining_inv fun hjoins => ?_,
      { hal with stage := .closing _ }, { h with }⟩
    obtain ⟨f, hf, hend⟩ := hj (hal.joins ▸ hjoins)
    obtain ⟨f', hf', hff⟩ := hal.fetch_some hf
    exact ⟨f', hf', hff.ending ▸ hend⟩
  | close lines hs hj =>
    refine ⟨L, _, _, .refl _ L, .close lines (hs ▸ hal.stage).closing_inv fun hjoins => ?_, ?_,
      { h with }⟩
    · rw [hal.copier_isOver]
      exact hj (hal.joins ▸ hjoins)
    · exact { hal with stage := by rw [hal.status, hal.cache]; exact .reporting _ }
  | report hs =>
    exact ⟨L, _, _, .refl _ L, .report (hs ▸ hal.stage).reporting_inv,
      { hal with stage := .finished _ }, { h with }⟩

/-- **Exchanges that are alike can take the same turns**, in worlds that are alike. -/
theorem Alike.turn {actor : Actor} (hf : front.Impartial) (h : w.Alike k L w') (hk : x.key = k)
    (hal : x.Alike L x') (ht : Turn front w i x actor x₁ b) (i' : Nat) :
    Mirrored front k L w w' i' x' actor x₁ b := by
  cases actor with
  | front => exact h.turn_front hf hk hal ht i'
  | origin => exact h.turn_origin hal ht i'
  | copier => exact h.turn_copier hf hal ht i'

end Turn

end World
end EdgeCache
