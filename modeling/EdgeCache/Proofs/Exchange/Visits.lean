import EdgeCache.Proofs.Exchange.Record
import EdgeCache.Proofs.Store.Progress

/-!
# Exchanges and their visits

The store of a world changes only by moves of the visits of its exchanges (`Turn.store_cases`), so
what holds of every store holds of it.  Each visit that is not over belongs to one exchange
(`Attended`), so that a turn of one exchange leaves the visits of the others where they are.
-/

set_option autoImplicit false

namespace EdgeCache

/-- The visit that the stage of an exchange is about. -/
def Stage.visit? : Stage → Option Nat
  | .visiting v | .replaying v _ _ | .relaying v _ _ _ | .fetching v _ => some v
  | _ => none

namespace Store

/-- The producer of the visit has not decided yet. -/
def Phase.early : Phase → Bool
  | .returning _ _ _ | .swapping _ _ _ | .leaving _ _ | .checking _ _ | .dropping _ _ | .ended _
  | .lost => false
  | _ => true

theorem Turn.early {s b : Store} {i : Nat} {v : Visit} {now : Instant} {p : Phase}
    (ht : Turn s i v (.step now i) p b) : p.early = v.phase.early := by
  cases ht <;> simp_all [Phase.early]

theorem early_of_handed {p : Phase} {h : Option Held} (hp : p.handed = some h) :
    p.early = true := by
  cases p <;> simp_all [Phase.handed, Phase.early]

/-- The phase of a visit. -/
def phaseOf (s : Store) (v : Nat) : Option Phase := (s.visits[v]?).map (·.phase)

theorem phaseOf_eq {s : Store} {v : Nat} {u : Visit} (hu : s.visits[v]? = some u) :
    s.phaseOf v = some u.phase := by
  rw [phaseOf, hu, Option.map_some]

theorem handed_eq (s : Store) (v : Nat) : s.handed v = (s.phaseOf v).bind Phase.handed := by
  rw [handed, phaseOf]
  cases s.visits[v]? <;> rfl

theorem result_eq (s : Store) (v : Nat) : s.result v = (s.phaseOf v).bind Phase.result := by
  rw [result, phaseOf]
  cases s.visits[v]? <;> rfl

/-! ## One visit moves, the others stay -/

/-- Of the visits of two stores those of every number are alike but for one. -/
theorem step_visit {s s' : Store} {now : Instant} {i : Nat} (h : s.step now i = some s') :
    (∀ j, j ≠ i → s'.visits[j]? = s.visits[j]?) ∧
      ∃ v v', s.visits[i]? = some v ∧ s'.visits[i]? = some v' ∧ v'.key = v.key ∧
        v'.accepts = v.accepts ∧ v'.phase.early = v.phase.early := by
  obtain ⟨v, p, b, hv, ht, hg⟩ := step_cases h
  obtain ⟨since, hv'⟩ := hg.visit hv
  exact ⟨fun j hj => hg.visit_ne hj, v, _, hv, hv', rfl, rfl, ht.early⟩

theorem toGo_step {s s' : Store} {now : Instant} {i : Nat} (h : s.step now i = some s') :
    ∃ v v', s.visits[i]? = some v ∧ s'.visits[i]? = some v' ∧ v'.phase.toGo < v.phase.toGo := by
  obtain ⟨v, p, b, hv, ht, hg⟩ := step_cases h
  obtain ⟨since, hv'⟩ := hg.visit hv
  exact ⟨v, _, hv, hv', ht.toGo_lt⟩

theorem finish_visit {s s' : Store} {outcome : Outcome} {i : Nat}
    (h : s.finish i outcome = some s') :
    (∀ j, j ≠ i → s'.visits[j]? = s.visits[j]?) ∧
      ∃ v v', s.visits[i]? = some v ∧ s'.visits[i]? = some v' ∧ v'.key = v.key ∧
        v'.accepts = v.accepts ∧ v'.phase.early = false := by
  obtain ⟨v, p, b, hv, ht, hg⟩ := finish_cases h
  obtain ⟨since, hv'⟩ := hg.visit hv
  refine ⟨fun j hj => hg.visit_ne hj, v, _, hv, hv', rfl, rfl, ?_⟩
  cases ht <;> rfl

theorem length_step {s s' : Store} {now : Instant} {i : Nat} (h : s.step now i = some s') :
    s.visits.length = s'.visits.length := by
  obtain ⟨v, p, b, hv, ht, hg⟩ := step_cases h
  obtain ⟨since, hs⟩ := hg.visits
  rw [hs, List.length_set]

theorem length_finish {s s' : Store} {outcome : Outcome} {i : Nat}
    (h : s.finish i outcome = some s') : s.visits.length = s'.visits.length := by
  obtain ⟨v, p, b, hv, ht, hg⟩ := finish_cases h
  obtain ⟨since, hs⟩ := hg.visits
  rw [hs, List.length_set]

theorem length_lose (s : Store) (i : Nat) : (s.lose i).visits.length = s.visits.length := by
  rw [lose]
  split
  · rfl
  · exact List.length_set

/-- Only with its task a visit is lost. -/
theorem step_ne_lost {s s' : Store} {now : Instant} {i : Nat} (h : s.step now i = some s') :
    s'.phaseOf i ≠ some .lost := by
  obtain ⟨v, p, b, hv, ht, hg⟩ := step_cases h
  obtain ⟨since, hv'⟩ := hg.visit hv
  rw [phaseOf_eq hv', ne_eq, Option.some.injEq]
  cases ht <;> simp

theorem finish_ne_lost {s s' : Store} {outcome : Outcome} {i : Nat}
    (h : s.finish i outcome = some s') : s'.phaseOf i ≠ some .lost := by
  obtain ⟨v, p, b, hv, ht, hg⟩ := finish_cases h
  obtain ⟨since, hv'⟩ := hg.visit hv
  rw [phaseOf_eq hv', ne_eq, Option.some.injEq]
  cases ht <;> simp

theorem lose_visit {s : Store} {i : Nat} {v : Visit} (hv : (s.lose i).visits[i]? = some v) :
    v.phase = .lost := by
  rw [lose] at hv
  split at hv
  · next hnone => simp [hnone] at hv
  · next u hu =>
    simp only [moveTo, setVisit] at hv
    rw [List.getElem?_set_self (List.getElem?_eq_some_iff.1 hu).1, Option.some.injEq] at hv
    rw [← hv]

theorem lose_visit_ne (s : Store) {i j : Nat} (hij : j ≠ i) :
    (s.lose i).visits[j]? = s.visits[j]? := by
  rw [lose]
  split
  · rfl
  · exact List.getElem?_set_ne (Ne.symm hij)

theorem begin_visit_new (s : Store) (key : Bytes) (accepts : Entry → Bool) :
    ∃ v, (s.begin key accepts).1.visits[s.visits.length]? = some v ∧ v.key = key ∧
      v.accepts = accepts ∧ v.phase = .arriving := by
  refine ⟨⟨key, accepts, .arriving, s.nextPlace⟩, ?_, rfl, rfl, rfl⟩
  simp [begin]

end Store

namespace World

/-! ## What a turn makes of the store -/

/-- The entry that an exchange stores in a world, once the head of its response is known and
judged. -/
def Stores (front : Front) (w : World) (x : Exchange) (v : Nat) (e : Entry) : Prop :=
  ∃ (draft : Entry) (f : Fetch) (head : Head) (verdict : Cacheability),
    x.stage = .fetching v draft ∧ x.fetch = some f ∧ f.tee.announced = some head ∧
    front.policy x.request head w.clock = .ok verdict ∧
    (verdict.cacheable = false ∧ e = front.privately draft head ∨
      verdict.cacheable = true ∧ front.faults.opening w.sinks = none ∧
        e = front.publicly draft head verdict.expiresAt w.bodies.length)

/-- What a turn of the exchange makes of the store. -/
inductive StoreTurn (front : Front) (w : World) (x x' : Exchange) : Store → Prop
  | same (h : x'.stage.visit? = x.stage.visit?) : StoreTurn front w x x' w.store
  | leave {v : Nat} {r : VisitResult} (h : x.stage.visit? = some v) (h' : x'.stage.visit? = none)
      (hr : w.store.result v = some r) : StoreTurn front w x x' w.store
  | begin (h : x.stage = .arrived) (h' : x'.stage.visit? = some w.store.visits.length) :
      StoreTurn front w x x' (w.store.begin x.key fun e => e.answers x.request.headers).1
  | step {v : Nat} {s : Store} (h : x.stage.visit? = some v) (h' : x' = x)
      (hs : w.store.step w.clock v = some s) : StoreTurn front w x x' s
  | lose {v : Nat} (h : x.stage.visit? = some v) (h' : x'.stage.visit? = none) :
      StoreTurn front w x x' (w.store.lose v)
  | finish {v : Nat} {outcome : Outcome} {s : Store} (h : x.stage.visit? = some v)
      (h' : x'.stage.visit? = some v) (hs : w.store.finish v outcome = some s)
      (he : ∀ e, outcome = .replace e → Stores front w x v e) : StoreTurn front w x x' s

theorem storeTurn_concluding {front : Front} {w c : World} {x x' : Exchange} {v : Nat}
    {outcome : Outcome} (hc : c.store = w.store) (h : x.stage.visit? = some v)
    (h' : x'.stage.visit? = some v) (he : ∀ e, outcome = .replace e → Stores front w x v e) :
    StoreTurn front w x x' (c.concluding v outcome).store := by
  simp only [concluding, hc]
  cases hs : w.store.finish v outcome with
  | none => exact .same (h'.trans h.symm)
  | some s => exact .finish h h' hs he

/-- **The store changes by moves of visits.**  In a turn the visit of the exchange begins, takes a
step, or is lost with its task, or its producer decides. -/
theorem Turn.store {front : Front} {w b : World} {i : Nat} {x x' : Exchange} {actor : Actor}
    (ht : Turn front w i x actor x' b) : StoreTurn front w x x' b.store := by
  cases ht with
  | enter h he => exact .begin h rfl
  | skip h | forwarded h | dieForwarding h => exact .same (by rw [h]; rfl)
  | forward h =>
    rw [absorb_store]
    exact .same (by rw [h]; rfl)
  | replay h => exact .same (by rw [h]; rfl)
  | replayHead h => exact storeTurn_concluding rfl (by rw [h]; rfl) rfl nofun
  | ask h => exact .same (by rw [h]; rfl)
  | dieAsking h => exact .lose (by rw [h]; rfl) rfl
  | leave _ h hh hr => exact .leave (by rw [h]; rfl) rfl hr
  | step h hh hr hs => exact .step (by rw [h]; rfl) rfl hs
  | turn h | read h => exact .same (by rw [h]; rfl)
  | readAll h => exact storeTurn_concluding rfl (by rw [h]; rfl) rfl nofun
  | readFailed _ h => exact storeTurn_concluding rfl (by rw [h]; rfl) rfl nofun
  | relayPartly => exact .same rfl
  | relay h => exact .same (by rw [h]; rfl)
  | relayFailed h => exact storeTurn_concluding rfl (by rw [h]; rfl) rfl nofun
  | decideFail h => exact storeTurn_concluding rfl (by rw [h]; rfl) rfl nofun
  | discard _ h hf hhead hpol hv =>
    refine storeTurn_concluding rfl (by rw [h]; rfl) rfl ?_
    rintro e ⟨rfl⟩
    exact ⟨_, _, _, _, h, hf, hhead, hpol, .inl ⟨hv, rfl⟩⟩
  | openFail h => exact storeTurn_concluding rfl (by rw [h]; rfl) rfl nofun
  | keep _ h hf hhead hpol hv ho =>
    refine storeTurn_concluding rfl (by rw [h]; rfl) rfl ?_
    rintro e ⟨rfl⟩
    exact ⟨_, _, _, _, h, hf, hhead, hpol, .inr ⟨hv, ho, rfl⟩⟩
  | loseHead h => exact storeTurn_concluding rfl (by rw [h]; rfl) rfl nofun
  | join _ h | close _ h | report h => exact .same (by rw [h]; rfl)
  | origin =>
    rw [absorb_store]
    exact .same rfl
  | _ => exact .same rfl

/-- What a turn makes of the store is a move, and an entry is stored only by an exchange that knows
and has judged the head of its response. -/
theorem StoreTurn.move_stores {front : Front} {w : World} {x x' : Exchange} {s : Store}
    (h : StoreTurn front w x x' s) :
    s = w.store ∨ ∃ m, w.store.move m = some s ∧
      ∀ v e, m = .finish v (.replace e) → x.stage.visit? = some v ∧ Stores front w x v e := by
  cases h with
  | same | leave => exact .inl rfl
  | begin => exact .inr ⟨.begin x.key fun e => e.answers x.request.headers, rfl, by simp⟩
  | @step v s h h' hs => exact .inr ⟨.step w.clock v, hs, by simp⟩
  | @lose v => exact .inr ⟨.lose v, rfl, by simp⟩
  | @finish v outcome s h h' hs he =>
    refine .inr ⟨.finish v outcome, hs, ?_⟩
    rintro v' e ⟨rfl, rfl⟩
    exact ⟨h, he e rfl⟩

theorem StoreTurn.move {front : Front} {w : World} {x x' : Exchange} {s : Store}
    (h : StoreTurn front w x x' s) : s = w.store ∨ ∃ m, w.store.move m = some s := by
  rcases h.move_stores with hs | ⟨m, hm, -⟩
  · exact .inl hs
  · exact .inr ⟨m, hm⟩

/-- Whatever happens, the store is as it was or has made a move. -/
theorem store_happen {front : Front} {w w' : World} {a : Happening}
    (h : w.happen front a = some w') :
    w'.store = w.store ∨ ∃ m, w.store.move m = some w'.store := by
  rcases happen_cases h with ⟨i, actor, x, x', b, rfl, hx, ht, rfl⟩ | hout
  · exact ht.store.move
  · exact .inl hout.store

/-- The visits of other numbers than that of the exchange stay where they are. -/
theorem StoreTurn.visit_ne {front : Front} {w : World} {x x' : Exchange} {s : Store}
    (h : StoreTurn front w x x' s) {v : Nat} (hv : v < w.store.visits.length)
    (hne : x.stage.visit? ≠ some v) : s.visits[v]? = w.store.visits[v]? := by
  cases h with
  | same | leave => rfl
  | begin => exact Store.begin_visit_old hv
  | @step v' s h h' hs =>
    exact (Store.step_visit hs).1 v fun hvv => hne (hvv ▸ h)
  | @lose v' h => exact Store.lose_visit_ne _ fun hvv => hne (hvv ▸ h)
  | @finish v' outcome s h h' hs =>
    exact (Store.finish_visit hs).1 v fun hvv => hne (hvv ▸ h)

/-! ## Whose visit a visit is -/

/-- Exchanges attend to visits of their own, and the store is in order. -/
structure Attended (w : World) : Prop where
  sound : Store.Sound w.store
  offers : w.store.Offering
  /-- The visit of an exchange is for its key and accepts what answers its request. -/
  own : ∀ (i : Nat) (x : Exchange) (v : Nat), w.exchanges[i]? = some x → x.stage.visit? = some v →
    ∃ u, w.store.visits[v]? = some u ∧ u.key = x.key ∧
      u.accepts = fun e => e.answers x.request.headers
  /-- Two exchanges have two visits. -/
  distinct : ∀ (i j : Nat) (x y : Exchange) (v : Nat), w.exchanges[i]? = some x →
    w.exchanges[j]? = some y → x.stage.visit? = some v → y.stage.visit? = some v → i = j
  /-- An exchange that attends to a visit has not lost it. -/
  present : ∀ (i : Nat) (x : Exchange) (v : Nat), w.exchanges[i]? = some x →
    x.stage.visit? = some v → w.store.phaseOf v ≠ some .lost
  /-- A visit that takes more steps has an exchange that attends to it. -/
  busy : ∀ (v : Nat) (u : Store.Visit), w.store.visits[v]? = some u → u.phase.isOver = false →
    ∃ (i : Nat) (x : Exchange), w.exchanges[i]? = some x ∧ x.stage.visit? = some v

theorem Attended.lt {w : World} (ha : w.Attended) {i v : Nat} {x : Exchange}
    (hx : w.exchanges[i]? = some x) (hv : x.stage.visit? = some v) : v < w.store.visits.length := by
  obtain ⟨u, hu, -⟩ := ha.own i x v hx hv
  exact (List.getElem?_eq_some_iff.1 hu).1

/-- A turn of one exchange leaves the visit of another one where it is. -/
theorem Attended.visit_other {front : Front} {w : World} {i j v : Nat} {x x' y : Exchange}
    {s : Store}
    (ha : w.Attended) (hx : w.exchanges[i]? = some x) (hs : StoreTurn front w x x' s)
    (hy : w.exchanges[j]? = some y) (hij : j ≠ i) (hv : y.stage.visit? = some v) :
    s.visits[v]? = w.store.visits[v]? :=
  hs.visit_ne (ha.lt hy hv) fun hxv => hij (ha.distinct j i y x v hy hx hv hxv)

/-- After its turn the exchange attends to the visit it had, or to a new one. -/
theorem StoreTurn.visit?_cases {front : Front} {w : World} {x x' : Exchange} {s : Store} {v : Nat}
    (h : StoreTurn front w x x' s) (hv : x'.stage.visit? = some v) :
    x.stage.visit? = some v ∨ (v = w.store.visits.length ∧ x.stage = .arrived ∧
      s = (w.store.begin x.key fun e => e.answers x.request.headers).1) := by
  cases h with
  | same h => exact .inl (h ▸ hv)
  | leave h h' => simp [hv] at h'
  | begin h h' => exact .inr ⟨by simp_all, h, rfl⟩
  | step h h' => exact .inl (by rw [← h', hv])
  | lose h h' => simp [hv] at h'
  | finish h h' => exact .inl (by rw [h, ← h', hv])

/-- What stays of a visit in a turn of its exchange. -/
theorem StoreTurn.visit {front : Front} {w : World} {x x' : Exchange} {s : Store} {v : Nat}
    {u : Store.Visit} (h : StoreTurn front w x x' s) (hv : x.stage.visit? = some v)
    (hv' : x'.stage.visit? = some v) (hu : w.store.visits[v]? = some u) :
    ∃ u', s.visits[v]? = some u' ∧ u'.key = u.key ∧ u'.accepts = u.accepts := by
  cases h with
  | same | leave => exact ⟨u, hu, rfl, rfl⟩
  | begin h => simp [h, Stage.visit?] at hv
  | @step v' s h h' hs =>
    obtain rfl : v' = v := Option.some.inj (h.symm.trans hv)
    obtain ⟨-, u₁, u', hu₁, hu', hk, hacc, -⟩ := Store.step_visit hs
    obtain rfl : u₁ = u := Option.some.inj (hu₁.symm.trans hu)
    exact ⟨u', hu', hk, hacc⟩
  | lose h h' => simp [hv'] at h'
  | @finish v' outcome s h h' hs =>
    obtain rfl : v' = v := Option.some.inj (h.symm.trans hv)
    obtain ⟨-, u₁, u', hu₁, hu', hk, hacc, -⟩ := Store.finish_visit hs
    obtain rfl : u₁ = u := Option.some.inj (hu₁.symm.trans hu)
    exact ⟨u', hu', hk, hacc⟩

/-- A turn in which the exchange keeps its visit does not lose it. -/
theorem StoreTurn.present {front : Front} {w : World} {x x' : Exchange} {s : Store} {v : Nat}
    (h : StoreTurn front w x x' s) (hv : x.stage.visit? = some v)
    (hv' : x'.stage.visit? = some v) (hp : w.store.phaseOf v ≠ some .lost) :
    s.phaseOf v ≠ some .lost := by
  cases h with
  | same | leave => exact hp
  | begin h => simp [h, Stage.visit?] at hv
  | @step v' s h h' hs =>
    obtain rfl : v' = v := Option.some.inj (h.symm.trans hv)
    exact Store.step_ne_lost hs
  | lose h h' => simp [hv'] at h'
  | @finish v' outcome s h h' hs =>
    obtain rfl : v' = v := Option.some.inj (h.symm.trans hv)
    exact Store.finish_ne_lost hs

/-- A visit that takes more steps after a turn is the exchange's, or was busy before. -/
theorem StoreTurn.busy {front : Front} {w : World} {x x' : Exchange} {s : Store} {v : Nat}
    {u : Store.Visit} (h : StoreTurn front w x x' s) (hu : s.visits[v]? = some u)
    (hbusy : u.phase.isOver = false) :
    x'.stage.visit? = some v ∨
      x.stage.visit? ≠ some v ∧ w.store.visits[v]? = some u := by
  have hother : x.stage.visit? ≠ some v → v < w.store.visits.length →
      w.store.visits[v]? = some u := fun hne hlt => (h.visit_ne hlt hne).symm.trans hu
  by_cases hv : x.stage.visit? = some v
  · refine .inl ?_
    cases h with
    | same h => rw [h, hv]
    | @leave v' r h h' hr =>
      obtain rfl : v' = v := Option.some.inj (h.symm.trans hv)
      rw [Store.result_eq, Store.phaseOf_eq hu, Option.bind_some] at hr
      cases hp : u.phase <;> simp [hp, Store.Phase.result, Store.Phase.isOver] at hr hbusy
    | begin h => simp [h, Stage.visit?] at hv
    | step h h' => rw [h', hv]
    | @lose v' h h' =>
      obtain rfl : v' = v := Option.some.inj (h.symm.trans hv)
      simp [Store.lose_visit hu, Store.Phase.isOver] at hbusy
    | finish h h' => rw [h', ← h, hv]
  · rcases Nat.lt_or_ge v w.store.visits.length with hlt | hge
    · exact .inr ⟨hv, hother hv hlt⟩
    · -- only a visit that has just begun is new
      refine .inl ?_
      have hlen : v < s.visits.length := (List.getElem?_eq_some_iff.1 hu).1
      cases h with
      | same | leave => omega
      | begin h h' =>
        simp only [Store.begin, List.length_append, List.length_singleton] at hlen
        rw [h']
        congr 1
        omega
      | @step v' s h h' hs =>
        rw [← Store.length_step hs] at hlen
        omega
      | @lose v' h h' =>
        rw [Store.length_lose] at hlen
        omega
      | @finish v' outcome s h h' hs =>
        rw [← Store.length_finish hs] at hlen
        omega

theorem Attended.turn {front : Front} {w b : World} {i : Nat} {x x' : Exchange} {actor : Actor}
    (ha : w.Attended) (hx : w.exchanges[i]? = some x) (ht : Turn front w i x actor x' b) :
    (b.put i x').Attended where
  sound := by
    rw [put_store]
    rcases ht.store.move with h | ⟨m, h⟩
    · rw [h]
      exact ha.sound
    · exact ha.sound.move h
  offers := by
    rw [put_store]
    rcases ht.store.move with h | ⟨m, h⟩
    · rw [h]
      exact ha.offers
    · exact ha.offers.move h
  own j y v hy hv := by
    rw [put_store]
    rcases ht.exchange_cases hy with ⟨rfl, rfl⟩ | ⟨hij, hy⟩
    · rw [ht.key, ht.request]
      rcases ht.store.visit?_cases hv with hxv | ⟨rfl, -, hs⟩
      · obtain ⟨u, hu, hk, hacc⟩ := ha.own j x v hx hxv
        obtain ⟨u', hu', hk', hacc'⟩ := ht.store.visit hxv hv hu
        exact ⟨u', hu', hk'.trans hk, hacc'.trans hacc⟩
      · obtain ⟨u, hu, hk, hacc, -⟩ :=
          Store.begin_visit_new w.store x.key fun e => e.answers x.request.headers
        exact ⟨u, hs ▸ hu, hk, hacc⟩
    · rw [ha.visit_other hx ht.store hy hij hv]
      exact ha.own j y v hy hv
  distinct j k y z v hy hz hyv hzv := by
    rcases ht.exchange_cases hy with ⟨rfl, rfl⟩ | ⟨hj, hy'⟩ <;>
      rcases ht.exchange_cases hz with ⟨rfl, rfl⟩ | ⟨hk, hz'⟩
    · rfl
    · rcases ht.store.visit?_cases hyv with hxv | ⟨rfl, -⟩
      · exact ha.distinct _ _ _ _ v hx hz' hxv hzv
      · exact absurd (ha.lt hz' hzv) (Nat.lt_irrefl _)
    · rcases ht.store.visit?_cases hzv with hxv | ⟨rfl, -⟩
      · exact ha.distinct _ _ _ _ v hy' hx hyv hxv
      · exact absurd (ha.lt hy' hyv) (Nat.lt_irrefl _)
    · exact ha.distinct _ _ _ _ v hy' hz' hyv hzv
  present j y v hy hv := by
    rw [put_store]
    rcases ht.exchange_cases hy with ⟨rfl, rfl⟩ | ⟨hij, hy⟩
    · rcases ht.store.visit?_cases hv with hxv | ⟨rfl, -, hs⟩
      · exact ht.store.present hxv hv (ha.present j x v hx hxv)
      · obtain ⟨u, hu, -, -, hp⟩ :=
          Store.begin_visit_new w.store x.key fun e => e.answers x.request.headers
        rw [hs, Store.phaseOf_eq hu, hp]
        simp
    · rw [Store.phaseOf, ha.visit_other hx ht.store hy hij hv]
      exact ha.present j y v hy hv
  busy v u hu hbusy := by
    rw [put_store] at hu
    rcases ht.store.busy hu hbusy with hv | ⟨hne, hu⟩
    · exact ⟨i, x', ht.exchange_self hx, hv⟩
    · obtain ⟨j, y, hy, hv⟩ := ha.busy v u hu hbusy
      have hij : j ≠ i := by
        rintro rfl
        obtain rfl : x = y := Option.some.inj (hx.symm.trans hy)
        exact hne hv
      exact ⟨j, y, (ht.exchange_ne hij).trans hy, hv⟩

theorem Attended.outside {w w' : World} {a : Happening} (ha : w.Attended) (ho : Outside w a w') :
    w'.Attended where
  sound := ho.store ▸ ha.sound
  offers := ho.store ▸ ha.offers
  own j y v hy hv := by
    rw [ho.store]
    rcases ho.exchange j y hy with ⟨x, hx, hr⟩ | ⟨request, client, access, -, -, rfl⟩
    · rw [hr.stage] at hv
      rw [Exchange.key, hr.request]
      exact ha.own j x v hx hv
    · simp [Stage.visit?] at hv
  distinct j k y z v hy hz hyv hzv := by
    rcases ho.exchange j y hy with ⟨x, hx, hr⟩ | ⟨request, client, access, -, -, rfl⟩
    · rcases ho.exchange k z hz with ⟨x', hx', hr'⟩ | ⟨request, client, access, -, -, rfl⟩
      · rw [hr.stage] at hyv
        rw [hr'.stage] at hzv
        exact ha.distinct j k x x' v hx hx' hyv hzv
      · simp [Stage.visit?] at hzv
    · simp [Stage.visit?] at hyv
  present j y v hy hv := by
    rw [ho.store]
    rcases ho.exchange j y hy with ⟨x, hx, hr⟩ | ⟨request, client, access, -, -, rfl⟩
    · exact ha.present j x v hx (hr.stage ▸ hv)
    · simp [Stage.visit?] at hv
  busy v u hu hbusy := by
    obtain ⟨i, x, hx, hv⟩ := ha.busy v u (ho.store ▸ hu) hbusy
    obtain ⟨y, hy, hr⟩ := ho.still i x hx
    exact ⟨i, y, hy, hr.stage ▸ hv⟩

end World
end EdgeCache
