import EdgeCache.Proofs.Exchange.Steps

/-!
# Exchanges cannot get stuck

As long as some exchange is not over, a task can take a step, or an exchange waits for something
from outside: for its client to make room, or for a gate to open (`progress`).

The argument follows what tasks wait for.  An origin waits for its copier to make room, or for the
outside.  A copier waits for its origin.  A front waits for its origin or its copier, for more of
the body it reads, which a copier writes, or for its visit; and a visit waits for others, of which
one is at work (`Store.progress`).  So of an exchange that neither goes on nor waits for the outside
(`Idle`), the origin is over, then the copier; and if all are such (`Stuck`) then all bodies are
closed, and with them the fronts are over.
-/

set_option autoImplicit false

namespace EdgeCache

/-! ## Waiting for something from outside -/

/-- The front, which writes to the given client, is held up by it or at a gate. -/
def Stage.isHeld (gates : Gates) (own : Client) : Stage → Bool
  | .forwarding script => script.isHeld gates own.isFull
  | .relaying _ _ _ _ => own.isFull
  | _ => false

/-- The exchange waits for something from outside. -/
def Exchange.waits (gates : Gates) (x : Exchange) : Bool :=
  x.stage.isHeld gates x.own || x.fetch.any (·.isHeld gates)

namespace World

/-! ## What a task that does not go on waits for -/

/-- The front of an exchange does not go on. -/
inductive Rests (w : World) (x : Exchange) : Prop
  | held (h : x.stage.isHeld w.gates x.own = true)
  | visiting {visit : Nat} (h : x.stage = .visiting visit) (hh : w.store.handed visit = none)
      (hr : w.store.result visit = none) (hs : w.store.step w.clock visit = none)
  | replaying {visit : Nat} {body : StoredBody} {reader : Reader}
      (h : x.stage = .replaying visit body reader) (hr : reader.read w.bodies body = .pending)
  | fetching {visit : Nat} {draft : Entry} (h : x.stage = .fetching visit draft)
      (hr : ∀ f, x.fetch = some f → f.tee.announced = none ∧ f.ending = none)
  | joining {result : VisitResult} (h : x.stage = .joining result) (hj : x.joins = true)
      (hr : ∀ f, x.fetch = some f → f.ending = none)
  | closing {result : VisitResult} (h : x.stage = .closing result)
      (hr : x.copier.all Copier.isOver = false)
  | ended (h : x.outcome?.isSome = true ∨ x.isDead = true)

theorem frontStep_eq_none {front : Front} {w : World} {i : Nat} {x : Exchange}
    (hx : w.exchanges[i]? = some x) (h : w.frontStep front i = none) : Rests w x := by
  rw [frontStep] at h
  rw [hx] at h
  cases hs : x.stage with
  | arrived => simp [hs] at h
  | forwarding script =>
    simp only [hs] at h
    split at h
    · exact absurd h (by simp)
    · exact absurd h (by simp)
    · next hdone hdie =>
      split at h
      · next hnone =>
        refine .held ?_
        rw [hs, Stage.isHeld]
        rcases Script.step_eq_none hnone with ⟨a, ha⟩ | ⟨message, hm⟩ | ⟨chunk, k, hw, hb⟩ | hgate
        · exact absurd ha (hdone a)
        · exact absurd hm (hdie message)
        · rw [hw, Script.isHeld]
          exact Client.isFull_of_blocked hb
        · exact hgate _
      · exact absurd h (by simp)
  | visiting visit =>
    simp only [hs] at h
    split at h
    · split at h <;> exact absurd h (by simp)
    · exact absurd h (by simp)
    · next hh =>
      split at h
      · exact absurd h (by simp)
      · next hr => exact .visiting hs hh hr (Option.map_eq_none_iff.1 h)
  | replaying visit body reader =>
    simp only [hs] at h
    split at h
    · next hr => exact .replaying hs hr
    all_goals exact absurd h (by simp)
  | relaying visit body reader chunk =>
    simp only [hs] at h
    split at h
    · next hc =>
      refine .held ?_
      rw [hs, Stage.isHeld]
      exact Client.isFull_of_blocked hc
    all_goals exact absurd h (by simp)
  | fetching visit draft =>
    simp only [hs] at h
    refine .fetching hs fun f hf => ?_
    simp only [hf, Fetch.headEvent] at h
    cases hann : f.tee.announced with
    | some head => simp [hann] at h
    | none =>
      cases hend : f.ending with
      | some ending => simp [hann, hend] at h
      | none => exact ⟨rfl, rfl⟩
  | joining result =>
    simp only [hs] at h
    split at h
    · exact absurd h (by simp)
    · next hj =>
      refine .joining hs (by simpa using hj) fun f hf => ?_
      simp only [hf] at h
      split at h
      · exact absurd h (by simp)
      · next hend => simpa using hend
  | closing result =>
    simp only [hs] at h
    split at h
    · next hj =>
      refine .closing hs ?_
      cases hcop : x.copier with
      | none => simp [hcop] at hj
      | some c => simp_all
    · exact absurd h (by simp)
  | reporting outcome => simp [hs] at h
  | finished outcome => exact .ended (.inl (by rw [Exchange.outcome?, hs]; rfl))
  | died => exact .ended (.inr (by rw [Exchange.isDead, hs]))

theorem originStep_eq_none {front : Front} {w : World} {i : Nat} {x : Exchange} {f : Fetch}
    (hx : w.exchanges[i]? = some x) (hf : x.fetch = some f) (h : w.originStep front i = none) :
    f.step w.gates = none := by
  rw [originStep] at h
  simp only [hx, hf] at h
  split at h
  · assumption
  · exact absurd h (by simp)

/-- A copier that does not go on is over, or waits for its origin. -/
theorem copierStep_eq_none {front : Front} {w : World} {i : Nat} {x : Exchange} {c : Copier}
    {f : Fetch} (hx : w.exchanges[i]? = some x) (hcop : x.copier = some c) (hf : x.fetch = some f)
    (h : w.copierStep front i = none) :
    c.isOver = true ∨ (f.ending = none ∧ f.tee.buffer = []) := by
  have hpending : f.receive.1 = .pending → f.ending = none ∧ f.tee.buffer = [] := by
    rw [Fetch.receive]
    split
    · simp
    · split
      · simp
      · next hbuf =>
        intro hp
        split at hp
        · exact absurd hp (by simp)
        · next hend => exact ⟨by simpa using hend, hbuf⟩
  rw [copierStep] at h
  simp only [hx, hcop, hf] at h
  cases c with
  | drain stopped =>
    cases stopped with
    | true => exact .inl rfl
    | false =>
      simp only at h
      split at h
      · exact absurd h (by simp)
      · next hr => exact .inr (hpending (by rw [hr]))
      · exact absurd h (by simp)
  | pump sink body failed writes stored doing =>
    cases doing with
    | taking =>
      simp only at h
      split at h
      · exact absurd h (by simp)
      · next hr => exact .inr (hpending (by rw [hr]))
      · exact absurd h (by simp)
    | writing data =>
      simp only at h
      split at h <;> exact absurd h (by simp)
    | closing => simp at h
    | stopped => exact .inl rfl

/-! ## An exchange that does not go on -/

/-- None of the tasks of the exchange can take a step, and it does not wait for something from
outside. -/
structure Idle (front : Front) (w : World) (i : Nat) (x : Exchange) : Prop where
  exchange : w.exchanges[i]? = some x
  noStep : ∀ actor : Actor, w.step front i actor = none
  noWait : x.waits w.gates = false

section Idle

variable {front : Front} {t : History} {w : World} {i : Nat} {x : Exchange}

theorem Idle.rests (h : Idle front w i x) : Rests w x :=
  frontStep_eq_none h.exchange (h.noStep .front)

theorem Idle.not_held (h : Idle front w i x) :
    x.stage.isHeld w.gates x.own = false ∧ ∀ f, x.fetch = some f → f.isHeld w.gates = false := by
  have hwait := h.noWait
  simp only [Exchange.waits, Bool.or_eq_false_iff] at hwait
  refine ⟨hwait.1, fun f hf => ?_⟩
  have hany := hwait.2
  rw [hf] at hany
  exact hany

/-- First, its origin is over: a full buffer would be emptied by a copier, or it has a head that the
front waits for. -/
theorem Idle.origin_over (h : Idle front w i x) (ho : Orderly front t w) {f : Fetch}
    (hf : x.fetch = some f) : f.ending.isSome = true := by
  have hx := h.exchange
  have hc := ho.course i x hx
  have hwatched := ho.watched i x f hx hf
  rcases Fetch.step_eq_none (originStep_eq_none hx hf (h.noStep .origin)) with
    hend | hheld | ⟨hcons, hbuf⟩
  · exact hend
  · simp [h.not_held.2 f hf] at hheld
  · rcases hc.asked_of_fetch hf with ⟨-, -, f', hf', hcopier⟩ | ⟨v, draft, hs⟩
    · obtain rfl : f = f' := Option.some.inj (hf.symm.trans hf')
      rw [hcons] at hcopier
      obtain ⟨c, hcop⟩ := Option.isSome_iff_exists.1 hcopier.symm
      rcases copierStep_eq_none hx hcop hf (h.noStep .copier) with hover | ⟨-, hempty⟩
      · cases c with
        | drain stopped =>
          simp only [Copier.isOver] at hover
          subst hover
          exact (hwatched.drained hcop).1
        | pump sink id failed writes stored doing =>
          simp only [Copier.isOver, beq_iff_eq] at hover
          subst hover
          obtain ⟨f', g, hf', -, hp⟩ := ho.pumps i x sink id failed writes stored _ hx hcop
          obtain rfl : f = f' := Option.some.inj (hf.symm.trans hf')
          exact (hp.exhausted (.inr rfl)).1
      · exact absurd hempty hbuf
    · -- what is in the buffer was written after the head
      obtain ⟨slot, previous, f', expiration, -, -, -, hf', hcons', hcop, -⟩ := hc.fetching hs
      obtain rfl : f = f' := Option.some.inj (hf.symm.trans hf')
      cases h.rests with
      | fetching hs' hr =>
        have hpassed := (hwatched.quiet (hr f hf).1).2
        rw [← hwatched.buffer hcop hcons] at hpassed
        exact absurd hpassed hbuf
      | held hheld => simp [h.not_held.1] at hheld
      | ended hover => simp [Exchange.outcome?, Exchange.isDead, hs] at hover
      | _ => simp_all

/-- Then its copier is. -/
theorem Idle.copier_over (h : Idle front w i x) (ho : Orderly front t w) :
    x.copier.all Copier.isOver = true := by
  have hx := h.exchange
  cases hcop : x.copier with
  | none => rfl
  | some c =>
    obtain ⟨-, -, f, hf, -⟩ := (ho.course i x hx).asked_of_copier (by rw [hcop]; rfl)
    have hend := h.origin_over ho hf
    rcases copierStep_eq_none hx hcop hf (h.noStep .copier) with hover | ⟨hnone, -⟩
    · exact hover
    · simp [hnone] at hend

/-- So it is over if its front is. -/
theorem Idle.isOver (h : Idle front w i x) (ho : Orderly front t w)
    (hfront : x.outcome?.isSome = true ∨ x.isDead = true) : x.isOver = true := by
  have horigin : x.fetch.all (·.ending.isSome) = true := by
    cases hf : x.fetch with
    | none => rfl
    | some f => exact h.origin_over ho hf
  simp only [Exchange.isOver, Bool.and_eq_true, Bool.or_eq_true]
  exact ⟨⟨hfront, horigin⟩, h.copier_over ho⟩

/-- Unless its front is over, that waits for its visit, or for more of the body it reads. -/
theorem Idle.front_cases (h : Idle front w i x) (ho : Orderly front t w) :
    (x.outcome?.isSome = true ∨ x.isDead = true) ∨
      (∃ visit, x.stage = .visiting visit ∧ w.store.handed visit = none ∧
        w.store.result visit = none ∧ w.store.step w.clock visit = none) ∨
      ∃ visit body reader, x.stage = .replaying visit body reader ∧
        reader.read w.bodies body = .pending := by
  have hc := ho.course i x h.exchange
  have hjoined : Settled front t w i x → x.joins = true →
      ∃ f, x.fetch = some f ∧ f.ending.isSome = true := by
    rintro (⟨e, hr, -⟩ | ⟨-, -, f, hf, -⟩ | ⟨-, -, -, hj⟩) hjoins
    · simp [hr.joins] at hjoins
    · exact ⟨f, hf, h.origin_over ho hf⟩
    · simp [hj] at hjoins
  cases h.rests with
  | held hheld => simp [h.not_held.1] at hheld
  | visiting hs hh hr hstep => exact .inr (.inl ⟨_, hs, hh, hr, hstep⟩)
  | replaying hs hr => exact .inr (.inr ⟨_, _, _, hs, hr⟩)
  | fetching hs hr =>
    obtain ⟨slot, previous, f, expiration, -, -, -, hf, -⟩ := hc.fetching hs
    have hend := h.origin_over ho hf
    simp [(hr f hf).2] at hend
  | joining hs hj hr =>
    have hsettled : Settled front t w i x := by simpa only [Course, hs] using hc
    obtain ⟨f, hf, hend⟩ := hjoined hsettled hj
    simp [hr f hf] at hend
  | closing hs hr => simp [h.copier_over ho] at hr
  | ended hover => exact .inl hover

end Idle

/-- A visit that an exchange has not left is not over. -/
theorem Orderly.visit_busy {front : Front} {t : History} {w : World} {i visit : Nat} {x : Exchange}
    (ho : Orderly front t w) (hx : w.exchanges[i]? = some x) (hs : x.stage = .visiting visit)
    (hr : w.store.result visit = none) :
    ∃ u, w.store.visits[visit]? = some u ∧ u.phase.isOver = false := by
  have hv : x.stage.visit? = some visit := by rw [hs]; rfl
  obtain ⟨u, hu, -⟩ := ho.attended.own i x visit hx hv
  refine ⟨u, hu, ?_⟩
  have hlost := ho.attended.present i x visit hx hv
  rw [Store.phaseOf_eq hu] at hlost
  rw [Store.result_eq, Store.phaseOf_eq hu, Option.bind_some] at hr
  cases hp : u.phase with
  | ended r => simp [hp, Store.Phase.result] at hr
  | lost => simp [hp] at hlost
  | _ => rfl

/-- A visit that can take a step is that of an exchange that waits for it to be over, -/
theorem Orderly.visitor {front : Front} {t : History} {w : World} {v : Nat} {s : Store}
    (ho : Orderly front t w) (h : w.store.step w.clock v = some s) :
    ∃ (i : Nat) (x : Exchange), w.exchanges[i]? = some x ∧ x.stage = .visiting v ∧
      w.store.handed v = none ∧ w.store.result v = none := by
  obtain ⟨-, u, -, hu, -⟩ := Store.step_visit h
  obtain ⟨i, x, hx, hv⟩ := ho.attended.busy v u hu (Store.busy_of_step hu h)
  have hc := ho.course i x hx
  -- while a producer runs, the visit takes no step
  have hruns : ∀ p, w.store.phaseOf v = some p → p.handed = none ∧ p.result = none := by
    intro p hp
    obtain rfl : u.phase = p := Option.some.inj ((Store.phaseOf_eq hu).symm.trans hp)
    rw [Store.step] at h
    rw [hu] at h
    cases hph : u.phase <;> simp [hph, Store.Phase.handed, Store.Phase.result] at h ⊢
  refine ⟨i, x, hx, ?_⟩
  cases hs : x.stage with
  | visiting v' =>
    obtain rfl : v' = v := by simpa [hs, Stage.visit?] using hv
    obtain ⟨hh, hr⟩ := hruns _ (Store.phaseOf_eq hu)
    refine ⟨rfl, ?_, ?_⟩
    · rw [Store.handed_eq, Store.phaseOf_eq hu, Option.bind_some, hh]
    · rw [Store.result_eq, Store.phaseOf_eq hu, Option.bind_some, hr]
  | replaying v' body r =>
    obtain rfl : v' = v := by simpa [hs, Stage.visit?] using hv
    obtain ⟨e, slot, n, hp, -⟩ := hc.replaying hs
    simpa [Store.Phase.handed] using (hruns _ hp).1
  | relaying v' body r chunk =>
    obtain rfl : v' = v := by simpa [hs, Stage.visit?] using hv
    obtain ⟨e, slot, n, hp, -⟩ := hc.relaying hs
    simpa [Store.Phase.handed] using (hruns _ hp).1
  | fetching v' draft =>
    obtain rfl : v' = v := by simpa [hs, Stage.visit?] using hv
    obtain ⟨slot, previous, f, expiration, hp, -⟩ := hc.fetching hs
    simpa [Store.Phase.handed] using (hruns _ hp).1
  | _ => simp [hs, Stage.visit?] at hv

/-- and its front takes it. -/
theorem frontStep_visit {front : Front} {w : World} {i v : Nat} {x : Exchange} {s : Store}
    (hx : w.exchanges[i]? = some x) (hs : x.stage = .visiting v) (hh : w.store.handed v = none)
    (hr : w.store.result v = none) (h : w.store.step w.clock v = some s) :
    ∃ log, w.step front i .front = some { w with store := s, log } := by
  have ht : Turn front w i x .front x { w with store := s } := .step hs hh hr h
  obtain ⟨log, hstep⟩ := ht.happens hx
  have hput : World.put { w with store := s } i x = { w with store := s } := put_self hx
  exact ⟨log, by rw [hstep, hput]⟩

theorem Orderly.front_steps {front : Front} {t : History} {w : World} {v : Nat} {s : Store}
    (ho : Orderly front t w) (h : w.store.step w.clock v = some s) :
    ∃ (i : Nat) (w' : World), w.step front i .front = some w' := by
  obtain ⟨i, x, hx, hs, hh, hr⟩ := ho.visitor h
  obtain ⟨log, hstep⟩ := frontStep_visit hx hs hh hr h
  exact ⟨i, _, hstep⟩

/-! ## Nobody goes on -/

/-- None of the exchanges with these keys goes on or waits for something from outside, and no visit
goes on; and what they read is written by one of them. -/
structure Stalled (front : Front) (keys : Bytes → Prop) (w : World) : Prop where
  idle : ∀ (i : Nat) (x : Exchange), w.exchanges[i]? = some x → keys x.key → Idle front w i x
  noMove : ∀ v, w.store.step w.clock v = none
  fed : ∀ (i : Nat) (x : Exchange) (visit id : Nat) (reader : Reader) (g : Growing),
    w.exchanges[i]? = some x → keys x.key → x.stage = .replaying visit (.growing id) reader →
    w.bodies[id]? = some g → g.closed = false →
    ∃ (j : Nat) (y : Exchange) (doing : Copying), w.exchanges[j]? = some y ∧ keys y.key ∧
      Copies y id doing

section Stalled

variable {front : Front} {t : History} {w : World} {keys : Bytes → Prop} {i : Nat} {x : Exchange}

/-- The bodies that they read are closed, -/
theorem Stalled.closed (h : Stalled front keys w) (ho : Orderly front t w)
    (hx : w.exchanges[i]? = some x) (hk : keys x.key) {visit id : Nat} {reader : Reader}
    (hs : x.stage = .replaying visit (.growing id) reader) {g : Growing}
    (hg : w.bodies[id]? = some g) : g.closed = true := by
  cases hopen : g.closed with
  | true => rfl
  | false =>
    obtain ⟨j, y, doing, hy, hky, sink, failed, writes, stored, hcop⟩ :=
      h.fed i x visit id reader g hx hk hs hg hopen
    have hover := (h.idle j y hy hky).copier_over ho
    simp only [hcop, Option.all_some, Copier.isOver, beq_iff_eq] at hover
    obtain ⟨f, g', -, hg', hp⟩ := ho.pumps j y sink id failed writes stored doing hy hcop
    obtain rfl : g = g' := Option.some.inj (hg.symm.trans hg')
    exact absurd (hp.closed.2 hover) (by simp [hopen])

/-- and a reader of a body that is closed has something to do. -/
theorem Stalled.ne_pending (h : Stalled front keys w) (ho : Orderly front t w)
    (hx : w.exchanges[i]? = some x) (hk : keys x.key) {visit : Nat} {body : StoredBody}
    {reader : Reader} (hs : x.stage = .replaying visit body reader) :
    reader.read w.bodies body ≠ .pending := by
  obtain ⟨e, slot, n, -, -, id, g, -, rfl, hg, -⟩ := (ho.course i x hx).replaying hs
  have hattached := ho.attached id g hg
  rw [h.closed ho hx hk hs hg] at hattached
  rw [Reader.read_growing hg]
  intro hpending
  cases Reader.look hpending with
  | waits _ _ hattached' => simp [hattached] at hattached'

/-- So the fronts are over, but for those that wait for their visit. -/
theorem Stalled.front_over (h : Stalled front keys w) (ho : Orderly front t w)
    (hx : w.exchanges[i]? = some x) (hk : keys x.key) :
    (x.outcome?.isSome = true ∨ x.isDead = true) ∨ ∃ visit, x.stage = .visiting visit ∧
      w.store.handed visit = none ∧ w.store.result visit = none := by
  rcases (h.idle i x hx hk).front_cases ho with
    hover | ⟨visit, hs, hh, hr, -⟩ | ⟨visit, body, reader, hs, hr⟩
  · exact .inl hover
  · exact .inr ⟨visit, hs, hh, hr⟩
  · exact absurd hr (h.ne_pending ho hx hk hs)

/-- And of these there are none, for what one of them waits for an exchange with the same key
has. -/
theorem Stalled.isOver (h : Stalled front keys w) (ho : Orderly front t w)
    (hx : w.exchanges[i]? = some x) (hk : keys x.key) : x.isOver = true := by
  rcases h.front_over ho hx hk with hover | ⟨visit, hs, hh, hr⟩
  · exact (h.idle i x hx hk).isOver ho hover
  · exfalso
    obtain ⟨u, hu, hbusy⟩ := ho.visit_busy hx hs hr
    have hsound := ho.attended.sound
    obtain ⟨u₀, hu₀, hkey, -⟩ := ho.attended.own i x visit hx (by rw [hs]; rfl)
    obtain rfl : u = u₀ := Option.some.inj (hu.symm.trans hu₀)
    rcases Store.progress w.clock hu hbusy with
      ⟨j, s', hj⟩ | ⟨j, u', previous, hu', hh', rfl | ⟨slot, hbound, hwriting⟩⟩
    · simp [h.noMove j] at hj
    · rw [Store.handed, hu', Option.bind_some, hh'] at hh
      exact absurd hh (by simp)
    · -- the slot is that of both keys, and whoever has it would run its producer
      have hkey' : u'.key = x.key := by
        rw [← hkey]
        exact hsound.inj _ _ slot
          (hsound.bound j u' slot hu' (Store.Phase.bound_of_writing hwriting))
          (hsound.bound visit u slot hu hbound)
      have hbusy' : u'.phase.isOver = false := by
        cases hp : u'.phase <;> simp [hp, Store.Phase.handed] at hh' <;> rfl
      obtain ⟨m, y, hy, hyv⟩ := ho.attended.busy j u' hu' hbusy'
      obtain ⟨u₁, hu₁, hkey₁, -⟩ := ho.attended.own m y j hy hyv
      obtain rfl : u' = u₁ := Option.some.inj (hu'.symm.trans hu₁)
      have hky : keys y.key := hkey₁ ▸ hkey' ▸ hk
      rcases h.front_over ho hy hky with hover | ⟨v', hs', hh₁, -⟩
      · simp only [Exchange.outcome?, Exchange.isDead] at hover
        cases hs' : y.stage <;> simp [hs', Stage.visit?] at hover hyv
      · obtain rfl : v' = j := by simpa [hs', Stage.visit?] using hyv
        rw [Store.handed, hu', Option.bind_some, hh'] at hh₁
        exact absurd hh₁ (by simp)

end Stalled

/-- No task can take a step, and no exchange waits for something from outside. -/
structure Stuck (front : Front) (w : World) : Prop where
  noStep : ∀ (i : Nat) (actor : Actor), w.step front i actor = none
  noWait : ∀ (i : Nat) (x : Exchange), w.exchanges[i]? = some x → x.waits w.gates = false

/-- Then nothing goes on with any key. -/
theorem Stuck.stalled {front : Front} {t : History} {w : World} (h : Stuck front w)
    (ho : Orderly front t w) : Stalled front (fun _ => True) w where
  idle i x hx _ := ⟨hx, h.noStep i, h.noWait i x hx⟩
  noMove v := by
    cases hs : w.store.step w.clock v with
    | none => rfl
    | some s =>
      obtain ⟨i, w', hstep⟩ := ho.front_steps hs
      simp [h.noStep i .front] at hstep
  fed _ _ _ id _ g _ _ _ hg hopen := by
    obtain ⟨j, y, doing, hy, hcop⟩ := ho.fed id g hg hopen
    exact ⟨j, y, doing, hy, trivial, hcop⟩

/-- **Exchanges cannot get stuck.**  In every world that is in order, all exchanges are over, or a
task can take a step, or an exchange waits for something from outside. -/
theorem Orderly.progress {front : Front} {t : History} {w : World} (ho : Orderly front t w) :
    (∀ (i : Nat) (x : Exchange), w.exchanges[i]? = some x → x.isOver = true) ∨
      (∃ (i : Nat) (actor : Actor) (w' : World), w.step front i actor = some w') ∨
      ∃ (i : Nat) (x : Exchange), w.exchanges[i]? = some x ∧ x.waits w.gates = true := by
  by_cases hstep : ∃ (i : Nat) (actor : Actor) (w' : World), w.step front i actor = some w'
  · exact .inr (.inl hstep)
  · by_cases hwait : ∃ (i : Nat) (x : Exchange), w.exchanges[i]? = some x ∧ x.waits w.gates = true
    · exact .inr (.inr hwait)
    · have hstuck : Stuck front w := by
        refine ⟨fun i actor => ?_, fun i x hx => ?_⟩
        · cases h : w.step front i actor with
          | none => rfl
          | some w' => exact absurd ⟨i, actor, w', h⟩ hstep
        · cases h : x.waits w.gates with
          | false => rfl
          | true => exact absurd ⟨i, x, hx, h⟩ hwait
      exact .inl fun i x hx => (hstuck.stalled ho).isOver ho hx trivial

end World
end EdgeCache
