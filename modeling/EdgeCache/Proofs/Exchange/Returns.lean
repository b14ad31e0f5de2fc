import EdgeCache.Proofs.Exchange.Decisions
import EdgeCache.Proofs.Exchange.Provenance
import EdgeCache.Proofs.Exchange.Transparency

/-!
# What is left behind by a call that returns

A call returns when its front has an outcome to report.  Its origin and its copier run as tasks of
their own, and the front awaits them only if it has stored something.  `Accounts` says what is known
of an exchange by the result of its visit, and `Reckoned` carries it from the decision of the
producer to the outcome.

`cleared_iff` says when nothing is left behind: always, but for one case.  When the policy or the
store fails after the head of the response is known, the front gives the consumer's end of the tee
up and awaits nobody, so that the call may return while its origin still writes to the client.
-/

set_option autoImplicit false

namespace EdgeCache

/-- The error gives up a response whose head is known. -/
def CacheError.abandons : CacheError → Bool
  | .policy _ | .storage _ => true
  | _ => false

/-- The outcome, once the front has returned it. -/
def Exchange.returned? (x : Exchange) : Option Handled :=
  match x.stage with
  | .reporting outcome | .finished outcome => some outcome
  | _ => none

/-! ## How a visit will end -/

namespace Store

/-- How the visit will end, once its producer has decided. -/
def Phase.due : Phase → Option VisitResult
  | .returning _ _ _ | .swapping _ _ _ => some (.ok ())
  | .leaving _ r | .checking _ r | .dropping _ r | .ended r => some r
  | _ => none

/-- How a visit will end, once its producer has decided. -/
def due (s : Store) (v : Nat) : Option VisitResult := (s.phaseOf v).bind Phase.due

theorem due_eq {s : Store} {v : Nat} {u : Visit} (hu : s.visits[v]? = some u) :
    s.due v = u.phase.due := by
  rw [due, phaseOf_eq hu, Option.bind_some]

/-- What is due stays so until the visit has ended. -/
theorem due_step {s s' : Store} {now : Instant} {v : Nat} (h : s.step now v = some s') :
    s'.due v = s.due v := by
  obtain ⟨u, p, b, hu, ht, hg⟩ := step_cases h
  obtain ⟨since, hu'⟩ := hg.visit hu
  rw [due_eq hu', due_eq hu]
  cases ht <;> simp_all [Phase.due]

theorem due_finish {s s' : Store} {outcome : Outcome} {v : Nat} (h : s.finish v outcome = some s') :
    s'.due v = some outcome.result := by
  obtain ⟨-, u, u', hu, hu', -⟩ := finish_visit h
  have hlt := (List.getElem?_eq_some_iff.1 hu).1
  rw [due_eq hu']
  rw [finish, hu] at h
  cases hp : u.phase <;> cases outcome <;>
    simp only [hp, Option.some.injEq, reduceCtorEq] at h <;> subst h <;>
    simp [waitIn, setVisit, replaceIn, setVariants, List.getElem?_set_self hlt] at hu' <;>
    subst hu' <;> rfl

theorem due_of_result {s : Store} {v : Nat} {r : VisitResult} (h : s.result v = some r) :
    s.due v = some r := by
  rw [result_eq, Option.bind_eq_some_iff] at h
  obtain ⟨p, hp, hr⟩ := h
  rw [due, hp, Option.bind_some]
  cases p <;> simp_all [Phase.result, Phase.due]

end Store

namespace World

/-- The producer that runs has decided. -/
theorem due_concluding {c : World} {v : Nat} {previous : Option Held} (outcome : Outcome)
    (hh : c.store.handed v = some previous) :
    (c.concluding v outcome).store.due v = some outcome.result := by
  obtain ⟨s', hs⟩ := Store.finish_isSome outcome hh
  simp only [concluding, hs]
  exact Store.due_finish hs

/-! ## Origins -/

/-- An origin that has ended has let go of its client, and a consumer that has gone away has left
nothing in the buffer. -/
structure Tended (f : Fetch) : Prop where
  released : f.ending.isSome = true → f.tee.client.released = true
  empty : f.tee.consumed = false → f.tee.buffer = []

theorem Tended.turn {f f' : Fetch} {a : Option (Bytes × Option IoError)} {p : Option Bytes}
    (h : Tended f) (hend : f.ending = none) (ht : f.Turn a p f') : Tended f' where
  released hended := by
    cases ht with
    | close => rfl
    | _ => simp [hend] at hended
  empty hgone := by
    have hgone' := ht.consumed.symm.trans hgone
    rw [ht.buffer_of_gone hgone', h.empty hgone']

section Turn

variable {front : Front} {t : History} {w w' b : World} {i : Nat} {x x' y : Exchange}
  {actor : Actor}

theorem tended_turn (ht : Turn front w i x actor x' b) (h : ∀ f, x.fetch = some f → Tended f) :
    ∀ f, x'.fetch = some f → Tended f := by
  intro f' hf'
  cases ht with
  | ask =>
    obtain rfl := Option.some.inj hf'
    exact ⟨by simp [Fetch.start], by simp [Fetch.start]⟩
  | decideFail _ hf | openFail _ hf | loseHead _ hf =>
    obtain rfl := Option.some.inj hf'
    exact ⟨(h _ hf).released, fun _ => rfl⟩
  | origin hf hs =>
    obtain rfl := Option.some.inj hf'
    obtain ⟨hend, hturn⟩ := Fetch.step_cases hs
    exact (h _ hf).turn hend hturn
  | drain _ hf hr | pump _ hf hr =>
    obtain rfl := Option.some.inj hf'
    obtain ⟨rest, hcons, -, rfl⟩ := Fetch.receive_chunk hr
    exact ⟨(h _ hf).released, fun hgone => by simp [hcons] at hgone⟩
  | _ => exact h f' hf'

/-! ## What the result of a visit says of the exchange -/

/-- What is known of an exchange whose visit ends so. -/
inductive Accounts (x : Exchange) : VisitResult → Prop
  /-- An entry has been replayed. -/
  | replayed (hf : x.fetch = none) (hreleased : x.own.released = true) : Accounts x (.ok ())
  /-- The response has been stored, and the tasks in the background are awaited. -/
  | stored {f : Fetch} {head : Head} (hf : x.fetch = some f)
      (hhead : f.tee.announced = some head) (hstatus : x.status = head.status)
      (hjoins : x.joins = true) : Accounts x (.ok ())
  /-- The origin has ended without a head. -/
  | headless {f : Fetch} (hf : x.fetch = some f) (hhead : f.tee.announced = none)
      (hend : f.ending.isSome = true) (hjoins : x.joins = false) :
      Accounts x (.error .headersUnavailable)
  /-- The response has been given up when its head was known. -/
  | abandoned {f : Fetch} {e : CacheError} (hf : x.fetch = some f)
      (hhead : f.tee.announced.isSome = true) (he : e.abandons = true) (hjoins : x.joins = false) :
      Accounts x (.error e)

theorem Accounts.staged {r : VisitResult} (h : Accounts x r) (stage : Stage) :
    Accounts { x with stage } r := by
  cases h with
  | replayed hf hreleased => exact .replayed hf hreleased
  | stored hf hhead hstatus hjoins => exact .stored hf hhead hstatus hjoins
  | headless hf hhead hend hjoins => exact .headless hf hhead hend hjoins
  | abandoned hf hhead he hjoins => exact .abandoned hf hhead he hjoins

theorem Accounts.relinked {r : VisitResult} (h : Accounts x r) (hr : Relinked x y) :
    Accounts y r := by
  cases h with
  | replayed hf hreleased =>
    refine .replayed (hr.fetch_eq_none hf) ?_
    cases hr with
    | own link hf' hy => rw [hy, ← hreleased]
    | tee link hf' hy => simp [hf] at hf'
  | stored hf hhead hstatus hjoins =>
    obtain ⟨link, hy⟩ := hr.fetch_eq_some hf
    exact .stored hy hhead (hr.status.trans hstatus) (hr.joins.trans hjoins)
  | headless hf hhead hend hjoins =>
    obtain ⟨link, hy⟩ := hr.fetch_eq_some hf
    exact .headless hy hhead hend (hr.joins.trans hjoins)
  | abandoned hf hhead he hjoins =>
    obtain ⟨link, hy⟩ := hr.fetch_eq_some hf
    exact .abandoned hy hhead he (hr.joins.trans hjoins)

/-- The tasks in the background leave the account as it is. -/
theorem Accounts.background {r : VisitResult} (h : Accounts x r) (ho : Orderly front t w)
    (hx : w.exchanges[i]? = some x) (ht : Turn front w i x actor x' b) (hne : actor ≠ .front) :
    Accounts x' r := by
  obtain ⟨-, hown, -, hstatus, hjoins, -, -, -⟩ := ht.background hne
  cases h with
  | replayed hf hreleased =>
    refine .replayed ?_ (by rw [hown, hreleased])
    cases ht with
    | origin hf' | drain _ hf' | pump _ hf' => simp [hf] at hf'
    | drained | pumped | writeFail | write | stop => exact hf
    | _ => exact absurd rfl hne
  | stored hf hhead hst hj =>
    obtain ⟨f', hf', hann, -⟩ := ho.announced_turn hx ht hf
    exact .stored hf' (hann _ hhead) (hstatus.trans hst) (hjoins.trans hj)
  | headless hf hhead hend hj =>
    obtain ⟨f', hf', -, hended⟩ := ho.announced_turn hx ht hf
    exact .headless hf' ((hended hend).1.trans hhead) (hended hend).2 (hjoins.trans hj)
  | abandoned hf hhead he hj =>
    obtain ⟨head, hhead⟩ := Option.isSome_iff_exists.1 hhead
    obtain ⟨f', hf', hann, -⟩ := ho.announced_turn hx ht hf
    exact .abandoned hf' (by rw [hann _ hhead]; rfl) he (hjoins.trans hj)

/-! ## From the decision to the outcome -/

/-- The origin has ended, if the tasks in the background are awaited. -/
def Awaited (x : Exchange) : Prop :=
  x.joins = true → ∃ f, x.fetch = some f ∧ f.ending.isSome = true

/-- What is known of an exchange with that outcome: its origin has run in the front, or its visit
has ended so, and what had to be awaited is over. -/
def Returns (x : Exchange) (o : Handled) : Prop :=
  (Skips x ∧ x.own.released = true) ∨
    ∃ r, o.error = failureOf r ∧ Accounts x r ∧ Awaited x ∧
      (x.joins = true → x.copier.all Copier.isOver = true)

/-- What is known of an exchange from the decision of its producer on. -/
def Reckoned (w : World) (x : Exchange) : Prop :=
  match x.stage with
  | .visiting v => ∀ r, w.store.due v = some r → Accounts x r
  | .joining r => Accounts x r
  | .closing r => Accounts x r ∧ Awaited x
  | .reporting o | .finished o => Returns x o
  | _ => True

/-- What has become of an exchange that has returned. -/
theorem Course.returned {o : Handled} (hc : Course front t w i x) (h : x.returned? = some o) :
    Settled front t w i x ∧ o.cache = x.cache ∧ (x.cache ≠ .skip → o.status = x.status) := by
  rw [Exchange.returned?] at h
  rw [Course] at hc
  split at h <;> simp_all

/-- Of an origin that has run in the front nothing is left but the outcome. -/
theorem left_eq_done {o : Handled} {s : Script Handled} (h : x.returned? = some o)
    (hs : x.stage.left? = some s) : s = .done o := by
  rw [Exchange.returned?] at h
  split at h <;> simp_all [Stage.left?]

theorem Reckoned.returns {o : Handled} (h : Reckoned w x) (ho : x.returned? = some o) :
    Returns x o := by
  rw [Exchange.returned?] at ho
  rw [Reckoned] at h
  split at ho <;> simp_all

/-- A copier that is over takes no turn. -/
theorem Turn.copier_over (ht : Turn front w i x actor x' b) (hne : actor ≠ .front)
    (h : x.copier.all Copier.isOver = true) : x'.copier = x.copier := by
  cases ht with
  | origin => rfl
  | drain hc | drained hc | pump hc | pumped hc | writeFail _ hc | write hc | stop _ hc =>
    simp [hc, Copier.isOver] at h
  | _ => exact absurd rfl hne

theorem Awaited.background (h : Awaited x) (ho : Orderly front t w)
    (hx : w.exchanges[i]? = some x) (ht : Turn front w i x actor x' b) (hne : actor ≠ .front) :
    Awaited x' := by
  intro hj
  obtain ⟨f, hf, hend⟩ := h (by rw [← hj, (ht.background hne).2.2.2.2.1])
  obtain ⟨f', hf', -, hended⟩ := ho.announced_turn hx ht hf
  exact ⟨f', hf', (hended hend).2⟩

theorem Awaited.relinked (h : Awaited x) (hr : Relinked x y) : Awaited y := by
  intro hj
  obtain ⟨f, hf, hend⟩ := h (hr.joins ▸ hj)
  obtain ⟨link, hy⟩ := hr.fetch_eq_some hf
  exact ⟨_, hy, hend⟩

theorem Relinked.released (hr : Relinked x y) : y.own.released = x.own.released := by
  cases hr with
  | own link hf hy | tee link hf hy => rw [hy]

theorem Returns.relinked {o : Handled} (h : Returns x o) (hr : Relinked x y) : Returns y o := by
  rcases h with ⟨hskips, hreleased⟩ | ⟨r, herror, hacc, hawaited, hover⟩
  · exact .inl ⟨hskips.relinked hr, hr.released.trans hreleased⟩
  · refine .inr ⟨r, herror, hacc.relinked hr, hawaited.relinked hr, ?_⟩
    rw [hr.joins, hr.copier]
    exact hover

theorem Returns.background {o : Handled} (h : Returns x o) (ho : Orderly front t w)
    (hx : w.exchanges[i]? = some x) (ht : Turn front w i x actor x' b) (hne : actor ≠ .front) :
    Returns x' o := by
  obtain ⟨-, -, -, -, hjoins, -, hnone, -⟩ := ht.background hne
  rcases h with ⟨⟨-, hf, hcop, -⟩, -⟩ | ⟨r, herror, hacc, hawaited, hover⟩
  · simpa [hf] using hnone hcop
  · refine .inr ⟨r, herror, hacc.background ho hx ht hne, hawaited.background ho hx ht hne,
      fun hj => ?_⟩
    rw [hjoins] at hj
    rw [ht.copier_over hne (hover hj), hover hj]

theorem Reckoned.relinked (h : Reckoned w x) (hr : Relinked x y) (hs : w'.store = w.store) :
    Reckoned w' y := by
  rw [Reckoned] at h ⊢
  rw [hr.stage, hs]
  cases hstage : x.stage with
  | visiting v =>
    simp only [hstage] at h ⊢
    exact fun r hdue => (h r hdue).relinked hr
  | joining r =>
    simp only [hstage] at h ⊢
    exact h.relinked hr
  | closing r =>
    simp only [hstage] at h ⊢
    exact ⟨h.1.relinked hr, h.2.relinked hr⟩
  | reporting o | finished o =>
    simp only [hstage] at h ⊢
    exact h.relinked hr
  | _ => trivial

/-- What others do to the store does not concern the exchange. -/
theorem Reckoned.frame (h : Reckoned w x)
    (hv : ∀ v, x.stage.visit? = some v → w'.store.phaseOf v = w.store.phaseOf v) :
    Reckoned w' x := by
  rw [Reckoned] at h ⊢
  cases hs : x.stage with
  | visiting v =>
    simp only [hs] at h ⊢
    rw [Store.due, hv v (by rw [hs]; rfl)]
    exact h
  | joining r | closing r | reporting o | finished o =>
    simp only [hs] at h ⊢
    exact h
  | _ => trivial

/-- The tasks in the background keep this. -/
theorem Reckoned.background (h : Reckoned w x) (ho : Orderly front t w)
    (hx : w.exchanges[i]? = some x) (ht : Turn front w i x actor x' b) (hne : actor ≠ .front) :
    Reckoned (b.put i x') x' := by
  rw [Reckoned] at h ⊢
  rw [ht.stage_of_ne hne, put_store, ht.store_of_ne hne]
  cases hs : x.stage with
  | visiting v =>
    simp only [hs] at h ⊢
    exact fun r hdue => (h r hdue).background ho hx ht hne
  | joining r =>
    simp only [hs] at h ⊢
    exact h.background ho hx ht hne
  | closing r =>
    simp only [hs] at h ⊢
    exact ⟨h.1.background ho hx ht hne, h.2.background ho hx ht hne⟩
  | reporting o | finished o =>
    simp only [hs] at h ⊢
    exact h.background ho hx ht hne
  | _ => trivial

/-- **A turn of the front** keeps this. -/
theorem Reckoned.turn_front (h : Reckoned w x) (ho : Orderly front t w)
    (hx : w.exchanges[i]? = some x) (ht : Turn front w i x .front x' b) :
    Reckoned (b.put i x') x' := by
  have hc := ho.course i x hx
  -- when the producer decides, its result is due
  have hdecides : ∀ {c : World} {y : Exchange} {v : Nat} {previous : Option Held}
      (outcome : Outcome), c.store.handed v = some previous → y.stage = .visiting v →
      Accounts y outcome.result → Reckoned ((c.concluding v outcome).put i y) y := by
    intro c y v previous outcome hh hstage hacc
    simp only [Reckoned, hstage, put_store]
    rintro r hdue
    rw [due_concluding outcome hh, Option.some.injEq] at hdue
    exact hdue ▸ hacc
  cases ht with
  | enter =>
    obtain ⟨u, hu, -, -, hph⟩ :=
      Store.begin_visit_new w.store x.key fun e => e.answers x.request.headers
    intro r hdue
    rw [put_store, Store.due_eq hu, hph] at hdue
    exact absurd hdue (by simp [Store.Phase.due])
  | skip | forward | dieForwarding | replay | ask | dieAsking | turn | read | relay => trivial
  | forwarded hs => exact .inl ⟨(hc.forwarding hs).1, rfl⟩
  | replayHead hs hh =>
    refine hdecides .keep hh rfl (.replayed (hc.fresh_of_handed hs hh).fetch rfl)
  | leave _ hs hh hr =>
    simp only [Reckoned, hs] at h
    exact (h _ (Store.due_of_result hr)).staged _
  | step hs hh hr hstep =>
    simp only [Reckoned, hs, put_store] at h ⊢
    rw [Store.due_step hstep]
    exact h
  | readAll hs | readFailed _ hs =>
    obtain ⟨e, slot, n, hph, hreplays, -⟩ := hc.replaying hs
    exact hdecides .keep (handed_of_phaseOf hph rfl) rfl (.replayed hreplays.fetch rfl)
  | relayPartly hs => simp only [Reckoned, hs]
  | relayFailed hs =>
    obtain ⟨e, slot, n, hph, hreplays, -⟩ := hc.relaying hs
    exact hdecides .keep (handed_of_phaseOf hph rfl) rfl (.replayed hreplays.fetch rfl)
  | decideFail hs hf hhead | openFail hs hf hhead =>
    obtain ⟨slot, previous, f, expiration, hph, -, -, -, -, -, hjoins⟩ := hc.fetching hs
    exact hdecides (.fail _) (handed_of_phaseOf hph rfl) rfl
      (.abandoned rfl (by rw [Fetch.unwatch, hhead]; rfl) rfl hjoins)
  | discard _ hs hf hhead =>
    obtain ⟨slot, previous, f, expiration, hph, -⟩ := hc.fetching hs
    exact hdecides (.replace _) (handed_of_phaseOf hph rfl) rfl (.stored hf hhead rfl rfl)
  | keep _ hs hf hhead =>
    obtain ⟨slot, previous, f, expiration, hph, -⟩ := hc.fetching hs
    exact hdecides (.replace _) (handed_of_phaseOf hph rfl) rfl (.stored hf hhead rfl rfl)
  | loseHead hs hf hhead hend =>
    obtain ⟨slot, previous, f, expiration, hph, -, -, -, -, -, hjoins⟩ := hc.fetching hs
    exact hdecides (.fail _) (handed_of_phaseOf hph rfl) rfl (.headless rfl hhead hend hjoins)
  | join _ hs hj =>
    simp only [Reckoned, hs] at h ⊢
    exact ⟨h.staged _, hj⟩
  | close _ hs hj =>
    simp only [Reckoned, hs] at h
    refine .inr ⟨_, rfl, h.1.staged _, h.2, fun hjoins => ?_⟩
    have hover := hj hjoins
    cases hcop : x.copier <;> simp_all
  | report hs =>
    simp only [Reckoned, hs] at h
    rcases h with h | ⟨r, herror, hacc, hrest⟩
    · exact .inl h
    · exact .inr ⟨r, herror, hacc.staged _, hrest⟩

end Turn

/-! ## What is left behind -/

/-- Nothing works for the exchange any more, and nothing of its response is left over. -/
structure Cleared (t : History) (w : World) (i : Nat) (x : Exchange) : Prop where
  origin : ∀ f, x.fetch = some f → f.ending.isSome = true
  /-- No task holds the client. -/
  client : x.client.released = true
  copier : x.copier.all Copier.isOver = true
  /-- The body has been taken out of the buffer, or thrown away with it. -/
  buffer : ∀ f, x.fetch = some f → f.tee.buffer = []
  /-- A body that is kept is closed, and it is all that the origin has passed on, unless the sink
  has failed to take a chunk. -/
  body : ∀ sink id failed writes stored doing,
    x.copier = some (.pump sink id failed writes stored doing) →
    ∃ g, w.bodies[id]? = some g ∧ g.closed = true ∧ (failed = false → g.chunks = t.passed i)

section Run

variable {front : Front} {t : History} {w w₀ : World} {i : Nat} {x : Exchange}

/-- Origins let go, and accounts are kept, in every run. -/
theorem reckoned_of_run (h₀ : w₀.Blank) (hrun : Run (World.happen front) w₀ t w)
    (htidy : ∀ p ∈ t, Tidy p.2) :
    ∀ (i : Nat) (x : Exchange), w.exchanges[i]? = some x →
      Reckoned w x ∧ ∀ f, x.fetch = some f → Tended f := by
  refine each_of_run (P := fun _ w _ x => Reckoned w x ∧ ∀ f, x.fetch = some f → Tended f) h₀ hrun
    htidy ?_ ?_ ?_ fun _ => ⟨trivial, by simp⟩
  · rintro t w i x actor x' b - - ho hx ht ⟨hreckoned, htended⟩
    refine ⟨?_, tended_turn ht htended⟩
    by_cases hactor : actor = .front
    · subst hactor
      exact hreckoned.turn_front ho hx ht
    · exact hreckoned.background ho hx ht hactor
  · rintro t w i x actor x' b j y ho hx ht hij hy ⟨hreckoned, htended⟩
    refine ⟨hreckoned.frame fun v hv => ?_, htended⟩
    rw [put_store, Store.phaseOf, Store.phaseOf, ho.attended.visit_other hx ht.store hy hij hv]
  · rintro t w a w' i x y - hout - - hr ⟨hreckoned, htended⟩
    refine ⟨hreckoned.relinked hr hout.store, fun f hf => ?_⟩
    cases hxf : x.fetch with
    | none => simp [hr.fetch_eq_none hxf] at hf
    | some f₀ =>
      obtain ⟨link, hyf⟩ := hr.fetch_eq_some hxf
      obtain rfl := Option.some.inj (hyf.symm.trans hf)
      exact ⟨(htended f₀ hxf).released, (htended f₀ hxf).empty⟩

/-- A call that has ended without an origin leaves nothing behind. -/
theorem Cleared.of_fetch_eq_none (hc : Course front t w i x) (hf : x.fetch = none)
    (hreleased : x.own.released = true) : Cleared t w i x where
  origin := by simp [hf]
  client := by rw [Exchange.client, hf, hreleased]
  copier := by simp [hc.copier_eq_none hf]
  buffer := by simp [hf]
  body := by simp [hc.copier_eq_none hf]

/-- A call with an origin leaves nothing behind when both origin and copier are over. -/
theorem Cleared.of_ended {f : Fetch} (ho : Orderly front t w) (hx : w.exchanges[i]? = some x)
    (hf : x.fetch = some f) (htended : Tended f) (hasked : Asked x)
    (hend : f.ending.isSome = true) (hover : x.copier.all Copier.isOver = true) :
    Cleared t w i x where
  origin f' hf' := by
    obtain rfl := Option.some.inj (hf.symm.trans hf')
    exact hend
  client := by rw [Exchange.client, hf, htended.released hend]
  copier := hover
  buffer f' hf' := by
    obtain rfl := Option.some.inj (hf.symm.trans hf')
    obtain ⟨-, -, f', hf', hconsumed⟩ := hasked
    obtain rfl := Option.some.inj (hf.symm.trans hf')
    cases hcop : x.copier with
    | none => exact htended.empty (by rw [hconsumed, hcop]; rfl)
    | some copier =>
      rw [hcop, Option.all_some] at hover
      cases copier with
      | drain stopped =>
        obtain rfl : stopped = true := hover
        exact ((ho.watched i x f hx hf).drained hcop).2
      | pump sink id failed writes stored doing =>
        obtain rfl : doing = .stopped := by simpa [Copier.isOver] using hover
        obtain ⟨f', g, hf', -, hp⟩ := ho.pumps i x sink id failed writes stored _ hx hcop
        obtain rfl := Option.some.inj (hf.symm.trans hf')
        exact (hp.exhausted (.inr rfl)).2
  body sink id failed writes stored doing hcop := by
    rw [hcop, Option.all_some] at hover
    obtain rfl : doing = .stopped := by simpa [Copier.isOver] using hover
    obtain ⟨f', g, -, hg, hp⟩ := ho.pumps i x sink id failed writes stored _ hx hcop
    refine ⟨g, hg, hp.closed.2 rfl, fun hfailed => ?_⟩
    rw [← hp.chunks hfailed, (hp.exhausted (.inr rfl)).2]
    simp [Copying.inHand]

/-- **When a call leaves nothing behind.**  When a call has returned, its origin has ended, no task
holds its client, and the body of its response has been consumed, exactly unless the policy or the
store has failed and the origin was still at work; what the sink of a stored body has taken is then
the whole body. -/
theorem cleared_iff {outcome : Handled} (h₀ : w₀.Blank) (hrun : Run (World.happen front) w₀ t w)
    (htidy : ∀ p ∈ t, Tidy p.2) (hx : w.exchanges[i]? = some x)
    (hreturned : x.returned? = some outcome) :
    Cleared t w i x ↔
      ¬ (outcome.error.any CacheError.abandons = true ∧
        ∃ f, x.fetch = some f ∧ f.ending = none) := by
  have ho := Orderly.of_run hrun h₀ htidy
  have hc := ho.course i x hx
  obtain ⟨hreckoned, htended⟩ := reckoned_of_run h₀ hrun htidy i x hx
  refine ⟨?_, fun hkept => ?_⟩
  · rintro hcleared ⟨-, f, hf, hworks⟩
    have hended := hcleared.origin f hf
    simp [hworks] at hended
  rcases hreckoned.returns hreturned with
    ⟨⟨-, hf, -⟩, hreleased⟩ | ⟨r, herror, hacc, hawaited, hover⟩
  · exact .of_fetch_eq_none hc hf hreleased
  · have hasked : ∀ f, x.fetch = some f → Asked x := by
      intro f hf
      refine (hc.asked_of_fetch hf).resolve_right ?_
      rintro ⟨v, draft, hs⟩
      simp [Exchange.returned?, hs] at hreturned
    -- what is not awaited has no copier
    have halone : ∀ f, x.fetch = some f → x.joins = false →
        x.copier.all Copier.isOver = true := by
      intro f hf hjoins
      have hnone := (hasked f hf).2.1
      rw [hjoins, eq_comm, Option.isSome_eq_false_iff, Option.isNone_iff_eq_none] at hnone
      rw [hnone]
      rfl
    cases hacc with
    | replayed hf hreleased => exact .of_fetch_eq_none hc hf hreleased
    | @stored f head hf hhead hstatus hjoins =>
      obtain ⟨f', hf', hend⟩ := hawaited hjoins
      obtain rfl := Option.some.inj (hf.symm.trans hf')
      exact .of_ended ho hx hf (htended f hf) (hasked f hf) hend (hover hjoins)
    | @headless f hf hhead hend hjoins =>
      exact .of_ended ho hx hf (htended f hf) (hasked f hf) hend (halone f hf hjoins)
    | @abandoned f e hf hhead he hjoins =>
      refine .of_ended ho hx hf (htended f hf) (hasked f hf) ?_ (halone f hf hjoins)
      cases hend : f.ending with
      | some ending => rfl
      | none => exact absurd ⟨by rw [herror]; exact he, f, hf, hend⟩ hkept

end Run

/-- A client that refuses the only chunk of its response leaves nothing behind: the response is
stored nevertheless. -/
theorem cleared_iff_refusing :
    ∃ (t : History) (w : World) (x : Exchange), Run (World.happen oneChunk) {} t w ∧
      w.exchanges[0]? = some x ∧ x.returned? = some ⟨.ok, .miss, none⟩ ∧ Cleared t w 0 x ∧
      (w.bodies[0]?).map (·.chunks) = some [[1]] := by
  let turns := refusing [(.front, 10), (.origin, 5), (.front, 6), (.copier, 4), (.front, 2)]
  let r := (follow (World.happen oneChunk) {} turns).get rfl
  have hfollow : follow (World.happen oneChunk) {} turns = some r := (Option.some_get _).symm
  have htidy : ∀ p ∈ r.1, Tidy p.2 := fun p hp =>
    tidy_refusing _ _ (map_snd_of_follow hfollow ▸ List.mem_map_of_mem hp)
  let x := (r.2.exchanges[0]?).get rfl
  have hx : r.2.exchanges[0]? = some x := (Option.some_get _).symm
  have hreturned : x.returned? = some ⟨.ok, .miss, none⟩ := rfl
  have hcleared : Cleared r.1 r.2 0 x :=
    (cleared_iff ⟨rfl, rfl, rfl⟩ (run_of_follow hfollow) htidy hx hreturned).2 (by simp)
  exact ⟨r.1, r.2, x, run_of_follow hfollow, hx, hreturned, hcleared, rfl⟩

/-- **A call that leaves its origin behind.**  The policy cannot tell what to do with the response;
the call has returned, and its origin is about to write to the client. -/
theorem origin_left_behind :
    ∃ (t : History) (w : World) (x : Exchange) (f : Fetch), Run (World.happen stubborn) {} t w ∧
      (∀ p ∈ t, Tidy p.2) ∧ w.exchanges[0]? = some x ∧
      x.stage = .finished ⟨.internalServerError, .miss, some (.policy "unknown")⟩ ∧
      x.fetch = some f ∧ f.ending = none ∧ f.chunk? = some [1] ∧ ¬ Cleared t w 0 x := by
  let turns := refusing [(.front, 10), (.origin, 1), (.front, 8)]
  let r := (follow (World.happen stubborn) {} turns).get rfl
  have hfollow : follow (World.happen stubborn) {} turns = some r := (Option.some_get _).symm
  have htidy : ∀ p ∈ r.1, Tidy p.2 := fun p hp =>
    tidy_refusing _ _ (map_snd_of_follow hfollow ▸ List.mem_map_of_mem hp)
  let x := (r.2.exchanges[0]?).get rfl
  let f := x.fetch.get rfl
  have hf : x.fetch = some f := (Option.some_get _).symm
  refine ⟨r.1, r.2, x, f, run_of_follow hfollow, htidy, (Option.some_get _).symm, rfl, hf, rfl, rfl,
    fun hcleared => ?_⟩
  have hended := hcleared.origin f hf
  have hworks : f.ending = none := rfl
  simp [hworks] at hended

end World
end EdgeCache
