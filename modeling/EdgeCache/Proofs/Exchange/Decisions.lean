import EdgeCache.Proofs.Exchange.Steps
import EdgeCache.Proofs.Store.Lookup

/-!
# What is decided in a turn

Few turns of an exchange decide how its request is answered: `Decision` says which, and what they
count.  All others leave that open, or as it has been decided.

The rest of this file is what a turn makes of the things that decisions rest on: what visits find
(`StoreTurn.found`), and whether an origin that has no head yet will come to one (`Promises`).
-/

set_option autoImplicit false

namespace EdgeCache
namespace World

/-- What a turn of the exchange `x` decides. -/
inductive Decision (front : Front) (w : World) (i : Nat) (x x' : Exchange) (b : World) : Prop
  | nothing (hcache : x'.cache = x.cache) (hstatus : x'.status = x.status)
      (hfetch : x'.fetch.isSome = x.fetch.isSome) (hdead : x'.isDead = x.isDead)
      (hcalls : b.calls = w.calls) (hsinks : b.sinks = w.sinks)
      (hstage : ∀ visit draft, x'.stage = .fetching visit draft → x.stage = .fetching visit draft)
  /-- The cache is left alone. -/
  | pass (h : (x.stage = .arrived ∧ front.eligible x.request = false) ∨
      ∃ script, x.stage = .forwarding script)
  | replay {visit : Nat} {held : Held} (h : x.stage = .visiting visit)
      (hh : w.store.handed visit = some (some held)) (hpublic : held.entry.isPublic = true)
      (hcache : x'.cache = .hit) (hfetch : x'.fetch = x.fetch) (hdead : x'.isDead = false)
      (hcalls : b.calls = w.calls) (hsinks : b.sinks = w.sinks)
  | ask {visit : Nat} {previous : Option Held} {expiration : Instant}
      (h : x.stage = .visiting visit)
      (hh : w.store.handed visit = some previous)
      (hprivate : ∀ held, previous = some held → held.entry.isPublic = false)
      (hexp : w.clock.add? front.settings.defaultWindow = some expiration)
      (hstage : ∃ draft, x'.stage = .fetching visit draft) (hcache : x'.cache = x.cache)
      (hfetch : x'.fetch = some (Fetch.start (x.own.edit (front.mark .miss))
        front.settings.bodyBuffer x.request.isHead (front.respond i x.request)))
      (hcalls : b.calls = w.calls + 1) (hsinks : b.sinks = w.sinks)
  /-- The calendar does not reach to the expiration of a new entry. -/
  | die {visit : Nat} {previous : Option Held} (h : x.stage = .visiting visit)
      (hh : w.store.handed visit = some previous)
      (hprivate : ∀ held, previous = some held → held.entry.isPublic = false)
      (hexp : w.clock.add? front.settings.defaultWindow = none) (hcache : x'.cache = x.cache)
      (hfetch : x'.fetch = x.fetch) (hcalls : b.calls = w.calls) (hsinks : b.sinks = w.sinks)
  /-- The head of the response is judged, or it is known that there will be none. -/
  | judge {visit : Nat} {draft : Entry} (h : x.stage = .fetching visit draft)

section Turn

variable {front : Front} {t : History} {w b w' : World} {i : Nat} {x x' : Exchange} {actor : Actor}

/-- **What a turn decides.** -/
theorem Turn.decision (ht : Turn front w i x actor x' b) : Decision front w i x x' b := by
  cases ht with
  | enter h | turn h | read h | relay h =>
    exact .nothing rfl rfl rfl (by simp [Exchange.isDead, h]) rfl rfl (by simp)
  | leave _ h | readFailed _ h | join _ h | close _ h | report h | readAll h | relayFailed h =>
    exact .nothing rfl rfl rfl (by simp [Exchange.isDead, h]) rfl rfl (by simp)
  | step h | relayPartly h => exact .nothing rfl rfl rfl rfl rfl rfl fun _ _ => id
  | skip h he => exact .pass (.inl ⟨h, he⟩)
  | forward h | forwarded h | dieForwarding h => exact .pass (.inr ⟨_, h⟩)
  | replay h hh hpublic => exact .replay h hh hpublic rfl rfl rfl rfl rfl
  | replayHead h hh hpublic => exact .replay h hh hpublic rfl rfl rfl rfl rfl
  | ask h hh hprivate hexp => exact .ask h hh hprivate hexp ⟨_, rfl⟩ rfl rfl rfl rfl
  | dieAsking h hh hprivate hexp => exact .die h hh hprivate hexp rfl rfl rfl rfl
  | decideFail h | discard _ h | openFail h | keep _ h | loseHead h => exact .judge h
  | origin hf => exact .nothing rfl rfl (by simp [hf]) rfl (by simp) (by simp) fun _ _ => id
  | drain _ hf | pump _ hf => exact .nothing rfl rfl (by simp [hf]) rfl rfl rfl fun _ _ => id
  | drained | pumped | writeFail | write | stop =>
    exact .nothing rfl rfl rfl rfl rfl rfl fun _ _ => id

/-- An exchange that is over takes no turn. -/
theorem Turn.isOver_eq_false (ht : Turn front w i x actor x' b) : x.isOver = false := by
  cases ht with
  | origin hf hs =>
    have hend := (Fetch.step_cases hs).1
    simp [Exchange.isOver, hf, hend]
  | drain hc | drained hc => simp [Exchange.isOver, hc, Copier.isOver]
  | pump hc | pumped hc | writeFail _ hc | write hc | stop _ hc =>
    simp [Exchange.isOver, hc, Copier.isOver]
  | enter h | skip h | forward h | forwarded h | dieForwarding h | replay h | replayHead h | ask h
  | dieAsking h | leave _ h | step h | turn h | read h | readAll h | readFailed _ h | relayPartly h
  | relay h | relayFailed h | decideFail h | discard _ h | openFail h | keep _ h | loseHead h
  | join _ h | close _ h | report h => simp [Exchange.isOver, Exchange.outcome?, Exchange.isDead, h]

theorem Relinked.isDead {y : Exchange} (h : Relinked x y) : y.isDead = x.isDead := by
  rw [Exchange.isDead, Exchange.isDead, h.stage]

theorem Relinked.isOver {y : Exchange} (h : Relinked x y) : y.isOver = x.isOver := by
  have hfetch : y.fetch.all (·.ending.isSome) = x.fetch.all (·.ending.isSome) := by
    cases hf : x.fetch with
    | none => rw [h.fetch_eq_none hf]
    | some f =>
      obtain ⟨link, hy⟩ := h.fetch_eq_some hf
      rw [hy]
      rfl
  rw [Exchange.isOver, Exchange.isOver, Exchange.outcome?, Exchange.outcome?, h.isDead, h.stage,
    h.copier, hfetch]

theorem isOver_cases {x : Exchange} (h : x.isOver = true) :
    ((∃ outcome, x.stage = .finished outcome) ∨ x.isDead = true) ∧
      ∀ f, x.fetch = some f → f.ending.isSome = true := by
  simp only [Exchange.isOver, Bool.and_eq_true, Bool.or_eq_true] at h
  obtain ⟨⟨hend, hfetch⟩, -⟩ := h
  refine ⟨hend.imp_left fun ho => ?_, fun f hf => by simpa [hf] using hfetch⟩
  rw [Exchange.outcome?] at ho
  split at ho
  · exact ⟨_, ‹_›⟩
  · simp at ho

theorem Turn.stage_of_ne (ht : Turn front w i x actor x' b) (h : actor ≠ .front) :
    x'.stage = x.stage := by
  cases ht with
  | origin | drain | drained | pump | pumped | writeFail | write | stop => rfl
  | _ => exact absurd rfl h

/-- Origins and copiers ask nobody and open no sinks. -/
theorem Turn.counts_of_ne (ht : Turn front w i x actor x' b) (h : actor ≠ .front) :
    b.calls = w.calls ∧ b.sinks = w.sinks := by
  cases ht with
  | origin => exact ⟨absorb_calls _ _ _, absorb_sinks _ _ _⟩
  | drain | drained | pump | pumped | writeFail | write | stop => exact ⟨rfl, rfl⟩
  | _ => exact absurd rfl h

/-! ## The clock -/

theorem Turn.clock (ht : Turn front w i x actor x' b) : b.clock = w.clock := by
  cases ht with
  | forward | origin => exact absorb_clock _ _ _
  | _ => rfl

/-- A clock that is too late for a lifetime stays so. -/
theorem add?_eq_none {a b : Instant} {n : Nat} (hle : a.le b = true) (h : a.add? n = none) :
    b.add? n = none := by
  rw [Instant.le_iff] at hle
  simp only [Instant.add?, ite_eq_right_iff, reduceCtorEq, imp_false] at h ⊢
  omega

/-- Only a tick moves the clock. -/
theorem clock_cases {a : Happening} (h : w.happen front a = some w') :
    w'.clock = w.clock ∨ ∃ now, a = .tick now ∧ w.clock.le now = true ∧ w'.clock = now := by
  cases a with
  | step i actor =>
    rcases happen_cases h with ⟨j, actor', x, x', b, -, -, ht, rfl⟩ | hout
    · exact .inl ht.clock
    · exact absurd rfl (hout.noStep i actor)
  | tick now =>
    rw [happen, Option.ite_none_right_eq_some, Option.some.injEq] at h
    exact .inr ⟨now, rfl, h.1, by rw [← h.2]⟩
  | arrive | release =>
    rw [happen, Option.some.injEq] at h
    rw [← h]
    exact .inl rfl
  | take i =>
    rw [happen, Option.some.injEq] at h
    rw [← h]
    rw [take]
    split <;> exact .inl rfl
  | abandon i =>
    rw [happen, Option.some.injEq] at h
    rw [← h]
    rw [abandon]
    split <;> exact .inl rfl

theorem clock_le {a : Happening} (h : w.happen front a = some w') : w.clock.le w'.clock = true := by
  rcases clock_cases h with heq | ⟨now, -, hle, rfl⟩
  · rw [heq]
    simp [Instant.le]
  · exact hle

/-- The calendar does not reach to the expiration of a new entry. -/
def Late (front : Front) (w : World) : Prop := w.clock.add? front.settings.defaultWindow = none

theorem Late.turn (hl : Late front w) (ht : Turn front w i x actor x' b) :
    Late front (b.put i x') := by
  have hclock : (b.put i x').clock = w.clock := ht.clock
  rwa [Late, hclock]

theorem Late.happen {a : Happening} (hl : Late front w) (h : w.happen front a = some w') :
    Late front w' := add?_eq_none (clock_le h) hl

/-! ## What is stored -/

/-- A turn of an exchange that awaits a head ends the wait. -/
theorem Turn.judged {visit : Nat} {draft : Entry} (ht : Turn front w i x .front x' b)
    (hstage : x.stage = .fetching visit draft) :
    x'.stage = .visiting visit ∧ x'.cache = x.cache ∧ b.calls = w.calls := by
  cases ht with
  | decideFail h | discard _ h | openFail h | keep _ h | loseHead h =>
    obtain ⟨rfl, -⟩ := Stage.fetching.inj (hstage.symm.trans h)
    exact ⟨rfl, rfl, rfl⟩
  | enter h | skip h | forward h | forwarded h | dieForwarding h | replay h | replayHead h | ask h
  | dieAsking h | leave _ h | step h | turn h | read h | readAll h | readFailed _ h | relayPartly h
  | relay h | relayFailed h | join _ h | close _ h | report h => simp [hstage] at h

/-- A response that is judged cacheable is stored, if a sink can be opened. -/
theorem Turn.keeps {visit : Nat} {draft : Entry} (ht : Turn front w i x .front x' b)
    (hx : w.exchanges[i]? = some x) (hc : Course front t w i x)
    (hstage : x.stage = .fetching visit draft) :
    ∃ f f', x.fetch = some f ∧ x'.fetch = some f' ∧ f'.tee.announced = f.tee.announced ∧
      f'.ending = f.ending ∧
      (f.tee.announced = none ∧ f.ending.isSome = true ∨
        ∃ head, f.tee.announced = some head ∧ ∀ verdict,
          front.policy x.request head w.clock = .ok verdict → verdict.cacheable = true →
          (∀ sink, front.faults.opening sink = none) → ∃ e, Keeps front w i x head verdict e) := by
  cases ht with
  | @decideFail visit' draft' f head text h hf hhead hpol =>
    refine ⟨f, _, hf, rfl, rfl, rfl, .inr ⟨head, hhead, fun verdict hpol' => ?_⟩⟩
    simp [hpol] at hpol'
  | @discard visit' draft' f head verdict lines h hf hhead hpol hv =>
    refine ⟨f, f, hf, hf, rfl, rfl, .inr ⟨head, hhead, fun verdict' hpol' hv' => ?_⟩⟩
    obtain rfl : verdict = verdict' := Except.ok.inj (hpol.symm.trans hpol')
    simp [hv] at hv'
  | @openFail visit' draft' f head verdict text h hf hhead hpol hv ho =>
    refine ⟨f, _, hf, rfl, rfl, rfl, .inr ⟨head, hhead, fun verdict' hpol' hv' hopen => ?_⟩⟩
    simp [hopen] at ho
  | @keep visit' draft' f head verdict lines h hf hhead hpol hv ho =>
    refine ⟨f, f, hf, hf, rfl, rfl, .inr ⟨head, hhead, fun verdict' hpol' hv' _ => ?_⟩⟩
    obtain rfl : verdict = verdict' := Except.ok.inj (hpol.symm.trans hpol')
    obtain ⟨slot, previous, f₀, expiration, -, rfl, -⟩ := hc.fetching h
    let draft := Entry.speculative x.request.headers expiration
    refine ⟨front.publicly draft head verdict.expiresAt w.bodies.length, hx,
      ⟨visit', draft, f, h, hf, hhead⟩, hpol, hv.symm, rfl, rfl, fun _ => ⟨ho, rfl, rfl⟩,
      fun hno => ?_⟩
    simp [hv] at hno
  | loseHead h hf hhead hend => exact ⟨_, _, hf, rfl, rfl, rfl, .inl ⟨hhead, hend⟩⟩
  | enter h | skip h | forward h | forwarded h | dieForwarding h | replay h | replayHead h | ask h
  | dieAsking h | leave _ h | step h | turn h | read h | readAll h | readFailed _ h | relayPartly h
  | relay h | relayFailed h | join _ h | close _ h | report h => simp [hstage] at h

/-- An exchange that is about to store an entry does so in its turn. -/
theorem Stores.turn {v : Nat} {e : Entry} {previous : Option Held} (hs : Stores front w x v e)
    (ht : Turn front w i x .front x' b) (hh : w.store.handed v = some previous) :
    w.store.finish v (.replace e) = some b.store := by
  obtain ⟨s, hfinish⟩ := Store.finish_isSome (.replace e) hh
  obtain ⟨draft, f, head, verdict, hstage, hf, hhead, hpol, hcases⟩ := hs
  cases ht with
  | @decideFail visit' draft' f' head' text h hf' hhead' hpol' =>
    obtain rfl : f = f' := Option.some.inj (hf.symm.trans hf')
    obtain rfl : head = head' := Option.some.inj (hhead.symm.trans hhead')
    simp [hpol] at hpol'
  | @discard visit' draft' f' head' verdict' lines h hf' hhead' hpol' hv =>
    obtain ⟨rfl, rfl⟩ := Stage.fetching.inj (hstage.symm.trans h)
    obtain rfl : f = f' := Option.some.inj (hf.symm.trans hf')
    obtain rfl : head = head' := Option.some.inj (hhead.symm.trans hhead')
    obtain rfl : verdict = verdict' := Except.ok.inj (hpol.symm.trans hpol')
    obtain ⟨-, rfl⟩ : verdict.cacheable = false ∧ e = front.privately draft head := by
      simpa [hv] using hcases
    simp [concluding, hfinish]
  | @openFail visit' draft' f' head' verdict' text h hf' hhead' hpol' hv ho =>
    obtain rfl : f = f' := Option.some.inj (hf.symm.trans hf')
    obtain rfl : head = head' := Option.some.inj (hhead.symm.trans hhead')
    obtain rfl : verdict = verdict' := Except.ok.inj (hpol.symm.trans hpol')
    simp [hv, ho] at hcases
  | @keep visit' draft' f' head' verdict' lines h hf' hhead' hpol' hv ho =>
    obtain ⟨rfl, rfl⟩ := Stage.fetching.inj (hstage.symm.trans h)
    obtain rfl : f = f' := Option.some.inj (hf.symm.trans hf')
    obtain rfl : head = head' := Option.some.inj (hhead.symm.trans hhead')
    obtain rfl : verdict = verdict' := Except.ok.inj (hpol.symm.trans hpol')
    obtain rfl : e = front.publicly draft head verdict.expiresAt w.bodies.length := by
      simpa [hv, ho] using hcases
    simp [concluding, hfinish]
  | @loseHead visit' draft' f' h hf' hhead' =>
    obtain rfl : f = f' := Option.some.inj (hf.symm.trans hf')
    simp [hhead] at hhead'
  | enter h | skip h | forward h | forwarded h | dieForwarding h | replay h | replayHead h | ask h
  | dieAsking h | leave _ h | step h | turn h | read h | readAll h | readFailed _ h | relayPartly h
  | relay h | relayFailed h | join _ h | close _ h | report h => simp [hstage] at h

section Keeps

variable {y y' : Exchange} {head head' : Head} {verdict verdict' : Cacheability} {e e' : Entry}

/-- What an exchange stores for replay is determined by the world. -/
theorem Keeps.unique (hk : Keeps front w i y head verdict e)
    (hk' : Keeps front w i y' head' verdict' e') (hv : verdict.cacheable = true) : e = e' := by
  obtain rfl : y = y' := Option.some.inj (hk.exchange.symm.trans hk'.exchange)
  obtain ⟨visit, draft, f, hstage, hf, hhead⟩ := hk.fetching
  obtain ⟨visit', draft', f', hstage', hf', hhead'⟩ := hk'.fetching
  obtain rfl : f = f' := Option.some.inj (hf.symm.trans hf')
  obtain rfl : head = head' := Option.some.inj (hhead.symm.trans hhead')
  obtain rfl : verdict = verdict' := Except.ok.inj (hk.judged.symm.trans hk'.judged)
  obtain ⟨-, hexp, hbody⟩ := hk.opened hv
  obtain ⟨-, hexp', hbody'⟩ := hk'.opened hv
  cases e
  cases e'
  simp only at hexp hbody hexp' hbody'
  rw [Entry.mk.injEq]
  exact ⟨hk.isPublic.trans hk'.isPublic.symm, hexp.trans hexp'.symm,
    hk.requestHeaders.trans hk'.requestHeaders.symm, hk.head.trans hk'.head.symm,
    hbody.trans hbody'.symm⟩

theorem Keeps.stores (hk : Keeps front w i y head verdict e) (hc : Course front t w i y)
    (hv : verdict.cacheable = true) : ∃ v, Stores front w y v e := by
  obtain ⟨visit, draft, f, hstage, hf, hhead⟩ := hk.fetching
  obtain ⟨hopen, -⟩ := hk.opened hv
  have hst : Stores front w y visit (front.publicly draft head verdict.expiresAt w.bodies.length) :=
    ⟨draft, f, head, verdict, hstage, hf, hhead, hk.judged, .inr ⟨hv, hopen, rfl⟩⟩
  obtain ⟨head', verdict', hk'⟩ := hst.keeps hk.exchange hc
  exact ⟨visit, hk.unique hk' hv ▸ hst⟩

theorem not_keeps (hx : w.exchanges[i]? = some x)
    (h : ∀ visit draft, x.stage ≠ .fetching visit draft) : ¬ Keeps front w i y head verdict e := by
  intro hk
  obtain ⟨visit, draft, f, hstage, -⟩ := hk.fetching
  obtain rfl : x = y := Option.some.inj (hx.symm.trans hk.exchange)
  exact h visit draft hstage

end Keeps

/-- **What the others find when an exchange has stored an entry.** -/
theorem Stores.found {key : Bytes} {fresh accepts : Entry → Bool} {clocks : Instant → Prop}
    {l : List Held} {v : Nat} {e : Entry} (hst : Stores front w x v e) (fresh' : Entry → Bool)
    (ho : Orderly front t w) (hx : w.exchanges[i]? = some x) (ht : Turn front w i x .front x' b)
    (hkey : x.key = key) (hf : w.store.Found key fresh accepts clocks l)
    (hprivate : ∀ h, Store.firstFit fresh accepts l = some h → h.entry.isPublic = false) :
    b.store.Found key fresh' accepts clocks
      (Store.afterStore fresh l (Store.firstFit fresh accepts l) ⟨w.store.nextId, e⟩) := by
  obtain ⟨draft, f, head, verdict, hstage, -⟩ := id hst
  obtain ⟨slot, previous, f₀, expiration, hphase, -⟩ := (ho.course i x hx).fetching hstage
  obtain ⟨u, hu, hku, -⟩ := ho.attended.own i x v hx (by rw [hstage]; rfl)
  rw [Store.phaseOf_eq hu, Option.some.injEq] at hphase
  have hhanded : u.phase.handed = some previous := by
    rw [hphase]
    rfl
  have hfinish := hst.turn ht (by rw [Store.handed, hu, Option.bind_some, hhanded])
  rw [← hf.handed v u previous hu (hku.trans hkey) hhanded]
  exact hf.store fresh' ho.attended.sound ho.attended.offers hu (hku.trans hkey) hphase hfinish
    hprivate

/-! ## What visits find -/

section Found

variable {key : Bytes} {fresh accepts : Entry → Bool} {clocks : Instant → Prop} {l : List Held}

/-- **A turn that stores nothing keeps what is found.** -/
theorem StoreTurn.found {s : Store} (hst : StoreTurn front w x x' s)
    (hf : w.store.Found key fresh accepts clocks l) (hs : Store.Sound w.store)
    (hfresh : ∀ now, clocks now → ∀ h ∈ l, h.entry.expired now = !fresh h.entry)
    (hclock : clocks w.clock)
    (haccepts : x.key = key → (fun e : Entry => e.answers x.request.headers) = accepts)
    (hno : ∀ v e, ¬ Stores front w x v e) : s.Found key fresh accepts clocks l := by
  cases hst with
  | same | leave => exact hf
  | begin h =>
    refine hf.move hs (m := .begin x.key fun e => e.answers x.request.headers) rfl hfresh
      (by simp) ?_ (by simp)
    rintro accepts' hm
    rw [Store.Move.begin.injEq] at hm
    rw [← hm.2, haccepts hm.1]
  | @step v s h h' hs' =>
    refine hf.move hs (m := .step w.clock v) hs' hfresh ?_ (by simp) (by simp)
    rintro now i hm
    rw [Store.Move.step.injEq] at hm
    exact hm.1 ▸ hclock
  | @lose v h h' => exact hf.move hs (m := .lose v) rfl hfresh (by simp) (by simp) (by simp)
  | @finish v outcome s h h' hs' he =>
    refine hf.move hs (m := .finish v outcome) hs' hfresh (by simp) (by simp) ?_
    rintro j e hm
    rw [Store.Move.finish.injEq] at hm
    exact hno v e (he e hm.2)

/-- Only an exchange that awaits a head stores something. -/
theorem not_stores (h : ∀ visit draft, x.stage ≠ .fetching visit draft) (v : Nat) (e : Entry) :
    ¬ Stores front w x v e := by
  rintro ⟨draft, f, head, verdict, hstage, -⟩
  exact h v draft hstage

/-- What the producer of the visit of an exchange is handed is what visits of the key find. -/
theorem Orderly.handed_of_found (ho : Orderly front t w) (hx : w.exchanges[i]? = some x)
    {visit : Nat} {previous : Option Held} (hstage : x.stage = .visiting visit)
    (hh : w.store.handed visit = some previous) (hf : w.store.Found x.key fresh accepts clocks l) :
    previous = Store.firstFit fresh accepts l := by
  obtain ⟨u, hu, hk, -⟩ := ho.attended.own i x visit hx (by rw [hstage]; rfl)
  rw [Store.handed, hu, Option.bind_some] at hh
  exact hf.handed visit u previous hu hk hh

end Found

/-! ## Heads to come -/

/-- An origin that has announced no head is at work on a script that comes to one. -/
def Promises (x : Exchange) : Prop :=
  ∀ f, x.fetch = some f → f.tee.announced = none →
    f.ending = none ∧ f.script.Answers fun _ => False

theorem answers_step {f f' : Fetch} {gates gates' : Gates} {event : Option Event}
    (h : f.step gates = some (f', gates', event)) (hs : f.script.Answers fun _ => False)
    (hnone : f.tee.isCommitted = false) (hhalf : f.tee.halfway = none)
    (hnone' : f'.tee.announced = none) : f'.ending = none ∧ f'.script.Answers fun _ => False := by
  have hcommit : ∀ status, (f.tee.commit status).announced ≠ none := by
    intro status
    rw [Tee.commit, hnone]
    simp
  rw [Fetch.step] at h
  split at h
  · exact absurd h (by simp)
  · next hend =>
    cases hscript : f.script with
    | done u =>
      rw [hscript] at hs
      cases hs with
      | done h => exact absurd h id
    | die message =>
      rw [hscript] at hs
      cases hs
    | edit g rest =>
      simp only [hscript, Script.step, Option.some.injEq, Prod.mk.injEq] at h
      rw [← h.1]
      rw [hscript] at hs
      cases hs with
      | edit hs => exact ⟨hend, hs⟩
    | emit e rest =>
      simp only [hscript, Script.step, Option.some.injEq, Prod.mk.injEq] at h
      rw [← h.1]
      rw [hscript] at hs
      cases hs with
      | emit hs => exact ⟨hend, hs⟩
    | inspect k =>
      simp only [hscript, Script.step, Option.some.injEq, Prod.mk.injEq] at h
      rw [← h.1]
      rw [hscript] at hs
      cases hs with
      | inspect hs => exact ⟨hend, hs _⟩
    | observe k =>
      have hcom : Tee.writer.isCommitted f.tee = false := hnone
      simp only [hscript, Script.step, hcom, Option.some.injEq, Prod.mk.injEq] at h
      rw [← h.1]
      rw [hscript] at hs
      cases hs with
      | observe hs => exact ⟨hend, hs⟩
    | commit status rest =>
      simp only [hscript, Script.step, Option.some.injEq, Prod.mk.injEq] at h
      rw [← h.1] at hnone'
      exact absurd hnone' (hcommit status)
    | write chunk k =>
      have hwrite : Tee.writer.write chunk f.tee = .partly (f.tee.commit .ok) := by
        simp [Tee.writer, Tee.write, hhalf, hnone]
      simp only [hscript, Script.step, hwrite, Option.some.injEq, Prod.mk.injEq] at h
      rw [← h.1] at hnone'
      exact absurd hnone' (hcommit .ok)
    | await gate ticket rest =>
      rw [hscript] at hs
      cases hs with
      | await hs =>
        cases ticket with
        | none =>
          simp only [hscript, Script.step, Option.some.injEq, Prod.mk.injEq] at h
          rw [← h.1]
          exact ⟨hend, .await hs⟩
        | some ticket =>
          simp only [hscript, Script.step] at h
          split at h
          · exact absurd h (by simp)
          · next m hm =>
            simp only [Option.ite_none_right_eq_some, Option.some.injEq] at hm
            simp only [Option.some.injEq, Prod.mk.injEq] at h
            rw [← h.1, ← hm.2]
            exact ⟨hend, hs⟩

/-- **An origin keeps its promise of a head.** -/
theorem Promises.turn (hp : Promises x) (ho : Orderly front t w) (hx : w.exchanges[i]? = some x)
    (ht : Turn front w i x actor x' b)
    (hrespond : (front.respond i x.request).Answers fun _ => True) : Promises x' := by
  intro f' hf' hnone
  have hsame : x'.fetch = x.fetch → f'.ending = none ∧ f'.script.Answers fun _ => False :=
    fun h => hp f' (h ▸ hf') hnone
  cases ht with
  | ask =>
    obtain rfl := Option.some.inj hf'
    exact ⟨rfl, Fetch.answers_supervise hrespond⟩
  | decideFail _ hf hhead | openFail _ hf hhead =>
    obtain rfl := Option.some.inj hf'
    exact absurd (hhead.symm.trans hnone) (by simp)
  | loseHead _ hf hhead hend =>
    have hpending := (hp _ hf hhead).1
    simp [hpending] at hend
  | @origin f f₁ gates event hf hs =>
    obtain rfl := Option.some.inj hf'
    have hwatched := ho.watched i x f hx hf
    have hnone₀ : f.tee.announced = none := by
      cases hann : f.tee.announced with
      | none => rfl
      | some head =>
        have h := hwatched.announced_origin (Fetch.step_cases hs).2 hann
        rw [hnone] at h
        exact absurd h (by simp)
    have hcommitted : f.tee.isCommitted = false := by
      rw [Tee.isCommitted, Client.isCommitted, ← hwatched.announced, hnone₀]
      rfl
    exact answers_step hs (hp f hf hnone₀).2 hcommitted (hwatched.quiet hnone₀).1 hnone
  | @drain f f₁ data hc hf hr =>
    obtain rfl := Option.some.inj hf'
    obtain ⟨rest, -, -, rfl⟩ := Fetch.receive_chunk hr
    exact hp f hf hnone
  | @pump sink id writes stored failed f f₁ data hc hf hr =>
    obtain rfl := Option.some.inj hf'
    obtain ⟨rest, -, -, rfl⟩ := Fetch.receive_chunk hr
    exact hp f hf hnone
  | _ => exact hsame rfl

theorem Promises.relinked {y : Exchange} (hp : Promises x) (hr : Relinked x y) : Promises y := by
  intro f' hf' hnone
  cases hf : x.fetch with
  | none => simp [hr.fetch_eq_none hf] at hf'
  | some f =>
    obtain ⟨link, hy⟩ := hr.fetch_eq_some hf
    obtain rfl := Option.some.inj (hy.symm.trans hf')
    exact hp f hf hnone

/-- **In every run** an origin whose script comes to a head keeps its promise. -/
theorem promises_of_run {w₀ : World} (h₀ : w₀.Blank) (hrun : Run (World.happen front) w₀ t w)
    (htidy : ∀ p ∈ t, Tidy p.2) :
    ∀ (i : Nat) (x : Exchange), w.exchanges[i]? = some x →
      ((front.respond i x.request).Answers fun _ => True) → Promises x := by
  refine each_of_run
    (P := fun _ _ i x => ((front.respond i x.request).Answers fun _ => True) → Promises x)
    h₀ hrun htidy ?_ ?_ ?_ ?_
  · intro t w i x actor x' b _ _ ho hx ht hpromises hanswers
    rw [ht.request] at hanswers
    exact (hpromises hanswers).turn ho hx ht hanswers
  · exact fun _ _ _ _ _ hpromises => hpromises
  · intro t w a w' i x y _ _ _ _ hr hpromises hanswers
    rw [hr.request] at hanswers
    exact (hpromises hanswers).relinked hr
  · exact fun _ _ f hf => by simp at hf

end Turn

/-! ## What everybody finds -/

/-- All that look for an entry find the first fresh one of the list that would do, and the same
entries are fresh at all times. -/
structure Finding (key : Bytes) (headers : Headers) (fresh : Entry → Bool) (clocks : Instant → Prop)
    (l : List Held) (w : World) : Prop where
  found : w.store.Found key fresh (fun e => e.answers headers) clocks l
  lasting : ∀ h ∈ l, ∀ now, clocks now → h.entry.expired now = !fresh h.entry

/-- Exchanges from this number on have taken up no other entry than this one. -/
def Picked (n : Nat) (key : Bytes) (first : Option Held) (t : History) : Prop :=
  ∀ p ∈ t, ∀ (i : Nat) (h : Held), n ≤ i → Picks i key h p → first = some h

/-- The exchange has not asked the origin so far. -/
def Unasked (x : Exchange) : Prop := x.fetch = none ∧ x.cache ≠ .skip

section Finding

variable {front : Front} {key : Bytes} {headers : Headers} {fresh : Entry → Bool}
  {clocks : Instant → Prop} {w w' b : World} {t : History} {l : List Held} {i n : Nat}
  {x x' : Exchange} {actor : Actor} {a : Happening} {first : Option Held}

theorem Finding.turn (hf : Finding key headers fresh clocks l w) (ho : Orderly front t w)
    (hheaders : x.request.headers = headers) (ht : Turn front w i x actor x' b)
    (hclock : clocks w.clock) (hno : ∀ v e, ¬ Stores front w x v e) :
    Finding key headers fresh clocks l (b.put i x') where
  found := by
    rw [put_store]
    exact ht.store.found hf.found ho.attended.sound (fun now hnow h hh => hf.lasting h hh now hnow)
      hclock (fun _ => by rw [hheaders]) hno
  lasting := hf.lasting

theorem Finding.of_store (hf : Finding key headers fresh clocks l w) (hs : w'.store = w.store) :
    Finding key headers fresh clocks l w' :=
  ⟨hs ▸ hf.found, hf.lasting⟩

/-- **Who takes up an entry takes up the first that would do.** -/
theorem Picked.snoc (hp : Picked n key first t) (ho : Orderly front t w)
    (hf : Finding key headers fresh clocks l w)
    (hfirst : Store.firstFit fresh (fun e => e.answers headers) l = first) :
    Picked n key first (t ++ [(w, a)]) := by
  intro p hmem i h hi hpick
  rcases List.mem_append.1 hmem with hmem | hmem
  · exact hp p hmem i h hi hpick
  · rw [List.mem_singleton.1 hmem] at hpick
    obtain ⟨x, visit, -, hx, hkey, hstage, hh⟩ := hpick
    rw [← hfirst]
    exact (ho.handed_of_found hx hstage hh (hkey ▸ hf.found)).symm

/-- No exchange to come has taken up anything. -/
theorem Rested.picked (h : Rested front t w) : Picked w.exchanges.length key first t := by
  rintro p hp i held hi ⟨x, visit, -, hx, -⟩
  obtain ⟨w₀, -, hrun⟩ := h.run
  rw [List.getElem?_eq_none (Nat.le_trans ((length_le_of_run hrun).2 p hp) hi)] at hx
  exact absurd hx (by simp)

/-- **What an exchange does that has not asked yet**: it asks, or dies because of the calendar, or
does something that leaves it as it is. -/
theorem Unasked.turn (hu : Unasked x) (ho : Orderly front t w) (hx : w.exchanges[i]? = some x)
    (heligible : front.eligible x.request = true) (ht : Turn front w i x actor x' b) :
    (Unasked x' ∧ x'.isDead = x.isDead ∧ b.calls = w.calls ∧ b.sinks = w.sinks) ∨
    ∃ visit previous, x.stage = .visiting visit ∧ w.store.handed visit = some previous ∧
      (∀ held, previous = some held → held.entry.isPublic = false) ∧ b.sinks = w.sinks ∧
      ((b.calls = w.calls + 1 ∧ (∃ draft, x'.stage = .fetching visit draft) ∧
          w.clock.add? front.settings.defaultWindow ≠ none) ∨
        (b.calls = w.calls ∧ Unasked x' ∧ w.clock.add? front.settings.defaultWindow = none)) := by
  have hc := ho.course i x hx
  cases ht.decision with
  | nothing hcache hstatus hfetch hdead hcalls hsinks hstage =>
    refine .inl ⟨⟨?_, hcache ▸ hu.2⟩, hdead, hcalls, hsinks⟩
    rwa [hu.1, Option.isSome_none, Option.isSome_eq_false_iff, Option.isNone_iff_eq_none] at hfetch
  | pass h =>
    rcases h with ⟨-, hineligible⟩ | ⟨script, hstage⟩
    · simp [heligible] at hineligible
    · exact absurd (hc.forwarding hstage).1.1 hu.2
  | replay hstage hh hpublic hcache hfetch hdead hcalls hsinks =>
    refine .inl ⟨⟨hfetch.trans hu.1, by simp [hcache]⟩, ?_, hcalls, hsinks⟩
    rw [hdead, Exchange.isDead, hstage]
  | ask hstage hh hprivate hexp hstage' hcache hfetch hcalls hsinks =>
    exact .inr ⟨_, _, hstage, hh, hprivate, hsinks, .inl ⟨hcalls, hstage', by simp [hexp]⟩⟩
  | die hstage hh hprivate hexp hcache hfetch hcalls hsinks =>
    exact .inr ⟨_, _, hstage, hh, hprivate, hsinks,
      .inr ⟨hcalls, ⟨hfetch.trans hu.1, hcache ▸ hu.2⟩, hexp⟩⟩
  | judge hstage =>
    obtain ⟨slot, previous, f, expiration, -, -, -, hf, -⟩ := hc.fetching hstage
    simp [hu.1] at hf

/-- An exchange that has asked and does not await its head any more decides nothing. -/
theorem Orderly.decided (ho : Orderly front t w) (hx : w.exchanges[i]? = some x)
    (ht : Turn front w i x actor x' b) (hf : x.fetch.isSome = true)
    (hfetching : ∀ visit draft, x.stage ≠ .fetching visit draft) :
    x'.cache = x.cache ∧ x'.status = x.status ∧ x'.fetch.isSome = true ∧ b.calls = w.calls ∧
      b.sinks = w.sinks ∧ ∀ visit draft, x'.stage ≠ .fetching visit draft := by
  have hc := ho.course i x hx
  have hfresh : ∀ {visit previous}, x.stage = .visiting visit →
      w.store.handed visit ≠ some previous := by
    intro visit previous hstage hh
    simp [(hc.fresh_of_handed hstage hh).fetch] at hf
  cases ht.decision with
  | nothing hcache hstatus hfetch hdead hcalls hsinks hstage =>
    exact ⟨hcache, hstatus, hfetch.trans hf, hcalls, hsinks,
      fun visit draft h => hfetching visit draft (hstage visit draft h)⟩
  | pass h =>
    rcases h with ⟨hstage, -⟩ | ⟨script, hstage⟩
    · simp [(hc.arrived hstage).fetch] at hf
    · simp [(hc.forwarding hstage).1.2.1] at hf
  | replay hstage hh | ask hstage hh | die hstage hh => exact absurd hh (hfresh hstage)
  | judge hstage => exact absurd hstage (hfetching _ _)

theorem Unasked.not_keeps {y : Exchange} {head : Head} {verdict : Cacheability} {e : Entry}
    (hu : Unasked x) (hx : w.exchanges[i]? = some x) : ¬ Keeps front w i y head verdict e := by
  intro hk
  obtain ⟨visit, draft, f, -, hf, -⟩ := hk.fetching
  obtain rfl : x = y := Option.some.inj (hx.symm.trans hk.exchange)
  simp [hu.1] at hf

/-- An exchange that has not asked stores nothing. -/
theorem Unasked.not_stores (hu : Unasked x) (v : Nat) (e : Entry) : ¬ Stores front w x v e := by
  rintro ⟨draft, f, head, verdict, -, hf, -⟩
  simp [hu.1] at hf

/-- An exchange that ends without having asked has replayed an entry. -/
theorem Unasked.replays {outcome : Handled} (hu : Unasked x) (ho : Orderly front t w)
    (hx : w.exchanges[i]? = some x) (hstage : x.stage = .finished outcome) :
    ∃ held, (∃ p ∈ t, Picks i x.key held p) ∧ outcome.cache = .hit ∧
      outcome.status = held.entry.head.status ∧ Replays front t i x held.entry ∧
      Replayed t w i held.entry := by
  obtain ⟨hsettled, hcache, hstatus⟩ := (ho.course i x hx).finished hstage
  rcases hsettled with ⟨e, hr, hd⟩ | ⟨-, -, f, hf, -⟩ | ⟨hskip, -⟩
  · obtain ⟨p, hp, held, hpick, rfl⟩ := hr.picked
    exact ⟨held, ⟨p, hp, hpick⟩, hcache.trans hr.cache,
      (hstatus (by simp [hr.cache])).trans hr.status, hr, hd⟩
  · simp [hu.1] at hf
  · exact absurd hskip hu.2

theorem Unasked.relinked {y : Exchange} (hu : Unasked x) (hr : Relinked x y) : Unasked y :=
  ⟨hr.fetch_eq_none hu.1, hr.cache ▸ hu.2⟩

end Finding

end World
end EdgeCache
