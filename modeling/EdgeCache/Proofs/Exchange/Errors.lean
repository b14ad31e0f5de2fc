import EdgeCache.Proofs.Exchange.Accounting
import EdgeCache.Proofs.Exchange.Hits

/-!
# The only error

With the default policy, a store that opens a body when it is asked to, and a calendar that does not
end within a century, a call can fail in one way: its origin dies before it has committed a head.
`only_error` says that this is the only one, of a call that has the store for itself.

The other ways are ruled out one by one.  No lifetime reaches past the calendar
(`InTime.add?_ne_none`), an origin that returns has committed a head (`head_of_returned`), and a
response whose head is known is not given up (`Heeded`).  And since a call that fails has stored
nothing, it has done no more to the store than to sweep away what had expired (`Lone`).
-/

set_option autoImplicit false

namespace EdgeCache

/-- The origin of the exchange has died, and has not committed a head. -/
def Exchange.LosesHead (x : Exchange) : Prop :=
  ∃ f message, x.fetch = some f ∧ f.ending = some (.died message) ∧ f.tee.client.head = none

/-! ## What has not expired -/

namespace Store

/-- **A move that stores nothing leaves what has not expired as it is**, to everybody who looks
later. -/
theorem unexpired_move {s s' : Store} {m : Move} {now : Instant} (hs : Sound s) (hf : s.Fitting)
    (hm : s.move m = some s') (hstep : ∀ now' i, m = .step now' i → now'.le now = true)
    (hno : ∀ i e, m ≠ .finish i (.replace e)) (key : Bytes) :
    s'.unexpired key now = s.unexpired key now := by
  rcases move_cases hm with ⟨key', accepts, -, rfl⟩ | ⟨-, -, rfl⟩ | ⟨i, v, p, b, hv, ht, hg⟩
  · rfl
  · rfl
  · rw [unexpired, unexpired, hg.variantsOf]
    rcases ht.variantsOf_cases hs hv key with hb | ⟨now', slot, hsweep, -, -, hb⟩ |
      ⟨previous, e, hstores, -⟩
    · rw [hb]
    · -- what is swept away would have expired by then as well
      rw [hb, List.filter_map, List.filter_map, List.filter_filter]
      congr 1
      refine List.filter_congr fun h _ => ?_
      cases hexpired : h.entry.expired now with
      | true => simp [hexpired]
      | false => simp [hexpired, fresh_of_le (hstep now' i hsweep) hexpired]
    · exact absurd (hf.stores hv hstores).1 (hno i e)

end Store

namespace World

section Turn

variable {front : Front} {t : History} {w w' b start : World} {i : Nat} {x x' y : Exchange}
  {actor : Actor} {request : Request} {now : Instant}

theorem StoreTurn.unexpired {s : Store} (hst : StoreTurn front w x x' s) (hs : Store.Sound w.store)
    (hf : w.store.Fitting) (hno : ∀ v e, ¬ Stores front w x v e) (hle : w.clock.le now = true)
    (key : Bytes) : s.unexpired key now = w.store.unexpired key now := by
  cases hst with
  | same | leave => rfl
  | begin => exact Store.unexpired_move (m := .begin _ _) hs hf rfl (by simp) (by simp) key
  | @step v _ _ _ hstep =>
    refine Store.unexpired_move (m := .step w.clock v) hs hf hstep ?_ (by simp) key
    rintro now' i ⟨rfl, -⟩
    exact hle
  | lose => exact Store.unexpired_move (m := .lose _) hs hf rfl (by simp) (by simp) key
  | @finish v outcome _ _ _ hfinish he =>
    refine Store.unexpired_move (m := .finish v outcome) hs hf hfinish (by simp) ?_ key
    rintro i e ⟨⟩
    exact hno v e (he e rfl)

/-- An exchange that stores something awaits the tasks in the background from then on. -/
theorem Stores.joins {v : Nat} {e : Entry} (hs : Stores front w x v e)
    (ht : Turn front w i x .front x' b) : x'.joins = true := by
  obtain ⟨draft, f, head, verdict, hstage, hf, hhead, hpol, hcases⟩ := hs
  cases ht with
  | discard | keep => rfl
  | @decideFail visit' draft' f' head' text h hf' hhead' hpol' =>
    obtain rfl : f = f' := Option.some.inj (hf.symm.trans hf')
    obtain rfl : head = head' := Option.some.inj (hhead.symm.trans hhead')
    simp [hpol] at hpol'
  | @openFail visit' draft' f' head' verdict' text h hf' hhead' hpol' hv ho =>
    obtain rfl : f = f' := Option.some.inj (hf.symm.trans hf')
    obtain rfl : head = head' := Option.some.inj (hhead.symm.trans hhead')
    obtain rfl : verdict = verdict' := Except.ok.inj (hpol.symm.trans hpol')
    simp [hv, ho] at hcases
  | @loseHead visit' draft' f' h hf' hhead' =>
    obtain rfl : f = f' := Option.some.inj (hf.symm.trans hf')
    simp [hhead] at hhead'
  | enter h | skip h | forward h | forwarded h | dieForwarding h | replay h | replayHead h | ask h
  | dieAsking h | leave _ h | step h | turn h | read h | readAll h | readFailed _ h | relayPartly h
  | relay h | relayFailed h | join _ h | close _ h | report h => simp [hstage] at h

/-- What is awaited once is awaited. -/
theorem Turn.joins_of_joins (ht : Turn front w i x actor x' b) (h : x.joins = true) :
    x'.joins = true := by
  cases ht with
  | discard | keep => rfl
  | _ => exact h

/-- A turn after which nothing is awaited has stored nothing. -/
theorem Turn.unexpired (ht : Turn front w i x actor x' b) (hw : Filed front t w)
    (hjoins : x'.joins = false) (hle : w.clock.le now = true) (key : Bytes) :
    b.store.unexpired key now = w.store.unexpired key now := by
  by_cases hactor : actor = .front
  · subst hactor
    refine ht.store.unexpired hw.orderly.attended.sound hw.fitting (fun v e hs => ?_) hle key
    simp [hs.joins ht] at hjoins
  · rw [ht.store_of_ne hactor]

/-! ## A call by itself -/

/-- No request has come after this one, and no other is at work; and as long as its exchange has
nothing to await, what has not expired is what was stored when it came. -/
structure Lone (start : World) (request : Request) (w : World) : Prop where
  others : ∀ (i : Nat) (x : Exchange), i ≠ start.exchanges.length → w.exchanges[i]? = some x →
    x.isOver = true
  spares : ∃ x, w.exchanges[start.exchanges.length]? = some x ∧ x.request = request ∧
    (x.joins = false → ∀ key now, w.clock.le now = true →
      w.store.unexpired key now = start.store.unexpired key now)

/-- **Whatever happens but that requests arrive, the call stays by itself.** -/
theorem Lone.happen {a : Happening} (h : Lone start request w) (hw : Filed front t w)
    (ha : w.happen front a = some w')
    (hnone : ∀ request client access, a ≠ .arrive request client access) :
    Lone start request w' := by
  obtain ⟨hothers, x, hx, hrequest, hspares⟩ := h
  have hclock := clock_le ha
  rcases happen_cases ha with ⟨i, actor, z, x', b, rfl, hz, ht, rfl⟩ | hout
  · -- nobody else takes turns
    obtain rfl : i = start.exchanges.length := by
      by_contra hi
      simpa [hothers i z hi hz] using ht.isOver_eq_false
    obtain rfl : x = z := Option.some.inj (hx.symm.trans hz)
    refine ⟨fun j y hj hy => ?_, x', ht.exchange_self hx, ht.request.trans hrequest,
      fun hjoins key now hle => ?_⟩
    · rcases ht.exchange_cases hy with ⟨rfl, -⟩ | ⟨-, hy⟩
      · exact absurd rfl hj
      · exact hothers j y hj hy
    · have hbefore := Instant.le_trans hclock hle
      have hjoins' : x.joins = false := by
        rw [← Bool.not_eq_true] at hjoins ⊢
        exact fun h => hjoins (ht.joins_of_joins h)
      rw [put_store, ht.unexpired hw hjoins hbefore, hspares hjoins' key now hbefore]
  · refine ⟨fun j y hj hy => ?_, ?_⟩
    · rcases hout.exchange j y hy with ⟨z, hz, hr⟩ | ⟨request, client, access, ha, -⟩
      · rw [hr.isOver]
        exact hothers j z hj hz
      · exact absurd ha (hnone request client access)
    · obtain ⟨y, hy, hr⟩ := hout.still _ x hx
      refine ⟨y, hy, hr.request.trans hrequest, fun hjoins key now hle => ?_⟩
      rw [hout.store]
      exact hspares (hr.joins ▸ hjoins) key now (Instant.le_trans hclock hle)

/-! ## How a call fails -/

/-- A request passes the cache only if it is not eligible; and unless an entry has been replayed or
something has been stored, the status to be reported is the one from the start. -/
structure Undecided (front : Front) (x : Exchange) : Prop where
  skips : x.cache = .skip → front.eligible x.request = false
  status : x.cache = .hit ∨ x.joins = true ∨ x.status = .internalServerError

theorem Undecided.turn (h : Undecided front x) (hc : Course front t w i x)
    (ht : Turn front w i x actor x' b) : Undecided front x' := by
  obtain ⟨hskips, hstatus⟩ := h
  cases ht with
  | skip hs he =>
    refine ⟨fun _ => he, .inr (hstatus.resolve_left ?_)⟩
    simp [(hc.arrived hs).cache]
  | replay | replayHead => exact ⟨nofun, .inl rfl⟩
  | discard | keep => exact ⟨hskips, .inr (.inl rfl)⟩
  | _ => exact ⟨hskips, hstatus⟩

theorem undecided_of_run {w₀ : World} (h₀ : w₀.Blank) (hrun : Run (World.happen front) w₀ t w)
    (htidy : ∀ p ∈ t, Tidy p.2) :
    ∀ (i : Nat) (x : Exchange), w.exchanges[i]? = some x → Undecided front x := by
  refine each_of_run (P := fun _ _ _ x => Undecided front x) h₀ hrun htidy ?_ ?_ ?_ ?_
  · intro t w i x actor x' b _ _ ho hx ht hundecided
    exact hundecided.turn (ho.course i x hx) ht
  · intro t w i x actor x' b j y _ _ _ _ _ hundecided
    exact hundecided
  · rintro t w a w' i x y - - - - hr ⟨hskips, hstatus⟩
    refine ⟨?_, ?_⟩
    · rw [hr.cache, hr.request]
      exact hskips
    · rw [hr.cache, hr.joins, hr.status]
      exact hstatus
  · exact fun _ => ⟨nofun, .inr (.inr rfl)⟩

/-- An origin that has returned has committed a head. -/
theorem Fetches.head_of_returned (h : Fetches front t i x) {f : Fetch} (hf : x.fetch = some f)
    (hreturned : f.ending = some .returned) : f.tee.client.head.isSome = true :=
  Script.isSome_play_supervise (h.play hf hreturned (.self _))

/-- **How a visit ends**, if no response is given up whose head is known. -/
theorem Accounts.loses_cases {r : VisitResult} (h : Accounts x r) (ho : Orderly front t w)
    (hx : w.exchanges[i]? = some x) (hfetches : Fetches front t i x) (hheeded : Heeded x)
    (hasked : ∀ f, x.fetch = some f → Asked x) :
    r = .ok () ∧ ¬ x.LosesHead ∨
      r = .error .headersUnavailable ∧ x.LosesHead ∧ x.joins = false := by
  have hannounced : ∀ f, x.fetch = some f → f.tee.announced = f.tee.client.head :=
    fun f hf => (ho.watched i x f hx hf).announced
  cases h with
  | replayed hf =>
    refine .inl ⟨rfl, ?_⟩
    rintro ⟨f, message, hf', -⟩
    simp [hf] at hf'
  | @stored f head hf hhead =>
    refine .inl ⟨rfl, ?_⟩
    rintro ⟨f', message, hf', -, hnone⟩
    obtain rfl := Option.some.inj (hf.symm.trans hf')
    simp [hannounced f hf, hnone] at hhead
  | @headless f hf hhead hend hjoins =>
    rw [hannounced f hf] at hhead
    refine .inr ⟨rfl, ?_, hjoins⟩
    obtain ⟨ending, hending⟩ := Option.isSome_iff_exists.1 hend
    cases ending with
    | returned => simpa [hhead] using hfetches.head_of_returned hf hending
    | died message => exact ⟨f, message, hf, hending, hhead⟩
  | @abandoned f e hf hhead he hjoins =>
    -- the consumer has gone away, which it does only for want of a head
    obtain ⟨-, hcopier, f', hf', hconsumed⟩ := hasked f hf
    obtain rfl := Option.some.inj (hf.symm.trans hf')
    have hnone := (hheeded f hf (hconsumed.trans (hcopier.symm.trans hjoins))).1
    simp [hnone] at hhead

/-- What waits for an origin does not wait any more when it has ended. -/
theorem waits_eq_false_of_ended (hc : Course front t w i x) {f : Fetch} (hf : x.fetch = some f)
    (hend : f.ending.isSome = true) (gates : Gates) : x.waits gates = false := by
  have hstage : x.stage.isHeld gates x.own = false := by
    cases hs : x.stage with
    | forwarding script => simp [(hc.forwarding hs).1.2.1] at hf
    | relaying visit body reader chunk =>
      obtain ⟨e, slot, n, -, hr, -⟩ := hc.relaying hs
      simp [hr.fetch] at hf
    | _ => rfl
  obtain ⟨ending, hending⟩ := Option.isSome_iff_exists.1 hend
  simp [Exchange.waits, hstage, hf, Fetch.isHeld, hending]

/-- A call that has returned with an origin has asked it. -/
theorem Course.asked_of_returned {outcome : Handled} (hc : Course front t w i x)
    (hreturned : x.returned? = some outcome) {f : Fetch} (hf : x.fetch = some f) : Asked x := by
  refine (hc.asked_of_fetch hf).resolve_right ?_
  rintro ⟨v, draft, hs⟩
  simp [Exchange.returned?, hs] at hreturned

/-- How a call returns. -/
theorem Returns.loses_cases {outcome : Handled} (h : Returns x outcome) (hskip : x.cache ≠ .skip)
    (ho : Orderly front t w) (hx : w.exchanges[i]? = some x) (hfetches : Fetches front t i x)
    (hheeded : Heeded x) (hasked : ∀ f, x.fetch = some f → Asked x) :
    outcome.error = none ∧ ¬ x.LosesHead ∨
      outcome.error = some .headersUnavailable ∧ x.LosesHead ∧ x.joins = false := by
  rcases h with ⟨⟨hskip', -⟩, -⟩ | ⟨r, herror, hacc, -⟩
  · exact absurd hskip' hskip
  · rw [herror]
    rcases hacc.loses_cases ho hx hfetches hheeded hasked with ⟨rfl, hkept⟩ | ⟨rfl, hloses⟩
    · exact .inl ⟨rfl, hkept⟩
    · exact .inr ⟨rfl, hloses⟩

/-- A call that asked and stored nothing reports the status from the start. -/
theorem Undecided.status_of_fails (h : Undecided front x) (hloses : x.LosesHead)
    (hasked : ∀ f, x.fetch = some f → Asked x) (hjoins : x.joins = false) :
    x.status = .internalServerError := by
  obtain ⟨f, -, hf, -⟩ := hloses
  have hmiss := (hasked f hf).1
  simpa [hmiss, hjoins] using h.status

/-- The front dies only past the cache, or when it is too late to ask. -/
theorem Undecided.isDead_eq_false (h : Undecided front x) (hsteady : Steady front w i x)
    (hin : w.InTime) (heligible : front.eligible x.request = true) : x.isDead = false := by
  cases hdead : x.isDead with
  | false => rfl
  | true =>
    rcases hsteady.dead hdead with hskip | hlate
    · simpa [heligible] using h.skips hskip
    · exact absurd hlate hin.not_late

/-- When the origin has ended, a call by itself has returned or goes on. -/
theorem Orderly.returned_or_steps (ho : Orderly front t w) (hx : w.exchanges[i]? = some x)
    (hothers : ∀ (j : Nat) (y : Exchange), j ≠ i → w.exchanges[j]? = some y → y.isOver = true)
    (halive : x.isDead = false) {f : Fetch} (hf : x.fetch = some f)
    (hend : f.ending.isSome = true) :
    x.returned?.isSome = true ∨ ∃ (actor : Actor) (w' : World), w.step front i actor = some w' := by
  have hwait := waits_eq_false_of_ended (ho.course i x hx) hf hend w.gates
  refine (ho.progress_alone hx hwait hothers).imp_left fun hover => ?_
  rcases (isOver_cases hover).1 with ⟨outcome, hs⟩ | hdead
  · rw [Exchange.returned?, hs]
    rfl
  · simp [halive] at hdead

end Turn

/-! ## The run -/

section Run

variable {front : Front} {t₀ t t' : History} {start w w' : World} {request : Request}
  {client : Client} {access : Option Log.Access}

theorem InTime.of_run (h : w'.InTime) (hrun : Run (World.happen front) w t w') :
    ∀ p ∈ t, p.1.InTime := by
  induction hrun with
  | start => simp
  | @next t s₁ s₂ a _ ha ih =>
    have hbefore : s₁.InTime := h.before ha
    intro p hp
    rcases List.mem_append.1 hp with hp | hp
    · exact ih hbefore p hp
    · obtain rfl := List.mem_singleton.1 hp
      exact hbefore

/-- A request with an untouched client comes to a world at rest. -/
theorem Rested.arrive (h : Rested front t₀ start) (hhead : client.head = none)
    (hheaders : client.headers = {}) :
    (∃ w₀ : World, w₀.Blank ∧ Run (World.happen front) w₀
      (t₀ ++ [(start, .arrive request client access)]) (start.arrive request client access)) ∧
    ∀ p ∈ t₀ ++ [(start, .arrive request client access)], Tidy p.2 := by
  obtain ⟨w₀, h₀, hrun₀⟩ := h.run
  refine ⟨⟨w₀, h₀, hrun₀.next rfl⟩, fun p hp => ?_⟩
  rcases List.mem_append.1 hp with hp | hp
  · exact h.tidy p hp
  · obtain rfl := List.mem_singleton.1 hp
    rintro request' client' access' ⟨⟩
    exact ⟨hhead, hheaders⟩

/-- Then it is by itself, -/
theorem Rested.lone (h : Rested front t₀ start) :
    Lone start request (start.arrive request client access) where
  others i y hi hy := by
    rw [World.arrive, List.getElem?_append] at hy
    split at hy
    · exact h.isOver i y hy
    · next hlt =>
      rw [List.getElem?_eq_none (by simp; omega)] at hy
      exact absurd hy (by simp)
  spares := ⟨_, List.getElem?_concat_length, rfl, fun _ _ _ _ => rfl⟩

/-- and stays so until another one comes. -/
theorem Lone.of_run (h : Lone start request w) (hw : Filed front t w)
    (hrun : Run (World.happen front) w t' w')
    (halone : ∀ p ∈ t', ∀ request client access, p.2 ≠ .arrive request client access) :
    Filed front (t ++ t') w' ∧ Lone start request w' := by
  induction hrun with
  | start => exact ⟨by simpa using hw, h⟩
  | @next t' s₁ s₂ a _ ha ih =>
    obtain ⟨hw', hlone⟩ := ih fun p hp => halone p (List.mem_append_left _ hp)
    have hnone := halone (s₁, a) (List.mem_append_right _ (List.mem_singleton_self _))
    rw [← List.append_assoc]
    exact ⟨hw'.happen ha fun _ _ _ harrive => absurd harrive (hnone _ _ _),
      hlone.happen hw' ha hnone⟩

end Run

/-- **There is only one error.**  Let the policy be the default one, and the store open a body when
it is asked to; the lifetimes, the status codes to be stored and what the origin does may be
anything, and the calendar does not end within a century.  A request that goes through the cache
comes to a world at rest, and no other comes after it.

No date is past the calendar, and so the front does not die.  If the origin has died before it has
committed a head, then the call has returned, or one of its tasks can take a step, and it takes only
finitely many.  And when the call has returned, then with an error just if that has happened: the
error is that there are no headers, the status is `500 Internal Server Error`, and what has not
expired is what was stored before. -/
theorem only_error {front : Front} {t₀ t : History} {start w : World} {request : Request}
    {client : Client} {access : Option Log.Access}
    (hpolicy : front.policy = .byStatus front.settings)
    (hopening : ∀ sink, front.faults.opening sink = none) (hstart : Rested front t₀ start)
    (hhead : client.head = none) (hheaders : client.headers = {})
    (heligible : front.eligible request = true)
    (hrun : Run (World.happen front) (start.arrive request client access) t w)
    (halone : ∀ p ∈ t, ∀ request client access, p.2 ≠ .arrive request client access)
    (hin : w.InTime) :
    (∀ p ∈ t, p.1.clock.add? front.settings.defaultWindow ≠ none ∧
      p.1.clock.add? front.settings.ttlWindow ≠ none) ∧
    Acc (fun w' w => Proceeds front w w') w ∧
    ∃ x, w.exchanges[start.exchanges.length]? = some x ∧ x.request = request ∧ x.isDead = false ∧
      (x.LosesHead → x.returned?.isSome = true ∨
        ∃ (actor : Actor) (w' : World), w.step front start.exchanges.length actor = some w') ∧
      ∀ outcome, x.returned? = some outcome →
        (outcome.error ≠ none ↔ x.LosesHead) ∧
        (outcome.error ≠ none → outcome.error = some .headersUnavailable ∧
          outcome.status = .internalServerError ∧
          ∀ key now, w.clock.le now = true →
            w.store.unexpired key now = start.store.unexpired key now) := by
  obtain ⟨⟨w₀, h₀, hrun₀⟩, htidy₀⟩ :=
    Rested.arrive hstart hhead hheaders
  obtain ⟨⟨ho, -, -⟩, hothers, x, hx, rfl, hspares⟩ :=
    hstart.lone.of_run (.of_run h₀ hrun₀ htidy₀) hrun halone
  have hwhole := hrun₀.trans hrun
  have htidy : ∀ p ∈ t₀ ++ [(start, .arrive x.request client access)] ++ t, Tidy p.2 :=
    fun p hp => (List.mem_append.1 hp).elim (htidy₀ p) fun hp _ _ _ ha =>
      absurd ha (halone p hp _ _ _)
  have hc := ho.course _ x hx
  have hundecided := undecided_of_run h₀ hwhole htidy _ x hx
  have hskip : x.cache ≠ .skip := fun hskip => by simpa [heligible] using hundecided.skips hskip
  have halive := hundecided.isDead_eq_false (Steady.of_run h₀ hwhole htidy _ x hx) hin heligible
  refine ⟨fun p hp => ?_, ho.terminates_meanwhile, x, hx, rfl, halive, ?_,
    fun outcome hreturned => ?_⟩
  · have hbefore := hin.of_run hrun p hp
    exact ⟨hbefore.add?_ne_none _, hbefore.add?_ne_none _⟩
  · rintro ⟨f, message, hf, hending, -⟩
    exact ho.returned_or_steps hx hothers halive hf (by rw [hending]; rfl)
  · have hreturns := (reckoned_of_run h₀ hwhole htidy _ x hx).1.returns hreturned
    have hfetches := (delivers_of_run h₀ hwhole htidy _ x hx).1
    have hheeded := heeded_of_run h₀ hwhole htidy hpolicy hopening hin _ x hx
    have hasked : ∀ f, x.fetch = some f → Asked x := fun f => hc.asked_of_returned hreturned
    rcases hreturns.loses_cases hskip ho hx hfetches hheeded hasked with
      ⟨hnone, hkept⟩ | ⟨herror, hloses, hjoins⟩
    · simp [hnone, hkept]
    · refine ⟨by simp [herror, hloses], fun _ => ⟨herror, ?_, hspares hjoins⟩⟩
      rw [(hc.returned hreturned).2.2 hskip, hundecided.status_of_fails hloses hasked hjoins]

/-- A front with the default settings, whose origin answers the first request with `404 Not Found`,
and dies of the others. -/
def dying : Front :=
  .byDefault {} none fun
    | 0, _ => .done (.ok .notFound)
    | _, _ => .die "out of memory"

/-- The turns in which a response is fetched of which the origin only names the status. -/
def fetchingStatus : List (Actor × Nat) :=
  [(.front, 10), (.origin, 2), (.front, 5), (.origin, 1), (.front, 1), (.copier, 1), (.front, 2)]

/-- The second request finds a private entry, for which the origin has to be asked again; that dies,
and the entry is still there. -/
theorem only_error_dying :
    ∃ (t₀ t : History) (start w : World) (request : Request) (x : Exchange),
      Rested dying t₀ start ∧ Solo dying start request t w ∧
      w.exchanges[start.exchanges.length]? = some x ∧ x.LosesHead ∧
      x.returned? = some ⟨.internalServerError, .miss, some .headersUnavailable⟩ ∧
      (start.store.unexpired request.cacheKey w.clock).map (·.head.status) = [.notFound] ∧
      w.store.unexpired request.cacheKey w.clock =
        start.store.unexpired request.cacheKey w.clock := by
  let request : Request := { method := .get, uri := .asterisk }
  have hcalls : ((call dying request fetchingStatus {}).any fun r₀ =>
      (call dying request [(.front, 10), (.origin, 1), (.front, 8)] r₀.2).any fun r =>
        r₀.2.exchanges.all Exchange.isOver && r.2.clock = ⟨0, 0⟩ &&
          (r₀.2.store.unexpired request.cacheKey r.2.clock).map (·.head.status) = [.notFound] &&
          (r.2.exchanges[r₀.2.exchanges.length]?).any fun x =>
            x.returned? = some ⟨.internalServerError, .miss, some .headersUnavailable⟩) = true := by
    decide +kernel
  simp only [Option.any_eq_true, Bool.and_eq_true, decide_eq_true_eq] at hcalls
  obtain ⟨r₀, hr₀, r, hr, ⟨⟨hover, hclock⟩, hstored⟩, x, hx, houtcome⟩ := hcalls
  have hsolo₀ := solo_of_call hr₀
  have hsolo := solo_of_call hr
  have hblank : Rested dying [] {} := ⟨⟨{}, ⟨rfl, rfl, rfl⟩, .start⟩, by simp, by simp⟩
  have hrested := hblank.extend hsolo₀.run hsolo₀.tidy (over_of_all hover)
  have hin : r.2.InTime := by
    rw [InTime, hclock]
    decide
  obtain ⟨client, access, t, -, hhead, hheaders, hrun, hquiet⟩ := id hsolo
  obtain ⟨-, -, y, hy, -, -, -, hreturned⟩ := only_error rfl (fun _ => rfl) hrested hhead hheaders
    rfl hrun (fun p hp => (hquiet p hp).1) hin
  obtain rfl : x = y := Option.some.inj (hx.symm.trans hy)
  obtain ⟨hiff, herror⟩ := hreturned _ houtcome
  obtain ⟨-, -, hspared⟩ := herror (by simp)
  exact ⟨_, _, _, _, request, x, hrested, hsolo, hx, hiff.1 (by simp), houtcome, hstored,
    hspared _ _ (by simp [Instant.le])⟩

end World
end EdgeCache
