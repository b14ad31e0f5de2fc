import EdgeCache.Proofs.Exchange.Order

/-!
# A turn keeps an exchange on its course

The step lemmas of `Course`: one for the turns of the front, by the stage the exchange is in, and
one for the turns of the origin and of the copier, which leave the stage as it is.
-/

set_option autoImplicit false

namespace EdgeCache
namespace World

/-! ## The producer decides -/

theorem phaseOf_concluding {c : World} {v : Nat} {previous : Option Held} (outcome : Outcome)
    (hh : c.store.handed v = some previous) :
    ∃ p, (c.concluding v outcome).store.phaseOf v = some p ∧ p.early = false := by
  obtain ⟨s', hs⟩ := Store.finish_isSome outcome hh
  obtain ⟨-, u, u', -, hu', -, -, hlate⟩ := Store.finish_visit hs
  exact ⟨u'.phase, by simp only [concluding, hs]; exact Store.phaseOf_eq hu', hlate⟩

theorem handed_of_phaseOf {s : Store} {v : Nat} {p : Store.Phase} {previous : Option Held}
    (hp : s.phaseOf v = some p) (hh : p.handed = some previous) : s.handed v = some previous := by
  rw [Store.handed_eq, hp, Option.bind_some, hh]

/-- A visit that hands out a public entry reuses it: the entry would do for the exchange, and has
come from a step of the run. -/
theorem Attended.reusing {front : Front} {t : History} {w : World} {i v : Nat} {x : Exchange}
    {held : Held} (ha : w.Attended) (hx : w.exchanges[i]? = some x) (hv : x.stage.visit? = some v)
    (hkept : w.store.All (Kept front t)) (hh : w.store.handed v = some (some held))
    (hpublic : held.entry.isPublic = true) :
    (∃ slot, w.store.phaseOf v = some (.reusing slot held)) ∧ Kept front t x.key held.entry ∧
      held.entry.answers x.request.headers = true := by
  obtain ⟨u, hu, hkey, hacc⟩ := ha.own i x v hx hv
  have hoff := ha.offers v u hu
  rw [Store.handed, hu, Option.bind_some] at hh
  cases hp : u.phase with
  | producing slot previous =>
    rw [hp, Store.Phase.handed, Option.some.injEq] at hh
    subst hh
    rw [hp] at hoff
    simp [Store.Phase.Offers, hpublic] at hoff
  | reusing slot held' =>
    rw [hp, Store.Phase.handed, Option.some.injEq, Option.some.injEq] at hh
    subst hh
    rw [hp] at hoff
    refine ⟨⟨slot, by rw [Store.phaseOf_eq hu, hp]⟩, ?_, ?_⟩
    · exact hkey ▸ hkept.held v u held' hu (by rw [hp, Store.Phase.held])
    · have := hoff.2
      rwa [hacc] at this
  | _ => simp [hp, Store.Phase.handed] at hh

/-- A visit that hands out nothing, or a private entry, keeps its slot. -/
theorem Attended.producing {w : World} {i v : Nat} {x : Exchange} {previous : Option Held}
    (ha : w.Attended) (hx : w.exchanges[i]? = some x) (hv : x.stage.visit? = some v)
    (hh : w.store.handed v = some previous)
    (hprivate : ∀ held, previous = some held → held.entry.isPublic = false) :
    ∃ slot, w.store.phaseOf v = some (.producing slot previous) := by
  obtain ⟨u, hu, hkey, hacc⟩ := ha.own i x v hx hv
  have hoff := ha.offers v u hu
  rw [Store.handed, hu, Option.bind_some] at hh
  cases hp : u.phase with
  | producing slot previous' =>
    rw [hp, Store.Phase.handed, Option.some.injEq] at hh
    subst hh
    exact ⟨slot, by rw [Store.phaseOf_eq hu, hp]⟩
  | reusing slot held =>
    rw [hp, Store.Phase.handed, Option.some.injEq] at hh
    have hpriv := hprivate held hh.symm
    rw [hp] at hoff
    simp [Store.Phase.Offers, hpriv] at hoff
  | _ => simp [hp, Store.Phase.handed] at hh

/-! ## The front -/

section Turn

variable {front : Front} {t : History} {w b : World} {i : Nat} {x x' : Exchange}

/-- A body that grows never fails a reader. -/
theorem Tails.ne_failure {e : Entry} {body : StoredBody} {r : Reader} {inHand : List Bytes}
    (h : Tails t w i e body r inHand) (text : String) :
    r.read w.bodies body ≠ .failure text := by
  obtain ⟨id, g, -, rfl, hg, -⟩ := h
  rw [Reader.read_growing hg]
  intro hfailure
  cases Reader.look hfailure

/-- **A turn of the front keeps its exchange on its course.** -/
theorem Orderly.course_front (ho : Orderly front t w) (hx : w.exchanges[i]? = some x)
    (ht : Turn front w i x .front x' b) :
    Course front (t ++ [(w, .step i .front)]) (b.put i x') i x' := by
  have hc := ho.course i x hx
  have hmem : ∀ p ∈ t, p ∈ t ++ [(w, Happening.step i .front)] :=
    fun p hp => List.mem_append_left _ hp
  have hp := History.passed_front (t := t) hx
  have hquiet : x.stage.chunk? = none →
      History.writes (t ++ [(w, .step i .front)]) i = t.writes i := History.writes_front hx
  have hgrown : Grown w (b.put i x') := fun id g hg => ho.grown hx ht id g hg
  cases ht with
  | enter h he =>
    have hf := (hc.arrived h).frame (hquiet (by rw [h]; rfl)) hp
    obtain ⟨u, hu, -, -, hph⟩ :=
      Store.begin_visit_new w.store x.key fun e => e.answers x.request.headers
    exact ⟨.arriving, (Store.phaseOf_eq hu).trans (by rw [hph]), fun _ => { hf with }, nofun⟩
  | skip h he =>
    have hf := hc.arrived h
    exact ⟨⟨rfl, hf.fetch, hf.copier, hf.joins⟩, Front.ends_forward _ _⟩
  | forward h hm =>
    obtain ⟨hskips, hends⟩ := hc.forwarding h
    exact ⟨hskips, hends.step hm⟩
  | forwarded h =>
    obtain ⟨hskips, hends⟩ := hc.forwarding h
    cases hends with
    | done hskip =>
      exact ⟨.inr (.inr hskips), hskip.trans hskips.1.symm, fun hne => absurd hskips.1 hne⟩
  | dieForwarding h =>
    obtain ⟨⟨-, hf, hcop, -⟩, -⟩ := hc.forwarding h
    exact ⟨hf, hcop⟩
  | @replay visit held body h hh hpublic hbody =>
    have hf := hc.fresh_of_handed h hh
    have hv : x.stage.visit? = some visit := by rw [h]; rfl
    obtain ⟨⟨slot, hph⟩, hkept, hans⟩ := ho.attended.reusing hx hv ho.kept hh hpublic
    obtain ⟨id, hid⟩ := hkept.body hpublic
    obtain rfl : body = .growing id := Option.some.inj (hbody.symm.trans hid)
    obtain ⟨g, hg⟩ : ∃ g, w.bodies[id]? = some g :=
      ⟨_, List.getElem?_eq_getElem (ho.room _ _ id hkept hid)⟩
    refine ⟨held.entry, slot, held.id, hph, ?_, id, g, hbody, rfl, hg, ?_⟩
    · refine ⟨rfl, hf.fetch, hf.copier, hf.joins, rfl, ?_, hkept.mono hmem, hpublic, hans,
        (w, .step i .front), by simp, held, ⟨x, visit, rfl, hx, rfl, h, hh⟩, rfl⟩
      rw [Client.head_present front held.entry hf.head, hf.headers]
    · rw [hquiet (by rw [h]; rfl), hf.writes]
      exact Reads.start g
  | @replayHead visit held h hh hpublic hbody =>
    have hv : x.stage.visit? = some visit := by rw [h]; rfl
    obtain ⟨-, hkept, -⟩ := ho.attended.reusing hx hv ho.kept hh hpublic
    obtain ⟨id, hid⟩ := hkept.body hpublic
    simp [hbody] at hid
  | @ask visit previous expiration h hh hprivate hexp =>
    have hf := hc.fresh_of_handed h hh
    have hv : x.stage.visit? = some visit := by rw [h]; rfl
    obtain ⟨slot, hph⟩ := ho.attended.producing hx hv hh hprivate
    exact ⟨slot, previous, _, expiration, hph, rfl, hf.cache, rfl, rfl, hf.copier, hf.joins⟩
  | dieAsking h hh =>
    have hf := hc.fresh_of_handed h hh
    exact ⟨hf.fetch, hf.copier⟩
  | @leave visit result lines h hh hr =>
    obtain ⟨p, hph, -, hsettled⟩ := hc.visiting h
    rw [Store.result_eq, hph, Option.bind_some] at hr
    have hlate : p.early = false := by
      cases p <;> simp_all [Store.Phase.result, Store.Phase.early]
    exact ((hsettled hlate).frame hmem (hquiet (by rw [h]; rfl)) hgrown).staged _
  | @step visit store h hh hr hs =>
    obtain ⟨p, hph, hfresh, hsettled⟩ := hc.visiting h
    obtain ⟨-, u, u', hu, hu', -, -, hearly⟩ := Store.step_visit hs
    have hpu : u.phase = p := Option.some.inj ((Store.phaseOf_eq hu).symm.trans hph)
    have hw := hquiet (by rw [h]; rfl)
    simp only [Course, h]
    refine ⟨u'.phase, Store.phaseOf_eq hu', fun he => ?_, fun he => ?_⟩
    · exact (hfresh (by rw [← hpu, ← hearly, he])).frame hw hp
    · exact (hsettled (by rw [← hpu, ← hearly, he])).frame hmem hw hgrown
  | @turn visit body reader r h hr =>
    obtain ⟨e, slot, n, hph, hreplays, id, g, he, rfl, hg, hreads⟩ := hc.replaying h
    rw [Reader.read_growing hg] at hr
    refine ⟨e, slot, n, hph, { hreplays.mono hmem with }, id, g, he, rfl, hg, ?_⟩
    rw [hquiet (by rw [h]; rfl)]
    exact hreads.turn hr
  | @read visit body reader r data h hr =>
    obtain ⟨e, slot, n, hph, hreplays, id, g, he, rfl, hg, hreads⟩ := hc.replaying h
    rw [Reader.read_growing hg] at hr
    refine ⟨e, slot, n, hph, { hreplays.mono hmem with }, id, g, he, rfl, hg, ?_⟩
    rw [hquiet (by rw [h]; rfl)]
    exact hreads.chunk hr
  | @readAll visit body reader h hr =>
    obtain ⟨e, slot, n, hph, hreplays, id, g, he, rfl, hg, hreads⟩ := hc.replaying h
    obtain ⟨p, hp', hlate⟩ := phaseOf_concluding .keep (handed_of_phaseOf hph rfl)
    rw [Reader.read_growing hg] at hr
    obtain ⟨hclosed, hall⟩ := hreads.finish (ho.attached id g hg) hr
    refine ⟨p, hp', fun hearly => by simp [hlate] at hearly,
      fun _ => .inl ⟨e, ?_, id, g, he, hg, ?_⟩⟩
    · exact { hreplays.mono hmem with }
    · rw [hquiet (by rw [h]; rfl)]
      exact .inr ⟨hclosed, hall⟩
  | readFailed _ h hr =>
    obtain ⟨e, slot, n, -, -, htail⟩ := hc.replaying h
    exact absurd hr (htail.ne_failure _)
  | relayPartly h hwrite =>
    obtain ⟨e, slot, n, -, hreplays, -⟩ := hc.relaying h
    exact absurd hwrite (Client.write_ne_partly (by rw [Client.isCommitted, hreplays.head]; rfl))
  | @relay visit body reader chunk c h hwrite =>
    obtain ⟨e, slot, n, hph, hreplays, id, g, he, rfl, hg, hreads⟩ := hc.relaying h
    have hhead := Client.head_of_write (by rw [Client.isCommitted, hreplays.head]; rfl) hwrite
    refine ⟨e, slot, n, hph, { hreplays.mono hmem with head := hhead.trans hreplays.head }, id, g,
      he, rfl, hg, ?_⟩
    have hatt : x.attempt .front = some (chunk, none) := by
      simp [Exchange.attempt, h, Stage.chunk?, Client.reports_finished hwrite]
    rw [History.writes_step hx, hatt]
    exact hreads.write
  | @relayFailed visit body reader chunk c failure h hwrite =>
    obtain ⟨e, slot, n, hph, hreplays, id, g, he, rfl, hg, hreads⟩ := hc.relaying h
    obtain ⟨p, hp', hlate⟩ := phaseOf_concluding .keep (handed_of_phaseOf hph rfl)
    have hhead := Client.head_of_write (by rw [Client.isCommitted, hreplays.head]; rfl) hwrite
    have hatt : x.attempt .front = some (chunk, some failure) := by
      simp [Exchange.attempt, h, Stage.chunk?, Client.reports_finished hwrite]
    refine ⟨p, hp', fun hearly => by simp [hlate] at hearly,
      fun _ => .inl ⟨e, ?_, id, g, he, hg, ?_⟩⟩
    · exact { hreplays.mono hmem with head := hhead.trans hreplays.head }
    · rw [History.writes_step hx, hatt]
      exact .inl ⟨(chunk, some failure), by simp, by simp⟩
  | decideFail h hf | openFail h hf | loseHead h hf =>
    obtain ⟨slot, previous, f, expiration, hph, -, hcache, -, -, hcop, hjoins⟩ := hc.fetching h
    obtain ⟨p, hp', hlate⟩ := phaseOf_concluding _ (handed_of_phaseOf hph rfl)
    refine ⟨p, hp', fun hearly => by simp [hlate] at hearly, fun _ => .inr (.inl ⟨hcache, ?_⟩)⟩
    exact ⟨by rw [hjoins, hcop]; rfl, _, rfl, by rw [hcop]; rfl⟩
  | discard _ h hf | keep _ h hf =>
    obtain ⟨slot, previous, f, expiration, hph, -, hcache, hf', hcons, -⟩ := hc.fetching h
    obtain ⟨p, hp', hlate⟩ := phaseOf_concluding _ (handed_of_phaseOf hph rfl)
    exact ⟨p, hp', fun hearly => by simp [hlate] at hearly,
      fun _ => .inr (.inl ⟨hcache, rfl, f, hf', hcons⟩)⟩
  | @join result lines h hj =>
    have hs : Settled front t w i x := by simpa only [Course, h] using hc
    exact (hs.frame hmem (hquiet (by rw [h]; rfl)) hgrown).staged _
  | @close result lines h hj =>
    have hs : Settled front t w i x := by simpa only [Course, h] using hc
    exact ⟨(hs.frame hmem (hquiet (by rw [h]; rfl)) hgrown).staged _, rfl, fun _ => rfl⟩
  | @report outcome h =>
    have hs : Settled front t w i x ∧ outcome.cache = x.cache ∧
        (x.cache ≠ .skip → outcome.status = x.status) := by simpa only [Course, h] using hc
    exact ⟨(hs.1.frame hmem (hquiet (by rw [h]; rfl)) hgrown).staged _, hs.2⟩

/-! ## The origin and the copier -/

/-- The tasks in the background leave all but origin, copier and bodies alone, and only work for an
exchange that has an origin. -/
theorem Turn.background {actor : Actor} (ht : Turn front w i x actor x' b) (h : actor ≠ .front) :
    x'.stage = x.stage ∧ x'.own = x.own ∧ x'.cache = x.cache ∧ x'.status = x.status ∧
      x'.joins = x.joins ∧ x'.copier.isSome = x.copier.isSome ∧
      ((x.copier = none → x.fetch.isSome = true) ∧ ∀ f, x.fetch = some f →
        ∃ f', x'.fetch = some f' ∧ f'.tee.consumed = f.tee.consumed) := by
  have hidle : x'.fetch = x.fetch → ∀ f, x.fetch = some f →
      ∃ f', x'.fetch = some f' ∧ f'.tee.consumed = f.tee.consumed :=
    fun heq f hf => ⟨f, heq.trans hf, rfl⟩
  cases ht with
  | @origin f f' gates event hf hs =>
    refine ⟨rfl, rfl, rfl, rfl, rfl, rfl, fun _ => by rw [hf]; rfl, fun f₀ hf₀ => ⟨f', rfl, ?_⟩⟩
    obtain rfl : f = f₀ := Option.some.inj (hf.symm.trans hf₀)
    exact (Fetch.step_cases hs).2.consumed
  | @drain f f' data hc hf hr =>
    refine ⟨rfl, rfl, rfl, rfl, rfl, rfl, fun hn => by simp [hn] at hc, fun f₀ hf₀ => ⟨f', rfl, ?_⟩⟩
    obtain rfl : f = f₀ := Option.some.inj (hf.symm.trans hf₀)
    obtain ⟨rest, -, -, rfl⟩ := Fetch.receive_chunk hr
    rfl
  | @pump sink body writes stored failed f f' data hc hf hr =>
    refine ⟨rfl, rfl, rfl, rfl, rfl, by rw [hc]; rfl, fun hn => by simp [hn] at hc,
      fun f₀ hf₀ => ⟨f', rfl, ?_⟩⟩
    obtain rfl : f = f₀ := Option.some.inj (hf.symm.trans hf₀)
    obtain ⟨rest, -, -, rfl⟩ := Fetch.receive_chunk hr
    rfl
  | drained hc | pumped hc | writeFail _ hc | write hc | stop _ hc =>
    exact ⟨rfl, rfl, rfl, rfl, rfl, by rw [hc]; rfl, fun hn => by simp [hn] at hc, hidle rfl⟩
  | _ => exact absurd rfl h

theorem Asked.background {actor : Actor} (ha : Asked x) (ht : Turn front w i x actor x' b)
    (h : actor ≠ .front) : Asked x' := by
  obtain ⟨-, -, hcache, -, hjoins, hcopier, -, hfetch⟩ := ht.background h
  obtain ⟨hmiss, hj, f, hf, hcons⟩ := ha
  obtain ⟨f', hf', hcons'⟩ := hfetch f hf
  refine ⟨hcache.trans hmiss, ?_, f', hf', ?_⟩
  · rw [hjoins, hcopier, hj]
  · rw [hcons', hcopier, hcons]

/-- **A turn of the origin or of the copier keeps the exchange on its course.** -/
theorem Orderly.course_background {actor : Actor} (ho : Orderly front t w)
    (hx : w.exchanges[i]? = some x) (ht : Turn front w i x actor x' b) (h : actor ≠ .front) :
    Course front (t ++ [(w, .step i actor)]) (b.put i x') i x' := by
  have hc := ho.course i x hx
  obtain ⟨hstage, hown, hcache, hstatus, hjoins, hcopier, hnone, hfetched⟩ := ht.background h
  -- an exchange without origin and copier has no such turn
  have hidle : x.copier = none → x.fetch = none → False := by
    intro hcop hf
    simpa [hf] using hnone hcop
  have hstore : (b.put i x').store = w.store := ht.store_of_ne h
  have hsettled : Settled front t w i x →
      Settled front (t ++ [(w, .step i actor)]) (b.put i x') i x' := by
    rintro (⟨e, hr, -⟩ | hasked | ⟨-, hf, hcop, -⟩)
    · exact absurd hr.fetch (hidle hr.copier)
    · exact .inr (.inl (hasked.background ht h))
    · exact absurd hf (hidle hcop)
  rw [Course] at hc ⊢
  rw [hstage]
  cases hs : x.stage with
  | arrived =>
    simp only [hs] at hc
    exact absurd hc.fetch (hidle hc.copier)
  | forwarding script =>
    simp only [hs] at hc
    exact absurd hc.1.2.1 (hidle hc.1.2.2.1)
  | visiting v =>
    simp only [hs] at hc ⊢
    obtain ⟨p, hph, hfresh, hset⟩ := hc
    refine ⟨p, hstore ▸ hph, fun he => ?_, fun he => hsettled (hset he)⟩
    exact absurd (hfresh he).fetch (hidle (hfresh he).copier)
  | replaying v body r | relaying v body r chunk =>
    simp only [hs] at hc
    obtain ⟨e, slot, n, -, hr, -⟩ := hc
    exact absurd hr.fetch (hidle hr.copier)
  | fetching v draft =>
    simp only [hs] at hc ⊢
    obtain ⟨slot, previous, f, expiration, hph, hdraft, hmiss, hf, hcons, hcop, hj⟩ := hc
    obtain ⟨f', hf', hcons'⟩ := hfetched f hf
    have hcop' : x'.copier = none := by simpa [hcop] using hcopier
    exact ⟨slot, previous, f', expiration, hstore ▸ hph, ht.request ▸ hdraft, hcache.trans hmiss,
      hf', hcons'.trans hcons, hcop', hjoins.trans hj⟩
  | joining result | closing result =>
    simp only [hs] at hc ⊢
    exact hsettled hc
  | reporting o | finished o =>
    simp only [hs] at hc ⊢
    rw [hcache, hstatus]
    exact ⟨hsettled hc.1, hc.2⟩
  | died =>
    simp only [hs] at hc
    exact absurd hc.1 (hidle hc.2)

end Turn

/-! ## The run -/

section Run

variable {front : Front} {t : History} {w w' b : World} {i : Nat} {x x' : Exchange} {actor : Actor}

/-- A turn of one exchange leaves the others on their course. -/
theorem Orderly.course_other {j : Nat} {y : Exchange} (ho : Orderly front t w)
    (hx : w.exchanges[i]? = some x) (ht : Turn front w i x actor x' b)
    (hy : w.exchanges[j]? = some y) (hij : j ≠ i) :
    Course front (t ++ [(w, .step i actor)]) (b.put i x') j y := by
  refine (ho.course j y hy).frame (fun p hp => List.mem_append_left _ hp)
    (History.writes_step_ne hij) (History.passed_step_ne hij) (fun v hv => ?_)
    fun id g hg => ho.grown hx ht id g hg
  rw [Store.phaseOf, Store.phaseOf, put_store,
    ho.attended.visit_other hx ht.store hy hij hv]

/-- **A turn keeps a world in order.** -/
theorem Orderly.turn (ho : Orderly front t w) (hx : w.exchanges[i]? = some x)
    (ht : Turn front w i x actor x' b) :
    Orderly front (t ++ [(w, .step i actor)]) (b.put i x') where
  attended := ho.attended.turn hx ht
  course j y hy := by
    rcases ht.exchange_cases hy with ⟨rfl, rfl⟩ | ⟨hij, hy⟩
    · by_cases hactor : actor = .front
      · subst hactor
        exact ho.course_front hx ht
      · exact ho.course_background hx ht hactor
    · exact ho.course_other hx ht hy hij
  watched j y f hy hf := by
    rcases ht.exchange_cases hy with ⟨rfl, rfl⟩ | ⟨hij, hy⟩
    · exact Watched.turn ho hx ht hf
    · exact (ho.watched j y f hy hf).frame (fun p hp => List.mem_append_left _ hp)
        (History.writes_step_ne hij) (History.passed_step_ne hij)
  pumps j y sink id failed writes stored doing hy hcop := by
    rcases ht.exchange_cases hy with ⟨rfl, rfl⟩ | ⟨hij, hy⟩
    · exact Pumps.turn ho hx ht hcop
    · obtain ⟨f, g, hf, hg, hp⟩ := ho.pumps j y sink id failed writes stored doing hy hcop
      refine ⟨f, g, hf, ht.body_other hg fun doing' hc => hij ?_, hp.frame
        (History.passed_step_ne hij)⟩
      exact ho.apart j i y x id doing doing' hy hx ⟨sink, failed, writes, stored, hcop⟩ hc
  apart j k y z id doing doing' hy hz hyc hzc := by
    rcases ht.exchange_cases hy with ⟨rfl, rfl⟩ | ⟨hj, hy'⟩ <;>
      rcases ht.exchange_cases hz with ⟨rfl, rfl⟩ | ⟨hk, hz'⟩
    · rfl
    · rcases ht.copies_cases hyc with ⟨d, hxc⟩ | ⟨rfl, -⟩
      · exact ho.apart _ _ _ _ id d doing' hx hz' hxc hzc
      · exact absurd (ho.copies_lt hz' hzc) (Nat.lt_irrefl _)
    · rcases ht.copies_cases hzc with ⟨d, hxc⟩ | ⟨rfl, -⟩
      · exact ho.apart _ _ _ _ id doing d hy' hx hyc hxc
      · exact absurd (ho.copies_lt hy' hyc) (Nat.lt_irrefl _)
    · exact ho.apart _ _ _ _ id doing doing' hy' hz' hyc hzc
  fed id g hg hopen := ho.fed_turn hx ht hg hopen
  attached id g hg := ho.attached_turn hx ht hg
  kept := by
    rw [put_store]
    exact ho.kept_turn hx ht
  room key e id hk he := ho.room_turn hx ht hk he
  unborn j hj := by
    rw [put_exchanges, ht.exchanges, List.length_set] at hj
    have hij : j ≠ i := by
      rintro rfl
      exact absurd (List.getElem?_eq_some_iff.1 hx).1 (Nat.not_lt.2 hj)
    rw [History.writes_step_ne hij, History.passed_step_ne hij]
    exact ho.unborn j hj

/-- Requests arrive with a client that is untouched: nothing is committed, and no header is set. -/
def Tidy (a : Happening) : Prop :=
  ∀ request client access, a = .arrive request client access →
    client.head = none ∧ client.headers = {}

/-- **What comes from outside keeps a world in order.** -/
theorem Orderly.outside {a : Happening} (ho : Orderly front t w) (hout : Outside w a w')
    (htidy : Tidy a) : Orderly front (t ++ [(w, a)]) w' := by
  have hmem : ∀ p ∈ t, p ∈ t ++ [(w, a)] := fun p hp => List.mem_append_left _ hp
  have hw : ∀ j, History.writes (t ++ [(w, a)]) j = t.writes j :=
    fun j => History.writes_outside hout.noStep
  have hp : ∀ j, History.passed (t ++ [(w, a)]) j = t.passed j :=
    fun j => History.passed_outside hout.noStep
  have hgrown : Grown w w' := fun id g hg => ⟨g, hout.bodies ▸ hg, .inl rfl⟩
  refine ⟨ho.attended.outside hout, fun j y hy => ?_, fun j y f hy hf => ?_,
    fun j y sink id failed writes stored doing hy hcop => ?_,
    fun j k y z id doing doing' hy hz hyc hzc => ?_, fun id g hg hopen => ?_, ?_, ?_,
    fun key e id hk he => ?_, fun j hj => ?_⟩
  · rcases hout.exchange j y hy with ⟨x, hx, hr⟩ | ⟨request, client, access, ha, rfl, rfl⟩
    · refine Course.relinked ?_ hr
      refine (ho.course j x hx).frame hmem (hw j) (hp j) (fun v hv => ?_) hgrown
      rw [hout.store]
    · obtain ⟨hhead, hheaders⟩ := htidy request client access ha
      obtain ⟨hwrites, hpassed⟩ := ho.unborn _ (Nat.le_refl _)
      exact ⟨rfl, rfl, rfl, rfl, hhead, hheaders, (hw _).trans hwrites, (hp _).trans hpassed⟩
  · rcases hout.exchange j y hy with ⟨x, hx, hr⟩ | ⟨request, client, access, ha, rfl, rfl⟩
    · cases hxf : x.fetch with
      | none => simp [hr.fetch_eq_none hxf] at hf
      | some f₀ =>
        obtain ⟨link, hyf⟩ := hr.fetch_eq_some hxf
        obtain rfl := Option.some.inj (hyf.symm.trans hf)
        rw [hr.copier]
        exact ((ho.watched j x f₀ hx hxf).frame hmem (hw j) (hp j)).relinked link
    · simp at hf
  · rcases hout.exchange j y hy with ⟨x, hx, hr⟩ | ⟨request, client, access, ha, rfl, rfl⟩
    · rw [hr.copier] at hcop
      obtain ⟨f, g, hf, hg, hpump⟩ := ho.pumps j x sink id failed writes stored doing hx hcop
      obtain ⟨link, hyf⟩ := hr.fetch_eq_some hf
      exact ⟨_, g, hyf, hout.bodies ▸ hg, (hpump.frame (hp j)).relinked link⟩
    · simp at hcop
  · have hcopies : ∀ {j : Nat} {y : Exchange} {id : Nat} {doing : Copying},
        w'.exchanges[j]? = some y → Copies y id doing →
        ∃ x, w.exchanges[j]? = some x ∧ Copies x id doing := by
      rintro j y id doing hy ⟨sink, failed, writes, stored, hcop⟩
      rcases hout.exchange j y hy with ⟨x, hx, hr⟩ | ⟨request, client, access, ha, rfl, rfl⟩
      · exact ⟨x, hx, sink, failed, writes, stored, hr.copier ▸ hcop⟩
      · simp at hcop
    obtain ⟨x, hx, hxc⟩ := hcopies hy hyc
    obtain ⟨x', hx', hxc'⟩ := hcopies hz hzc
    exact ho.apart j k x x' id doing doing' hx hx' hxc hxc'
  · obtain ⟨j, x, doing, hx, sink, failed, writes, stored, hcop⟩ :=
      ho.fed id g (hout.bodies ▸ hg) hopen
    obtain ⟨y, hy, hr⟩ := hout.still j x hx
    exact ⟨j, y, doing, hy, sink, failed, writes, stored, hr.copier.trans hcop⟩
  · rw [hout.bodies]
    exact ho.attached
  · rw [hout.store]
    exact ho.kept.mono fun _ _ hk => hk.mono hmem
  · rw [hout.bodies]
    obtain ⟨w₀, j, y, head, verdict, hmem', hkey, hk⟩ := hk
    rcases List.mem_append.1 hmem' with hmem' | hmem'
    · exact ho.room key e id ⟨w₀, j, y, head, verdict, hmem', hkey, hk⟩ he
    · simp only [List.mem_singleton, Prod.mk.injEq] at hmem'
      exact absurd hmem'.2.symm (hout.noStep j .front)
  · rw [hw, hp]
    exact ho.unborn j (Nat.le_trans hout.length_le hj)

theorem Orderly.happen {a : Happening} (ho : Orderly front t w) (h : w.happen front a = some w')
    (htidy : Tidy a) : Orderly front (t ++ [(w, a)]) w' := by
  rcases happen_cases h with ⟨i, actor, x, x', b, rfl, hx, ht, rfl⟩ | hout
  · exact ho.turn hx ht
  · exact ho.outside hout htidy

/-- A world in which nothing has happened yet. -/
structure Blank (w : World) : Prop where
  store : w.store = {}
  bodies : w.bodies = []
  exchanges : w.exchanges = []

theorem Blank.orderly (h : w.Blank) (front : Front) : Orderly front [] w where
  attended := by
    refine ⟨h.store ▸ Store.sound_empty, ?_, ?_, ?_, ?_, ?_⟩
    · rw [h.store]
      intro i v hv
      simp at hv
    · simp [h.exchanges]
    · simp [h.exchanges]
    · simp [h.exchanges]
    · simp [h.store]
  course i x hx := by simp [h.exchanges] at hx
  watched i x f hx := by simp [h.exchanges] at hx
  pumps i x sink id failed writes stored doing hx := by simp [h.exchanges] at hx
  apart i j x y id doing doing' hx := by simp [h.exchanges] at hx
  fed id g hg := by simp [h.bodies] at hg
  attached id g hg := by simp [h.bodies] at hg
  kept := by
    rw [h.store]
    constructor <;> simp [Store.variantsOf, Store.slotOf]
  room key e id hk := by
    obtain ⟨w₀, j, y, head, verdict, hmem, -⟩ := hk
    simp at hmem
  unborn j _ := ⟨rfl, rfl⟩

/-- **Worlds stay in order**: whatever happens in a blank world, if clients arrive untouched. -/
theorem Orderly.of_run {w₀ : World} (hrun : Run (World.happen front) w₀ t w) (h₀ : w₀.Blank)
    (htidy : ∀ p ∈ t, Tidy p.2) : Orderly front t w := by
  induction hrun with
  | start => exact h₀.orderly front
  | @next t s₁ s₂ a _ ha ih =>
    refine Orderly.happen (ih fun p hp => htidy p ?_) ha (htidy (s₁, a) ?_)
    · exact List.mem_append_left _ hp
    · exact List.mem_append_right _ (List.mem_singleton_self _)

/-- What is true of exchanges when they arrive, and is kept by their own turns, by those of others
and by what comes from outside, is true of every exchange after every run. -/
theorem each_of_run {P : History → World → Nat → Exchange → Prop} {w₀ : World} (h₀ : w₀.Blank)
    (hrun : Run (World.happen front) w₀ t w) (htidy : ∀ p ∈ t, Tidy p.2)
    (hturn : ∀ {t w i x actor x' b}, Run (World.happen front) w₀ t w → (∀ p ∈ t, Tidy p.2) →
      Orderly front t w → w.exchanges[i]? = some x → Turn front w i x actor x' b → P t w i x →
      P (t ++ [(w, .step i actor)]) (b.put i x') i x')
    (hother : ∀ {t w i x actor x' b j y}, Orderly front t w → w.exchanges[i]? = some x →
      Turn front w i x actor x' b → j ≠ i → w.exchanges[j]? = some y → P t w j y →
      P (t ++ [(w, .step i actor)]) (b.put i x') j y)
    (houtside : ∀ {t w a w' i x y}, w.happen front a = some w' → Outside w a w' →
      w.exchanges[i]? = some x → w'.exchanges[i]? = some y → Relinked x y → P t w i x →
      P (t ++ [(w, a)]) w' i y)
    (harrive : ∀ {t w w' request client access}, Run (World.happen front) w₀ t w →
      P (t ++ [(w, .arrive request client access)]) w' w.exchanges.length
        { request, own := client, access }) :
    ∀ (i : Nat) (x : Exchange), w.exchanges[i]? = some x → P t w i x := by
  induction hrun with
  | start => simp [h₀.exchanges]
  | @next t w w' a hrun ha ih =>
    have htidy' : ∀ p ∈ t, Tidy p.2 := fun p hp => htidy p (List.mem_append_left _ hp)
    have ho := Orderly.of_run hrun h₀ htidy'
    intro j y hy
    rcases happen_cases ha with ⟨i, actor, x, x', b, rfl, hx, ht, rfl⟩ | hout
    · rcases ht.exchange_cases hy with ⟨rfl, rfl⟩ | ⟨hij, hy⟩
      · exact hturn hrun htidy' ho hx ht (ih htidy' j x hx)
      · exact hother ho hx ht hij hy (ih htidy' j y hy)
    · rcases hout.exchange j y hy with ⟨x, hx, hr⟩ | ⟨request, client, access, rfl, rfl, rfl⟩
      · exact houtside ha hout hx hy hr (ih htidy' j x hx)
      · exact harrive hrun

/-- What is true of one exchange when it arrives, and is kept by its turns, by those of others and
by what comes from outside, is true of it ever after. -/
theorem since_arrival {P : History → World → Exchange → Prop} {w₀ w₁ : World} {request : Request}
    {client : Client} {access : Option Log.Access} (h₀ : w₀.Blank)
    (hrun : Run (World.happen front) w₀ t w) (htidy : ∀ p ∈ t, Tidy p.2)
    (harrived : (w₁, .arrive request client access) ∈ t)
    (harrive : ∀ {t w}, Run (World.happen front) w₀ t w₁ → Orderly front t w₁ →
      P (t ++ [(w₁, .arrive request client access)]) w { request, own := client, access })
    (hturn : ∀ {t w x actor x' b}, Run (World.happen front) w₀ t w → (∀ p ∈ t, Tidy p.2) →
      (w₁, .arrive request client access) ∈ t →
      w.happen front (.step w₁.exchanges.length actor) = some (b.put w₁.exchanges.length x') →
      w.exchanges[w₁.exchanges.length]? = some x →
      Turn front w w₁.exchanges.length x actor x' b → P t w x →
      P (t ++ [(w, .step w₁.exchanges.length actor)]) (b.put w₁.exchanges.length x') x')
    (hother : ∀ {t w i x y actor x' b}, Turn front w i x actor x' b → w₁.exchanges.length ≠ i →
      P t w y → P (t ++ [(w, .step i actor)]) (b.put i x') y)
    (houtside : ∀ {t w a w' x y}, w.happen front a = some w' → Outside w a w' →
      w.exchanges[w₁.exchanges.length]? = some x → w'.exchanges[w₁.exchanges.length]? = some y →
      Relinked x y → P t w x → P (t ++ [(w, a)]) w' y) :
    ∃ x, w.exchanges[w₁.exchanges.length]? = some x ∧ P t w x := by
  refine hrun.since harrived (P := fun t w => (∀ p ∈ t, Tidy p.2) →
    ∃ x, w.exchanges[w₁.exchanges.length]? = some x ∧ P t w x) ?_ ?_ htidy
  · intro t₁ w₂ hrun₁ h htidy
    have ho := Orderly.of_run hrun₁ h₀ fun p hp => htidy p (List.mem_append_left _ hp)
    obtain rfl := Option.some.inj h
    exact ⟨_, List.getElem?_concat_length, harrive hrun₁ ho⟩
  · intro t w a w' hrun hmem ih h htidy
    have htidy' : ∀ p ∈ t, Tidy p.2 := fun p hp => htidy p (List.mem_append_left _ hp)
    obtain ⟨x, hx, hP⟩ := ih htidy'
    rcases happen_cases h with ⟨i, actor, x₀, x', b, rfl, hx₀, ht, rfl⟩ | hout
    · by_cases hi : w₁.exchanges.length = i
      · subst hi
        obtain rfl : x = x₀ := Option.some.inj (hx.symm.trans hx₀)
        exact ⟨x', ht.exchange_self hx, hturn hrun htidy' hmem h hx ht hP⟩
      · exact ⟨x, (ht.exchange_ne hi).trans hx, hother ht hi hP⟩
    · obtain ⟨y, hy, hr⟩ := hout.still _ x hx
      exact ⟨y, hy, houtside h hout hx hy hr hP⟩

/-- A run from a blank world has led to the world, and all its exchanges are over. -/
structure Rested (front : Front) (t : History) (w : World) : Prop where
  run : ∃ w₀ : World, w₀.Blank ∧ Run (World.happen front) w₀ t w
  tidy : ∀ p ∈ t, Tidy p.2
  isOver : ∀ (i : Nat) (x : Exchange), w.exchanges[i]? = some x → x.isOver = true

theorem Rested.orderly (h : Rested front t w) : Orderly front t w := by
  obtain ⟨w₀, h₀, hrun⟩ := h.run
  exact Orderly.of_run hrun h₀ h.tidy

/-- What the whole record says of an exchange that came later, the later part says too. -/
theorem Rested.record (h : Rested front t w) (t' : History) {i : Nat}
    (hi : w.exchanges.length ≤ i) :
    (t ++ t').writes i = t'.writes i ∧ (t ++ t').passed i = t'.passed i := by
  obtain ⟨hwrites, hpassed⟩ := h.orderly.unborn i hi
  rw [History.writes_append, History.passed_append, hwrites, hpassed]
  exact ⟨rfl, rfl⟩

/-- A world at rest, and a run that leads to rest. -/
theorem Rested.extend {t' : History} {w' : World} (h : Rested front t w)
    (hrun : Run (World.happen front) w t' w') (htidy : ∀ p ∈ t', Tidy p.2)
    (hover : ∀ (i : Nat) (x : Exchange), w'.exchanges[i]? = some x → x.isOver = true) :
    Rested front (t ++ t') w' := by
  obtain ⟨w₀, h₀, hrun₀⟩ := h.run
  refine ⟨⟨w₀, h₀, hrun₀.trans hrun⟩, fun p hp => ?_, hover⟩
  rcases List.mem_append.1 hp with hp | hp
  · exact h.tidy p hp
  · exact htidy p hp

/-- Then all visits are over. -/
theorem Rested.visits (h : Rested front t w) {v : Nat} {u : Store.Visit}
    (hu : w.store.visits[v]? = some u) : u.phase.isOver = true := by
  cases hbusy : u.phase.isOver with
  | true => rfl
  | false =>
    obtain ⟨i, x, hx, hv⟩ := h.orderly.attended.busy v u hu hbusy
    have hover := h.isOver i x hx
    cases hs : x.stage with
    | visiting | replaying | relaying | fetching =>
      simp [Exchange.isOver, Exchange.outcome?, Exchange.isDead, hs] at hover
    | _ => simp [hs, Stage.visit?] at hv

end Run

end World
end EdgeCache
