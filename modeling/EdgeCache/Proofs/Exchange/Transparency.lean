import EdgeCache.Proofs.Exchange.Steps
import EdgeCache.Proofs.Origin.Blindness

/-!
# The cache is transparent to the client that causes a miss

On a miss the origin's script runs through a tee, with a copier at the other end of its buffer; past
the cache it runs on the client itself.  In either case what is left of the script delivers, from
where the client is, what the whole script delivers from the start (`Fetches`, `Forwards`).  Both
are kept by every step, so that at the end the two clients have received the same
(`same_delivery`), whatever policy and store make of the response.
-/

set_option autoImplicit false

namespace EdgeCache

/-- What is left of the script of an exchange that passes the cache. -/
def Stage.left? : Stage → Option (Script Handled)
  | .forwarding script => some script
  | .reporting outcome | .finished outcome => some (.done outcome)
  | .died => some (.die "")
  | _ => none

theorem Exchange.attempt_front {x : Exchange} (h : x.stage.chunk? = none) :
    x.attempt .front = none := by
  rw [attempt, h]
  rfl

theorem Exchange.attempt_forwarding {x : Exchange} {s : Script Handled}
    (h : x.stage = .forwarding s) : x.attempt .front = s.attempt x.own := by
  rw [attempt, h]
  cases s <;> rfl

namespace World

/-! ## The two ways through a script -/

/-- On a miss, what is left of the script resumes it; and the task has returned only when the script
is done. -/
def Fetches (front : Front) (t : History) (i : Nat) (x : Exchange) : Prop :=
  ∀ f, x.fetch = some f →
    (Fetch.supervise x.request.isHead (front.respond i x.request)).Resumes f.remaining
        ⟨front.mark .miss {}, none, []⟩ f.tee.client (t.writes i) ∧
      (f.ending = some .returned → f.script = .done ())

/-- Past the cache, what is left of the script resumes it, if the client fixes its head first. -/
def Forwards (front : Front) (t : History) (i : Nat) (x : Exchange) : Prop :=
  x.cache = .skip → ∃ s, x.stage.left? = some s ∧
    (x.own.link.commitsFirst = true →
      (Front.forward x.request.isHead (front.respond i x.request)).Resumes s
        ⟨front.mark .skip {}, none, []⟩ x.own (t.writes i))

section Turn

variable {front : Front} {t : History} {w w' b : World} {i : Nat} {x x' : Exchange} {actor : Actor}

/-- **What a turn does to an origin**: it begins or takes a step, or else only its buffer and its
consumer change, and nothing is written. -/
theorem Turn.fetch_cases (hc : Course front t w i x) (ht : Turn front w i x actor x' b) {f' : Fetch}
    (hf' : x'.fetch = some f') :
    (actor = .front ∧ Fresh t i x ∧ x.attempt .front = none ∧
      f' = .start (x.own.edit (front.mark .miss)) front.settings.bodyBuffer x.request.isHead
        (front.respond i x.request)) ∨
    (actor = .origin ∧ ∃ f gates' event, x.fetch = some f ∧
      f.step w.gates = some (f', gates', event)) ∨
    ∃ f buffer consumed, x.fetch = some f ∧ x.attempt actor = none ∧
      f' = { f with tee := { f.tee with buffer, consumed } } := by
  have hidle : x.fetch = some f' → x.attempt actor = none →
      ∃ f buffer consumed, x.fetch = some f ∧ x.attempt actor = none ∧
        f' = { f with tee := { f.tee with buffer, consumed } } :=
    fun hf hatt => ⟨f', f'.tee.buffer, f'.tee.consumed, hf, hatt, rfl⟩
  cases ht with
  | enter h | skip h | forwarded h | dieForwarding h | replay h | replayHead h | dieAsking h
  | leave _ h | step h | turn h | read h | readAll h | readFailed _ h | discard _ h | keep _ h
  | join _ h | close _ h | report h =>
    exact .inr (.inr (hidle hf' (Exchange.attempt_front (by rw [h]; rfl))))
  | forward h => simp [(hc.forwarding h).1.2.1] at hf'
  | relayPartly h | relay h | relayFailed h =>
    obtain ⟨e, slot, n, -, hr, -⟩ := hc.relaying h
    simp [hr.fetch] at hf'
  | ask h hh =>
    exact .inl ⟨rfl, hc.fresh_of_handed h hh, Exchange.attempt_front (by rw [h]; rfl),
      (Option.some.inj hf').symm⟩
  | decideFail h hf | openFail h hf | loseHead h hf =>
    exact .inr (.inr ⟨_, _, _, hf, Exchange.attempt_front (by rw [h]; rfl),
      (Option.some.inj hf').symm⟩)
  | origin hf hs =>
    obtain rfl := Option.some.inj hf'
    exact .inr (.inl ⟨rfl, _, _, _, hf, hs⟩)
  | drain _ hf hr | pump _ hf hr =>
    obtain rfl := Option.some.inj hf'
    obtain ⟨rest, -, -, rfl⟩ := Fetch.receive_chunk hr
    exact .inr (.inr ⟨_, rest, _, hf, rfl, rfl⟩)
  | drained | pumped | writeFail | write | stop => exact .inr (.inr (hidle hf' rfl))

/-- An exchange that is fresh has delivered nothing yet but the mark. -/
theorem Fresh.of_edit (h : Fresh t i x) (f : Headers → Headers) :
    Delivery.of (x.own.edit f) [] = ⟨f {}, none, []⟩ := by
  rw [Delivery.of, Client.edit, h.headers, h.head]

/-- **A turn keeps what a miss delivers.** -/
theorem Fetches.turn (h : Fetches front t i x) (ho : Orderly front t w)
    (hx : w.exchanges[i]? = some x) (ht : Turn front w i x actor x' b) :
    Fetches front (t ++ [(w, .step i actor)]) i x' := by
  intro f' hf'
  rw [ht.request, History.writes_step hx]
  rcases ht.fetch_cases (ho.course i x hx) hf' with ⟨rfl, hfresh, hatt, rfl⟩ |
    ⟨rfl, f, gates', event, hf, hs⟩ | ⟨f, buffer, consumed, hf, hatt, rfl⟩
  · rw [hatt, hfresh.writes, Option.toList_none, List.append_nil]
    refine ⟨fun pattern _ => ?_, nofun⟩
    rw [← hfresh.of_edit (front.mark .miss)]
    rfl
  · have hattempt : x.attempt .origin = f.attempt := by rw [Exchange.attempt, hf, Option.bind_some]
    rw [hattempt]
    obtain ⟨hresumes, -⟩ := h f hf
    refine ⟨hresumes.step fun pattern hp => ?_, Fetch.script_of_ending hs⟩
    exact Fetch.play_step hs (ho.watched i x f hx hf).half hp
  · rw [hatt, Option.toList_none, List.append_nil]
    exact h f hf

/-- What passes the cache has no origin that runs on its own. -/
theorem Forwards.fetch_eq_none (h : Forwards front t i x) (hc : Course front t w i x)
    (hskip : x.cache = .skip) : x.fetch = none := by
  cases hf : x.fetch with
  | none => rfl
  | some f =>
    obtain ⟨s, hs, -⟩ := h hskip
    rcases hc.asked_of_fetch hf with ⟨hmiss, -⟩ | ⟨v, draft, hstage⟩
    · simp [hskip] at hmiss
    · simp [hstage, Stage.left?] at hs

/-- **What a turn does past the cache**: the script begins or takes a step, or else neither what is
left of it nor what the client has changes. -/
theorem Turn.past_cases (hc : Course front t w i x) (ht : Turn front w i x actor x' b)
    (hpast : x.cache = .skip → ∃ s, x.stage.left? = some s) (hskip : x'.cache = .skip) :
    (Fresh t i x ∧ x.attempt actor = none ∧ x'.own = x.own.edit (front.mark .skip) ∧
      x'.stage.left? =
        some (Front.forward x.request.isHead (front.respond i x.request))) ∨
    (x.cache = .skip ∧ ∃ s m, x.stage.left? = some s ∧ x'.stage.left? = some m.script ∧
      s.step Client.writer w.gates x.own = some m ∧ x'.own = m.writer ∧
      x.attempt actor = s.attempt x.own) ∨
    (x.cache = .skip ∧ x.attempt actor = none ∧ x'.own.link = x.own.link ∧
      Delivery.of x'.own [] = .of x.own [] ∧ (x'.stage.left? = x.stage.left? ∨
        ∃ message, x.stage.left? = some (.die message) ∧ x'.stage.left? = some (.die ""))) := by
  -- an exchange that passes the cache is in no other stage
  have hother : x.cache = .skip → x.stage.left? ≠ none := by
    intro hcache hnone
    obtain ⟨s, hs⟩ := hpast hcache
    simp [hnone] at hs
  cases ht with
  | skip hs =>
    exact .inl ⟨hc.arrived hs, Exchange.attempt_front (by rw [hs]; rfl), rfl, rfl⟩
  | @forward s m hs hm =>
    exact .inr (.inl ⟨hskip, s, m, by rw [hs]; rfl, rfl, hm, rfl, Exchange.attempt_forwarding hs⟩)
  | forwarded hs | report hs =>
    exact .inr (.inr ⟨hskip, Exchange.attempt_front (by rw [hs]; rfl), rfl, rfl,
      .inl (by rw [hs]; rfl)⟩)
  | dieForwarding hs =>
    exact .inr (.inr ⟨hskip, Exchange.attempt_front (by rw [hs]; rfl), rfl, rfl,
      .inr ⟨_, by rw [hs]; rfl, rfl⟩⟩)
  | replay | replayHead => simp at hskip
  | origin hf =>
    rcases hc.asked_of_fetch hf with ⟨hmiss, -⟩ | ⟨v, draft, hs⟩
    · exact absurd (hmiss.symm.trans hskip) (by simp)
    · exact absurd (by rw [hs]; rfl) (hother hskip)
  | drain | drained | pump | pumped | writeFail | write | stop =>
    exact .inr (.inr ⟨hskip, rfl, rfl, rfl, .inl rfl⟩)
  | enter hs | ask hs | dieAsking hs | leave _ hs | step hs | turn hs | read hs | readAll hs
  | readFailed _ hs | relayPartly hs | relay hs | relayFailed hs | decideFail hs | discard _ hs
  | openFail hs | keep _ hs | loseHead hs | join _ hs | close _ hs =>
    exact absurd (by rw [hs]; rfl) (hother hskip)

/-- **A turn keeps what is delivered past the cache.** -/
theorem Forwards.turn (h : Forwards front t i x) (ho : Orderly front t w)
    (hx : w.exchanges[i]? = some x) (ht : Turn front w i x actor x' b) :
    Forwards front (t ++ [(w, .step i actor)]) i x' := by
  intro hskip
  rw [ht.request, History.writes_step hx]
  rcases ht.past_cases (ho.course i x hx) (fun hcache => (h hcache).imp fun _ => And.left)
      hskip with
    ⟨hfresh, hatt, hown, hleft⟩ | ⟨hcache, s, m, hs, hleft, hm, hown, hatt⟩ |
    ⟨hcache, hatt, hlink, hdelivery, hleft⟩
  · refine ⟨_, hleft, fun _ pattern _ => ?_⟩
    rw [hatt, hfresh.writes, Option.toList_none, List.append_nil, hown, hfresh.of_edit]
  · obtain ⟨s', hs', hresumes⟩ := h hcache
    obtain rfl : s = s' := Option.some.inj (hs.symm.trans hs')
    rw [hatt, hown]
    refine ⟨m.script, hleft, fun hfirst => ?_⟩
    have hfirst' := (Client.commitsFirst_step hm).symm.trans hfirst
    exact (hresumes hfirst').step fun pattern hp => Client.play_step hm hfirst' hp
  · obtain ⟨s, hs, hresumes⟩ := h hcache
    rw [hatt, Option.toList_none, List.append_nil, hlink]
    have hof : Delivery.of x'.own (t.writes i) = .of x.own (t.writes i) := by
      simp only [Delivery.of, Delivery.mk.injEq, and_true] at hdelivery ⊢
      exact hdelivery
    rcases hleft with hleft | ⟨message, hdie, hleft⟩
    · refine ⟨s, hleft.trans hs, fun hfirst pattern hp => ?_⟩
      rw [hof]
      exact hresumes hfirst pattern hp
    · obtain rfl : .die message = s := Option.some.inj (hdie.symm.trans hs)
      exact ⟨_, hleft, fun hfirst pattern hp => hresumes hfirst pattern hp⟩

end Turn

/-! ## The run -/

section Run

variable {front : Front} {t t' : History} {w w' : World} {a : Happening} {i : Nat} {x y : Exchange}

theorem Fetches.frame (h : Fetches front t i x) (hw : t'.writes i = t.writes i) :
    Fetches front t' i x := by
  rw [Fetches, hw]
  exact h

theorem Forwards.frame (h : Forwards front t i x) (hw : t'.writes i = t.writes i) :
    Forwards front t' i x := by
  rw [Forwards, hw]
  exact h

theorem Fetches.relinked (h : Fetches front t i x) (hr : Relinked x y) : Fetches front t i y := by
  intro f' hf'
  rw [hr.request]
  cases hf : x.fetch with
  | none => simp [hr.fetch_eq_none hf] at hf'
  | some f =>
    obtain ⟨link, hlink⟩ := hr.fetch_eq_some hf
    obtain rfl := Option.some.inj (hlink.symm.trans hf')
    exact h f hf

theorem Forwards.relinked (h : Forwards front t i x) (hr : Relinked x y)
    (hlink : y.own.link.commitsFirst = x.own.link.commitsFirst) : Forwards front t i y := by
  rw [Forwards, hr.cache, hr.stage, hr.request, hlink]
  intro hskip
  obtain ⟨s, hs, hresumes⟩ := h hskip
  refine ⟨s, hs, fun hfirst pattern hp => ?_⟩
  rw [Delivery.of, hr.headers, hr.head]
  exact hresumes hfirst pattern hp

/-- What a connection leaves alone of a link stays as it is, whatever comes from outside. -/
theorem link_happen {β : Type} {g : Link → β} (hg : Link.Lasting g)
    (h : w.happen front a = some w') (ha : ∀ i actor, a ≠ .step i actor)
    (hx : w.exchanges[i]? = some x) (hy : w'.exchanges[i]? = some y) :
    g y.own.link = g x.own.link ∧ g y.client.link = g x.client.link := by
  have hsame : w'.exchanges[i]? = w.exchanges[i]? →
      g y.own.link = g x.own.link ∧ g y.client.link = g x.client.link := by
    intro hw
    rw [hw, hx, Option.some.injEq] at hy
    exact hy ▸ ⟨rfl, rfl⟩
  have hset : ∀ {j : Nat} {z : Exchange} {c : Client}, w.exchanges[j]? = some z →
      w' = w.put j (z.setClient c) → g c.link = g z.client.link →
      g y.own.link = g x.own.link ∧ g y.client.link = g x.client.link := by
    rintro j z c hz rfl hc
    by_cases hji : j = i
    · subst hji
      obtain rfl : x = z := Option.some.inj (hx.symm.trans hz)
      rw [put_exchanges, List.getElem?_set_self (List.getElem?_eq_some_iff.1 hx).1,
        Option.some.injEq] at hy
      rw [← hy]
      cases hf : x.fetch with
      | none =>
        rw [Exchange.client, hf] at hc
        simpa only [Exchange.setClient, Exchange.client, hf, and_self] using hc
      | some f =>
        rw [Exchange.client, hf] at hc
        simpa only [Exchange.setClient, Exchange.client, hf, true_and] using hc
    · exact hsame (by rw [put_exchanges, List.getElem?_set_ne hji])
  cases a with
  | step j actor => exact absurd rfl (ha j actor)
  | arrive request client access =>
    obtain rfl := Option.some.inj h
    exact hsame (List.getElem?_append_left (List.getElem?_eq_some_iff.1 hx).1)
  | release gate =>
    obtain rfl := Option.some.inj h
    exact hsame rfl
  | tick now =>
    rw [happen, Option.ite_none_right_eq_some, Option.some.injEq] at h
    obtain ⟨-, rfl⟩ := h
    exact hsame rfl
  | take j =>
    obtain rfl := Option.some.inj h
    cases hz : w.exchanges[j]? with
    | none => exact hsame (by rw [take, hz])
    | some z => exact hset hz (by rw [take, hz]) (hg.next _ _)
  | abandon j =>
    obtain rfl := Option.some.inj h
    cases hz : w.exchanges[j]? with
    | none => exact hsame (by rw [abandon, hz])
    | some z => exact hset hz (by rw [abandon, hz]) (hg.abandon _)

/-- **In every run, both ways deliver what the script does.** -/
theorem delivers_of_run {w₀ : World} (h₀ : w₀.Blank) (hrun : Run (World.happen front) w₀ t w)
    (htidy : ∀ p ∈ t, Tidy p.2) :
    ∀ i x, w.exchanges[i]? = some x → Fetches front t i x ∧ Forwards front t i x := by
  refine each_of_run (P := fun t _ i x => Fetches front t i x ∧ Forwards front t i x) h₀ hrun htidy
    ?_ ?_ ?_ fun _ => ⟨fun f hf => by simp at hf, fun hskip => by simp at hskip⟩
  · rintro t w i x actor x' b - - ho hx ht ⟨hfetches, hforwards⟩
    exact ⟨hfetches.turn ho hx ht, hforwards.turn ho hx ht⟩
  · rintro t w i x actor x' b j y - - - hij - ⟨hfetches, hforwards⟩
    have hw : History.writes (t ++ [(w, .step i actor)]) j = t.writes j :=
      History.writes_step_ne hij
    exact ⟨hfetches.frame hw, hforwards.frame hw⟩
  · rintro t w a w' i x y h hout hx hy hr ⟨hfetches, hforwards⟩
    have hw : History.writes (t ++ [(w, a)]) i = t.writes i := History.writes_outside hout.noStep
    -- clients stay of their kind
    have hlasting : Link.Lasting Link.commitsFirst := fun _ _ _ => rfl
    have hlink := (link_happen hlasting h hout.noStep hx hy).1
    exact ⟨(hfetches.frame hw).relinked hr, (hforwards.frame hw).relinked hr hlink⟩

/-- What a miss has delivered when its origin has returned. -/
theorem Fetches.play (h : Fetches front t i x) {f : Fetch} (hf : x.fetch = some f)
    (hreturned : f.ending = some .returned) {pattern : Nat → Option IoError}
    (hpattern : Follows pattern (t.writes i)) :
    (Fetch.supervise x.request.isHead (front.respond i x.request)).play pattern
      ⟨front.mark .miss {}, none, []⟩ = some ((), .of f.tee.client (t.writes i)) := by
  obtain ⟨hresumes, hdone⟩ := h f hf
  have hremaining : f.remaining = .done () := by
    rw [Fetch.remaining, hdone hreturned]
    cases f.tee.halfway <;> rfl
  rw [← hresumes pattern hpattern, hremaining]
  rfl

/-- What has been delivered past the cache in the end, if the script has an end. -/
theorem Forwards.play (h : Forwards front t i x) (hskip : x.cache = .skip)
    (hover : x.isOver = true) (hfirst : x.own.link.commitsFirst = true)
    {pattern : Nat → Option IoError} (hpattern : Follows pattern (t.writes i)) {outcome : Handled}
    {d : Delivery}
    (hplay : (Front.forward x.request.isHead (front.respond i x.request)).play pattern
      ⟨front.mark .skip {}, none, []⟩ = some (outcome, d)) :
    d = .of x.own (t.writes i) := by
  obtain ⟨s, hs, hresumes⟩ := h hskip
  rw [← hresumes hfirst pattern hpattern] at hplay
  cases hstage : x.stage with
  | finished o =>
    obtain rfl : .done o = s := by
      rw [hstage] at hs
      exact Option.some.inj hs
    rw [Script.play, Option.some.injEq, Prod.mk.injEq] at hplay
    exact hplay.2.symm
  | died =>
    obtain rfl : .die "" = s := by
      rw [hstage] at hs
      exact Option.some.inj hs
    simp [Script.play] at hplay
  | _ => simp [Exchange.isOver, Exchange.outcome?, Exchange.isDead, hstage] at hover

/-- Past the cache, the front dies only with an origin that may die. -/
theorem Forwards.isDead_eq_false (h : Forwards front t i x) (hskip : x.cache = .skip)
    (hfirst : x.own.link.commitsFirst = true) (hreturns : (front.respond i x.request).Returns) :
    x.isDead = false := by
  obtain ⟨s, hs, hresumes⟩ := h hskip
  cases hstage : x.stage with
  | died =>
    -- nothing is left to deliver of an origin that has died
    obtain rfl : .die "" = s := by
      rw [hstage] at hs
      exact Option.some.inj hs
    have hplay := hresumes hfirst _ (.self _)
    obtain ⟨r, hr⟩ := Option.isSome_iff_exists.1
      (hreturns.play_isSome (fun n => ((t.writes i)[n]?).bind (·.2))
        ⟨front.mark .skip {}, none, []⟩)
    have hforward := Script.play_forward x.request.isHead (front.respond i x.request)
      (fun n => ((t.writes i)[n]?).bind (·.2)) ⟨front.mark .skip {}, none, []⟩
    rw [Script.play_supervise, hr, ← hplay] at hforward
    simp [Script.play] at hforward
  | _ => rw [Exchange.isDead, hstage]

end Run

/-- **The cache is transparent to the client that causes a miss.**  In one run an exchange has asked
its origin, which has returned; in another, perhaps of another front, the same request has passed
the cache, with a client that fixes its head before it takes or refuses the first chunk.  If the
script that answers is the same and does not look at the indicator, and if the writes to the two
clients fail alike, then both clients have the same status, the same headers but for the indicator,
and have received the same chunks, no matter what policy, store, faults and other exchanges have
done. -/
theorem same_delivery {A B : Front} {t u : History} {w₀ w v₀ v : World} {i j : Nat}
    {x y : Exchange} {f : Fetch} {pattern : Nat → Option IoError}
    (hw₀ : w₀.Blank) (hrun : Run (World.happen A) w₀ t w) (htidy : ∀ p ∈ t, Tidy p.2)
    (hv₀ : v₀.Blank) (hrun' : Run (World.happen B) v₀ u v) (htidy' : ∀ p ∈ u, Tidy p.2)
    (hx : w.exchanges[i]? = some x) (hf : x.fetch = some f) (hreturned : f.ending = some .returned)
    (hy : v.exchanges[j]? = some y) (hskip : y.cache = .skip) (hover : y.isOver = true)
    (hfirst : y.client.link.commitsFirst = true) (hindicator : A.indicator = B.indicator)
    (hrequest : x.request = y.request)
    (hrespond : A.respond i x.request = B.respond j y.request)
    (hblind : (A.respond i x.request).Blind A)
    (hmiss : Follows pattern (t.writes i)) (hpast : Follows pattern (u.writes j)) :
    ∃ shown shown', x.client.head = some shown ∧ y.client.head = some shown' ∧
      shown.status = shown'.status ∧ A.unmark shown.headers = A.unmark shown'.headers ∧
      t.writes i = u.writes j ∧ t.received i = u.received j := by
  obtain ⟨hfetches, -⟩ := delivers_of_run hw₀ hrun htidy i x hx
  obtain ⟨-, hforwards⟩ := delivers_of_run hv₀ hrun' htidy' j y hy
  have hclient : x.client = f.tee.client := by rw [Exchange.client, hf]
  have hclient' : y.client = y.own := by
    have hc := (Orderly.of_run hrun' hv₀ htidy').course j y hy
    rw [Exchange.client, hforwards.fetch_eq_none hc hskip]
  rw [hclient'] at hfirst
  -- the script that is delivered on the miss
  have hplay := hfetches.play hf hreturned hmiss
  -- delivers the same past the cache
  have hstart : Delivery.shown A ⟨A.mark .miss {}, none, []⟩ =
      Delivery.shown A ⟨B.mark .skip {}, none, []⟩ := by
    rw [← Front.mark_eq hindicator]
    simp only [Delivery.shown, Front.unmark_mark]
  obtain ⟨outcome, d, hforward, hsame⟩ := hblind.play_forward hstart hplay
  rw [hrespond, hrequest] at hforward
  obtain rfl := hforwards.play hskip hover hfirst hpast hforward
  have hwrites : t.writes i = u.writes j := congrArg Delivery.writes hsame
  have hkept : f.tee.client.head.map A.kept = y.own.head.map A.kept := congrArg Delivery.head hsame
  obtain ⟨shown, hshown⟩ := Option.isSome_iff_exists.1 (Script.isSome_play_supervise hplay)
  have hhead : f.tee.client.head = some shown := hshown
  rw [hhead, Option.map_some] at hkept
  obtain ⟨shown', hhead', hkept'⟩ := Option.map_eq_some_iff.1 hkept.symm
  refine ⟨shown, shown', by rw [hclient, hhead], by rw [hclient', hhead'],
    (congrArg Head.status hkept').symm, (congrArg Head.headers hkept').symm, hwrites, ?_⟩
  rw [History.received, History.received, hwrites]

/-- A front whose origin goes on after a refused chunk and fails in the end, with a policy that
cannot tell what to do with the response. -/
def stubborn : Front :=
  { indicator := some (.lit "x-cache" (by decide)), eligible := fun _ => true
    policy := fun _ _ _ => .error "unknown"
    respond := fun _ _ => .write [1] fun _ => .write [2] fun _ => .done (.error (.io .clientGone)) }

/-- The same, with every request past the cache. -/
def stubbornPast : Front := { stubborn with eligible := fun _ => false }

/-- A request whose client refuses the first chunk, and turns of its front and its origin. -/
def refusing (turns : List (Actor × Nat)) : List Happening :=
  .arrive { method := .get, uri := .asterisk }
      { link := .tape { refuses := (· == 0), commitsFirst := true } } none ::
    turns.flatMap fun p => List.replicate p.2 (.step 0 p.1)

theorem tidy_refusing (turns : List (Actor × Nat)) : ∀ a ∈ refusing turns, Tidy a := by
  rintro a ha request client access rfl
  simp only [refusing, List.mem_cons, Happening.arrive.injEq, List.mem_flatMap,
    List.mem_replicate, reduceCtorEq, and_false, exists_false, or_false] at ha
  rw [ha.2.1]
  exact ⟨rfl, rfl⟩

/-- Either way the client has received the second chunk. -/
theorem same_delivery_refusing :
    ∃ (t u : History) (w v : World), Run (World.happen stubborn) {} t w ∧
      Run (World.happen stubbornPast) {} u v ∧ t.received 0 = u.received 0 ∧
      t.received 0 = [[2]] := by
  let miss := refusing [(.front, 10), (.origin, 2), (.front, 8), (.origin, 5)]
  let past := refusing [(.front, 7)]
  let r := (follow (World.happen stubborn) {} miss).get rfl
  let r' := (follow (World.happen stubbornPast) {} past).get rfl
  have hfollow : follow (World.happen stubborn) {} miss = some r := (Option.some_get _).symm
  have hfollow' : follow (World.happen stubbornPast) {} past = some r' := (Option.some_get _).symm
  have htidy : ∀ p ∈ r.1, Tidy p.2 := fun p hp =>
    tidy_refusing _ _ (map_snd_of_follow hfollow ▸ List.mem_map_of_mem hp)
  have htidy' : ∀ p ∈ r'.1, Tidy p.2 := fun p hp =>
    tidy_refusing _ _ (map_snd_of_follow hfollow' ▸ List.mem_map_of_mem hp)
  let pattern : Nat → Option IoError := fun n => ((History.writes r.1 0)[n]?).bind (·.2)
  have hpast : Follows pattern (History.writes r'.1 0) := by
    have hwrites : History.writes r'.1 0 = History.writes r.1 0 := rfl
    rw [hwrites]
    exact .self _
  have hblind : (stubborn.respond 0 { method := .get, uri := .asterisk }).Blind stubborn :=
    .write _ fun _ => .write _ fun _ => .done _
  obtain ⟨shown, shown', -, -, -, -, -, hreceived⟩ :=
    same_delivery ⟨rfl, rfl, rfl⟩ (run_of_follow hfollow) htidy ⟨rfl, rfl, rfl⟩
      (run_of_follow hfollow') htidy' (i := 0) (j := 0) rfl rfl rfl rfl rfl rfl rfl rfl rfl rfl
      hblind (.self _) hpast
  exact ⟨r.1, r'.1, r.2, r'.2, run_of_follow hfollow, run_of_follow hfollow', hreceived, rfl⟩

end World
end EdgeCache
