import EdgeCache.Proofs.Exchange.Steps

/-!
# Where a hit comes from

A hit replays a response that some other exchange of the run has fetched for the same key, and that
the policy has judged cacheable.  `hit_of_miss` puts the invariants together: the entry of the hit
was stored in a step of the run (`Kept`), the exchange that did so still has the head and the pump
it had then (`Feeds`), the body is closed when its reader ends, and by then the pump has put into it
all that the origin has passed to its writer.
-/

set_option autoImplicit false

namespace EdgeCache
namespace World

/-- The exchange has answered its request with this head, and its pump has this body. -/
structure Feeds (request : Request) (head : Head) (id : Nat) (y : Exchange) : Prop where
  request : y.request = request
  fetch : ∃ f, y.fetch = some f ∧ f.tee.announced = some head
  copies : ∃ doing, Copies y id doing

section Turn

variable {front : Front} {t : History} {w w' b : World} {i : Nat} {x x' : Exchange} {actor : Actor}
  {request : Request} {head : Head} {id : Nat}

/-- What an origin has announced stays so; and when it has ended, it announces nothing more. -/
theorem Orderly.announced_turn (ho : Orderly front t w) (hx : w.exchanges[i]? = some x)
    (ht : Turn front w i x actor x' b) {f : Fetch} (hf : x.fetch = some f) :
    ∃ f', x'.fetch = some f' ∧
      (∀ head, f.tee.announced = some head → f'.tee.announced = some head) ∧
      (f.ending.isSome = true → f'.tee.announced = f.tee.announced ∧ f'.ending.isSome = true) := by
  cases ht with
  | ask h hh => simp [((ho.course i x hx).fresh_of_handed h hh).fetch] at hf
  | decideFail _ hf₀ | openFail _ hf₀ | loseHead _ hf₀ =>
    obtain rfl := Option.some.inj (hf.symm.trans hf₀)
    exact ⟨_, rfl, fun _ => id, fun hend => ⟨rfl, hend⟩⟩
  | @origin f₀ f' gates event hf₀ hs =>
    obtain rfl := Option.some.inj (hf.symm.trans hf₀)
    refine ⟨f', rfl, fun _ => (ho.watched i x f hx hf).announced_origin (Fetch.step_cases hs).2, ?_⟩
    intro hend
    simp [(Fetch.step_cases hs).1] at hend
  | drain _ hf₀ hr | pump _ hf₀ hr =>
    obtain rfl := Option.some.inj (hf.symm.trans hf₀)
    obtain ⟨rest, -, -, rfl⟩ := Fetch.receive_chunk hr
    exact ⟨_, rfl, fun _ => id, fun hend => ⟨rfl, hend⟩⟩
  | _ => exact ⟨f, hf, fun _ => id, fun hend => ⟨rfl, hend⟩⟩

theorem Feeds.turn (h : Feeds request head id x) (ho : Orderly front t w)
    (hx : w.exchanges[i]? = some x) (ht : Turn front w i x actor x' b) :
    Feeds request head id x' := by
  obtain ⟨f, hf, hann⟩ := h.fetch
  obtain ⟨f', hf', hannounced, -⟩ := ho.announced_turn hx ht hf
  obtain ⟨doing, hcopies⟩ := h.copies
  exact ⟨ht.request.trans h.request, ⟨f', hf', hannounced head hann⟩,
    ht.copies_stay (ho.course i x hx) hcopies⟩

theorem Feeds.relinked (h : Feeds request head id x) (hr : Relinked x x') :
    Feeds request head id x' := by
  obtain ⟨hreq, ⟨f, hf, hann⟩, ⟨doing, sink, failed, writes, stored, hcop⟩⟩ := h
  obtain ⟨link, hf'⟩ := hr.fetch_eq_some hf
  exact ⟨hr.request.trans hreq, ⟨_, hf', hann⟩, doing, sink, failed, writes, stored,
    hr.copier.trans hcop⟩

theorem Feeds.happen {a : Happening} {j : Nat} {y : Exchange} (h : Feeds request head id y)
    (ho : Orderly front t w) (hy : w.exchanges[j]? = some y) (ha : w.happen front a = some w') :
    ∃ y', w'.exchanges[j]? = some y' ∧ Feeds request head id y' := by
  rcases happen_cases ha with ⟨i, actor, x, x', b, rfl, hx, ht, rfl⟩ | hout
  · by_cases hij : j = i
    · subst hij
      obtain rfl : x = y := Option.some.inj (hx.symm.trans hy)
      exact ⟨x', ht.exchange_self hx, h.turn ho hx ht⟩
    · exact ⟨y, (ht.exchange_ne hij).trans hy, h⟩
  · obtain ⟨y', hy', hr⟩ := hout.still j y hy
    exact ⟨y', hy', h.relinked hr⟩

end Turn

/-- What a happening of a run makes true, and every other one keeps, is true when the run ends. -/
theorem persists {front : Front} {t : History} {w₀ w w₁ : World} {a₁ : Happening}
    {P : World → Prop} (h₀ : w₀.Blank) (hrun : Run (World.happen front) w₀ t w)
    (htidy : ∀ p ∈ t, Tidy p.2) (hmem : (w₁, a₁) ∈ t)
    (hstart : ∀ t₁ w₂, Orderly front t₁ w₁ → w₁.happen front a₁ = some w₂ → P w₂)
    (hkeep : ∀ {t w a w'}, Orderly front t w → P w → w.happen front a = some w' → P w') : P w := by
  have hbefore : ∀ {t : History} {p}, (∀ q ∈ t ++ [p], Tidy q.2) → ∀ q ∈ t, Tidy q.2 :=
    fun h q hq => h q (List.mem_append_left _ hq)
  refine hrun.since hmem (P := fun t w => (∀ p ∈ t, Tidy p.2) → P w) ?_ ?_ htidy
  · intro t₁ w₂ hrun₁ hstep htidy
    exact hstart t₁ w₂ (Orderly.of_run hrun₁ h₀ (hbefore htidy)) hstep
  · intro t w a w' hrun _ ih hmove htidy
    exact hkeep (Orderly.of_run hrun h₀ (hbefore htidy)) (ih (hbefore htidy)) hmove

/-- The exchange that has stored an entry for replay feeds its body from then on. -/
theorem Keeps.feeds {front : Front} {t : History} {w₀ w w₁ : World} {j : Nat} {y : Exchange}
    {head : Head} {verdict : Cacheability} {e : Entry} (h₀ : w₀.Blank)
    (hrun : Run (World.happen front) w₀ t w) (htidy : ∀ p ∈ t, Tidy p.2)
    (hk : Keeps front w₁ j y head verdict e) (hv : verdict.cacheable = true)
    (hmem : (w₁, .step j .front) ∈ t) :
    ∃ y', w.exchanges[j]? = some y' ∧ Feeds y.request head w₁.bodies.length y' := by
  refine persists
    (P := fun w => ∃ y', w.exchanges[j]? = some y' ∧ Feeds y.request head w₁.bodies.length y')
    h₀ hrun htidy hmem ?_ ?_
  · intro t₁ w₂ ho hstep
    rcases happen_cases hstep with ⟨i, actor, x, x', b, hij, hx, ht, rfl⟩ | hout
    · rw [Happening.step.injEq] at hij
      obtain ⟨rfl, rfl⟩ := hij
      obtain rfl : x = y := Option.some.inj (hx.symm.trans hk.exchange)
      obtain ⟨visit, draft, f, hstage, hf, hann⟩ := hk.fetching
      obtain ⟨hcop, hf', -⟩ := hk.turn hv ht
      exact ⟨x', ht.exchange_self hx, ht.request, ⟨f, hf'.trans hf, hann⟩, _, _, _, _, _, hcop⟩
    · exact absurd rfl (hout.noStep j .front)
  · rintro t w a w' ho ⟨y', hy', hfeeds⟩ hmove
    exact hfeeds.happen ho hy' hmove

/-- What has been received of a body that is closed is what its origin has passed to its writer. -/
theorem Orderly.chunks_of_closed {front : Front} {t : History} {w : World} {j id : Nat}
    {y : Exchange}
    {request : Request} {head : Head} {g : Growing} (ho : Orderly front t w)
    (hy : w.exchanges[j]? = some y) (hf : Feeds request head id y) (hg : w.bodies[id]? = some g)
    (hclosed : g.closed = true) (hfaults : ∀ sink n, front.faults.writing sink n = none) :
    g.chunks = t.passed j := by
  obtain ⟨doing, sink, failed, writes, stored, hcop⟩ := hf.copies
  obtain ⟨f, g', -, hg', hp⟩ := ho.pumps j y sink id failed writes stored doing hy hcop
  obtain rfl : g = g' := Option.some.inj (hg.symm.trans hg')
  have hstopped := hp.closed.1 hclosed
  have hfailed : failed = false := by
    cases failed with
    | false => rfl
    | true =>
      obtain ⟨n, text, hfault⟩ := hp.faulty rfl
      simp [hfaults] at hfault
  rw [← hp.chunks hfailed, hstopped, (hp.exhausted (.inr hstopped)).2]
  simp [Copying.inHand]

theorem values_unmark (front : Front) (h : Headers) {name : HeaderName}
    (hne : front.indicator ≠ some name) : (front.unmark h).values name = h.values name := by
  rw [Front.unmark]
  cases hi : front.indicator with
  | none => rfl
  | some n =>
    have hn : n ≠ name := fun hn => hne (by rw [hi, hn])
    simp [hn]

theorem values_mark (front : Front) (status : CacheStatus) (h : Headers) {name : HeaderName}
    (hne : front.indicator ≠ some name) : (front.mark status h).values name = h.values name := by
  rw [Front.mark]
  cases hi : front.indicator with
  | none => rfl
  | some n =>
    have hn : n ≠ name := fun hn => hne (by rw [hi, hn])
    simp [hn]

/-- What the client of a hit is shown is, but for the indicator, the head that the response had. -/
theorem Replays.shown {front : Front} {t : History} {i : Nat} {x : Exchange} {e : Entry}
    {head : Head}
    (hr : Replays front t i x e) (he : e.head = front.kept head) :
    ∃ shown, x.client.head = some shown ∧ shown.status = head.status ∧
      ∀ name, front.indicator ≠ some name →
        shown.headers.values name = head.headers.values name := by
  refine ⟨_, by rw [Exchange.client, hr.fetch]; exact hr.head, by rw [he]; rfl, ?_⟩
  intro name hne
  rw [Headers.values_appendAll, values_mark front _ _ hne, he]
  exact values_unmark front _ hne

/-- What a client has received that took every chunk of a body is what the body's origin has passed
to its writer. -/
theorem Orderly.received_of_replayed {front : Front} {t : History} {w : World} {i j id : Nat}
    {y : Exchange} {request : Request} {head : Head} {e : Entry} (ho : Orderly front t w)
    (hy : w.exchanges[j]? = some y) (hf : Feeds request head id y) (hd : Replayed t w i e)
    (hbody : e.body = some (.growing id)) (hfaults : ∀ sink n, front.faults.writing sink n = none)
    (htaken : ∀ p ∈ t.writes i, p.2 = none) : t.received i = t.passed j := by
  obtain ⟨id', g, hbody', hg, hdone⟩ := hd
  obtain rfl : id = id' := by
    rw [hbody, Option.some.injEq, StoredBody.growing.injEq] at hbody'
    exact hbody'
  rcases hdone with ⟨p, hp, hfail⟩ | ⟨hclosed, hall⟩
  · exact absurd (htaken p hp) hfail
  · rw [History.received_eq htaken, hall]
    exact ho.chunks_of_closed hy hf hg hclosed hfaults

/-- **Every hit comes from a miss of the same run.**  If an exchange ends as a hit, then another one
has asked the origin for the same key, and the policy has judged the response cacheable;

* the client of the hit has the status and, but for the indicator, the headers that were committed
  on the writer of that response;
* the entry that was stored of it answers the request of the hit;
* and if the sinks of the store take every chunk, and so does the client, then it has received
  exactly the chunks that were passed to that writer. -/
theorem hit_of_miss {front : Front} {t : History} {w₀ w : World} {i : Nat} {x : Exchange}
    {outcome : Handled} (h₀ : w₀.Blank) (hrun : Run (World.happen front) w₀ t w)
    (htidy : ∀ p ∈ t, Tidy p.2) (hx : w.exchanges[i]? = some x)
    (hfinished : x.stage = .finished outcome) (hhit : outcome.cache = .hit) :
    ∃ (w₁ : World) (j : Nat) (y y' : Exchange) (head : Head) (verdict : Cacheability) (e : Entry),
      (w₁, .step j .front) ∈ t ∧ Keeps front w₁ j y head verdict e ∧ verdict.cacheable = true ∧
      j ≠ i ∧ y.key = x.key ∧ (∃ p ∈ t, Asks front j p) ∧
      w.exchanges[j]? = some y' ∧ y'.request = y.request ∧ y'.client.head = some head ∧
      (∃ shown, x.client.head = some shown ∧ shown.status = head.status ∧
        ∀ name, front.indicator ≠ some name →
          shown.headers.values name = head.headers.values name) ∧
      e.answers x.request.headers = true ∧
      ((∀ sink n, front.faults.writing sink n = none) → (∀ p ∈ t.writes i, p.2 = none) →
        t.received i = t.passed j) := by
  have ho : Orderly front t w := Orderly.of_run hrun h₀ htidy
  obtain ⟨hsettled, hcache, -⟩ := (ho.course i x hx).finished hfinished
  rw [hhit] at hcache
  -- the exchange has replayed an entry
  obtain ⟨e, hr, hd⟩ : ∃ e, Replays front t i x e ∧ Replayed t w i e := by
    rcases hsettled with h | ⟨hmiss, -⟩ | ⟨hskip, -⟩
    · exact h
    · simp [← hcache] at hmiss
    · simp [← hcache] at hskip
  -- which another exchange has stored
  obtain ⟨w₁, j, y, head, verdict, hmem, hkey, hk⟩ := hr.kept
  have hv : verdict.cacheable = true := hk.isPublic.symm.trans hr.isPublic
  obtain ⟨y', hy', hfeeds⟩ := hk.feeds h₀ hrun htidy hv hmem
  obtain ⟨f, hf, hann⟩ := hfeeds.fetch
  have hwatched := ho.watched j y' f hy' hf
  refine ⟨w₁, j, y, y', head, verdict, e, hmem, hk, hv, ?_, hkey, hwatched.asked, hy',
    hfeeds.request, ?_, hr.shown hk.head, hr.answers,
    ho.received_of_replayed hy' hfeeds hd (hk.opened hv).2.2⟩
  · rintro rfl
    obtain rfl : x = y' := Option.some.inj (hx.symm.trans hy')
    simp [hr.fetch] at hf
  · rw [Exchange.client, hf]
    exact hwatched.announced.symm.trans hann

/-- A front whose origin commits a head and writes one chunk, which may be kept for ten seconds. -/
def oneChunk : Front :=
  { eligible := fun _ => true
    policy := fun _ _ _ => .ok ⟨true, ⟨10, 0⟩⟩
    respond := fun _ _ => .commit .ok (.write [1] fun _ => .done (.ok .ok)) }

/-- Two requests for one resource; the second is answered out of the body that is still written for
the first. -/
def twoRequests : List Happening :=
  let arrive := Happening.arrive { method := .get, uri := .asterisk } { link := .tape {} } none
  let steps (i : Nat) (actor : Actor) (n : Nat) := List.replicate n (Happening.step i actor)
  [arrive, arrive] ++ steps 0 .front 10 ++ steps 1 .front 5 ++ steps 0 .origin 1 ++
    steps 0 .front 5 ++ steps 1 .front 4 ++ steps 0 .origin 2 ++ steps 0 .copier 2 ++
    steps 1 .front 4 ++ steps 0 .origin 2 ++ steps 0 .front 1 ++ steps 0 .copier 2 ++
    steps 0 .front 2 ++ steps 1 .front 9

/-- The second request has then received the chunk that was passed on for the first. -/
theorem hit_of_miss_twoRequests :
    ∃ (t : History) (w : World) (j : Nat), Run (World.happen oneChunk) {} t w ∧ j ≠ 1 ∧
      t.received 1 = t.passed j ∧ t.received 1 = [[1]] := by
  let r := (follow (World.happen oneChunk) {} twoRequests).get rfl
  have hfollow : follow (World.happen oneChunk) {} twoRequests = some r := (Option.some_get _).symm
  have htidy : ∀ p ∈ r.1, Tidy p.2 := by
    intro p hp
    have hmem : p.2 ∈ twoRequests := map_snd_of_follow hfollow ▸ List.mem_map_of_mem hp
    rintro request client access ha
    simp [ha, twoRequests] at hmem
    exact ⟨by rw [hmem.2.1], by rw [hmem.2.1]⟩
  have htaken : ∀ p ∈ History.writes r.1 1, p.2 = none := by
    have hwrites : History.writes r.1 1 = [([1], none)] := rfl
    rw [hwrites]
    simp
  obtain ⟨w₁, j, y, y', head, verdict, e, -, -, -, hj, -, -, -, -, -, -, -, hchunks⟩ :=
    hit_of_miss ⟨rfl, rfl, rfl⟩ (run_of_follow hfollow) htidy (i := 1) rfl rfl rfl
  exact ⟨r.1, r.2, j, run_of_follow hfollow, hj, hchunks (fun _ _ => rfl) htaken, rfl⟩

end World
end EdgeCache
