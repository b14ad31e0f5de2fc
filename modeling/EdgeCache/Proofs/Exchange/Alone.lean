import EdgeCache.Proofs.Exchange.Decisions
import EdgeCache.Proofs.Exchange.Provenance

/-!
# One request at a time

A request comes to a world at rest, and no other comes until its exchange is over.  The exchange
goes through up to three times (`Alone`):

* `Looking`: it has not asked the origin, and its visit finds the first entry that suits the
  request;
* `Awaiting`: that one may not be replayed, so the origin has been asked for a head;
* `Answered`: the head has been judged, and what is stored since then is known.

When it is over, it has replayed the entry, or is a miss (`Alone.settled`).
-/

set_option autoImplicit false

namespace EdgeCache
namespace World

/-! ## What a request can be answered with -/

/-- The entry is stored under the key of the request, has not expired and answers it. -/
structure Suits (w : World) (request : Request) (h : Held) : Prop where
  mem : h ∈ w.store.variantsOf request.cacheKey
  fresh : h.entry.expired w.clock = false
  answers : h.entry.answers request.headers = true

/-- The first such entry. -/
def firstSuited (w : World) (request : Request) : Option Held :=
  Store.firstFit (fun e => !e.expired w.clock) (fun e => e.answers request.headers)
    (w.store.variantsOf request.cacheKey)

theorem firstSuited_eq_some {w : World} {request : Request} {h : Held}
    (hfirst : w.firstSuited request = some h) : w.Suits request h := by
  have hok := List.find?_some hfirst
  simp only [Bool.and_eq_true, Bool.not_eq_true'] at hok
  exact ⟨List.mem_of_find?_eq_some hfirst, hok.1, hok.2⟩

/-- The exchange has ended as a hit. -/
def Hits (w : World) (i : Nat) : Prop :=
  ∃ x outcome, w.exchanges[i]? = some x ∧ x.stage = .finished outcome ∧ outcome.cache = .hit

/-- The request that came to the world `start` has ended as a hit, and nobody has asked the origin
since. -/
def FromStore (start w : World) : Prop := Hits w start.exchanges.length ∧ w.calls = start.calls

/-- Nothing arrives, and the clock stands still. -/
def Quiet (a : Happening) : Prop :=
  (∀ request client access, a ≠ .arrive request client access) ∧ ∀ now, a ≠ .tick now

/-- The request comes to the world `start`, with a client that is untouched, and all is quiet in the
run after that. -/
def Solo (front : Front) (start : World) (request : Request) (t : History) (w : World) : Prop :=
  ∃ (client : Client) (access : Option Log.Access) (t' : History),
    t = (start, .arrive request client access) :: t' ∧ client.head = none ∧ client.headers = {} ∧
    Run (World.happen front) (start.arrive request client access) t' w ∧ ∀ p ∈ t', Quiet p.2

/-! ## The three times of a lone exchange -/

section Alone

variable (front : Front) (request : Request) (start : World)

/-- No exchange but that of the request is at work, and the clock still shows the same time. -/
structure Frame (w : World) : Prop where
  clock : w.clock = start.clock
  others : ∀ (i : Nat) (x : Exchange), i ≠ start.exchanges.length → w.exchanges[i]? = some x →
    x.isOver = true
  numbered : w.store.Numbered

/-- These are the entries among which the request's visit looks. -/
def Sees (l : List Held) (w : World) : Prop :=
  Finding request.cacheKey request.headers (fun e => !e.expired start.clock) (· = start.clock) l w

/-- The first entry that suits the request may not be replayed, or there is none. -/
def Misses : Prop := ∀ h, start.firstSuited request = some h → h.entry.isPublic = false

/-- The exchange has stored nothing. -/
def Unkept (i : Nat) (t : History) : Prop :=
  ∀ p ∈ t, p.2 = .step i .front → ∀ y head verdict e, ¬ Keeps front p.1 i y head verdict e

/-- The exchange has not asked the origin. -/
structure Looking (t : History) (w : World) (x : Exchange) : Prop where
  sees : Sees request start (start.store.variantsOf request.cacheKey) w
  picked : Picked start.exchanges.length request.cacheKey (start.firstSuited request) t
  calls : w.calls = start.calls
  unasked : Unasked x
  dead : x.isDead = true → Misses request start
  unkept : Unkept front start.exchanges.length t

/-- The exchange has asked the origin and awaits the head. -/
structure Awaiting (t : History) (w : World) (x : Exchange) : Prop where
  sees : Sees request start (start.store.variantsOf request.cacheKey) w
  calls : w.calls = start.calls + 1
  misses : Misses request start
  stage : ∃ visit draft, x.stage = .fetching visit draft
  unkept : Unkept front start.exchanges.length t

/-- The entries `l` are what was there, with what the exchange has stored for replay in the run. -/
def Contains (t : History) (l : List Held) : Prop :=
  ∀ p ∈ t, p.2 = .step start.exchanges.length .front → ∀ y head verdict e,
    Keeps front p.1 start.exchanges.length y head verdict e → verdict.cacheable = true →
    l = Store.afterStore (fun e => !e.expired start.clock) (start.store.variantsOf request.cacheKey)
        (start.firstSuited request) ⟨p.1.store.nextId, e⟩ ∧
      ∀ g ∈ start.store.variantsOf request.cacheKey, g.entry.expired start.clock = false →
        g.id < p.1.store.nextId

/-- The head of the response has been judged, or it is known that there will be none; and if the
policy calls the response cacheable and sinks can be opened, then it has been stored. -/
def Judged (t : History) (x : Exchange) : Prop :=
  ∃ f, x.fetch = some f ∧
    (f.tee.announced = none ∧ f.ending.isSome = true ∨
      ∃ head, f.tee.announced = some head ∧ ∀ verdict,
        front.policy request head start.clock = .ok verdict → verdict.cacheable = true →
        (∀ sink, front.faults.opening sink = none) →
        ∃ w₁ y e, (w₁, .step start.exchanges.length .front) ∈ t ∧
          Keeps front w₁ start.exchanges.length y head verdict e)

/-- It is decided that the exchange is a miss. -/
structure Answered (t : History) (w : World) (x : Exchange) : Prop where
  sees : ∃ l, Sees request start l w ∧ Contains front request start t l
  calls : w.calls = start.calls + 1
  misses : Misses request start
  judged : Judged front request start t x
  cache : x.cache = .miss
  stage : ∀ visit draft, x.stage ≠ .fetching visit draft

/-- What is true of a lone exchange. -/
inductive Alone (t : History) (w : World) (x : Exchange) : Prop
  | looking (h : Looking front request start t w x)
  | awaiting (h : Awaiting front request start t w x)
  | answered (h : Answered front request start t w x)

end Alone

section Steps

variable {front : Front} {request : Request} {start w w' b : World} {t : History} {i : Nat}
  {x x' : Exchange} {actor : Actor} {a : Happening} {l : List Held}

/-! ### The frame -/

theorem numbered_happen (hn : w.store.Numbered) (h : w.happen front a = some w') :
    w'.store.Numbered := by
  rcases store_happen h with hs | ⟨m, hm⟩
  · rwa [hs]
  · exact hn.move hm

theorem Rested.numbered {t₀ : History} (h : Rested front t₀ start) : start.store.Numbered := by
  obtain ⟨w₀, h₀, hrun⟩ := h.run
  refine hrun.invariant (P := fun w => w.store.Numbered) (fun hn h => numbered_happen hn h) ?_
  rw [h₀.store]
  exact Store.numbered_empty

theorem Frame.eq_of_turn (hf : Frame start w) (hx : w.exchanges[i]? = some x)
    (ht : Turn front w i x actor x' b) : i = start.exchanges.length := by
  by_cases hi : i = start.exchanges.length
  · exact hi
  · have hover := hf.others i x hi hx
    simp [ht.isOver_eq_false] at hover

theorem Frame.happen (hf : Frame start w) (h : w.happen front a = some w') (hq : Quiet a) :
    Frame start w' where
  clock := by
    rcases clock_cases h with heq | ⟨now, ha, -⟩
    · rw [heq, hf.clock]
    · exact absurd ha (hq.2 now)
  others i y hi hy := by
    rcases happen_cases h with ⟨j, actor, x, x', b, rfl, hx, ht, rfl⟩ | hout
    · rcases ht.exchange_cases hy with ⟨rfl, -⟩ | ⟨-, hy⟩
      · exact absurd (hf.eq_of_turn hx ht) hi
      · exact hf.others i y hi hy
    · rcases hout.exchange i y hy with ⟨x, hx, hr⟩ | ⟨request, client, access, ha, -⟩
      · rw [hr.isOver]
        exact hf.others i x hi hx
      · exact absurd ha (hq.1 request client access)
  numbered := numbered_happen hf.numbered h

/-! ### The way of a lone exchange -/

theorem Unkept.snoc (hu : Unkept front i t)
    (h : a = .step i .front → ∀ y head verdict e, ¬ Keeps front w i y head verdict e) :
    Unkept front i (t ++ [(w, a)]) := by
  intro p hp ha
  rcases List.mem_append.1 hp with hp | hp
  · exact hu p hp ha
  · rw [List.mem_singleton.1 hp] at ha ⊢
    exact h ha

theorem Contains.snoc (hc : Contains front request start t l)
    (h : a = .step start.exchanges.length .front → ∀ y head verdict e,
      ¬ Keeps front w start.exchanges.length y head verdict e) :
    Contains front request start (t ++ [(w, a)]) l := by
  intro p hp ha y head verdict e hk
  rcases List.mem_append.1 hp with hp | hp
  · exact hc p hp ha y head verdict e hk
  · rw [List.mem_singleton.1 hp] at ha hk
    exact absurd hk (h ha y head verdict e)

/-- What the origin has announced stays, and once it has ended nothing else is announced. -/
theorem Judged.mono {t' : History} (h : Judged front request start t x) (ht : ∀ p ∈ t, p ∈ t')
    (hfetch : ∀ f, x.fetch = some f → ∃ f', x'.fetch = some f' ∧
      (∀ head, f.tee.announced = some head → f'.tee.announced = some head) ∧
      (f.ending.isSome = true → f'.tee.announced = f.tee.announced ∧ f'.ending.isSome = true)) :
    Judged front request start t' x' := by
  obtain ⟨f, hf, hjudged⟩ := h
  obtain ⟨f', hf', hannounced, hended⟩ := hfetch f hf
  refine ⟨f', hf', ?_⟩
  rcases hjudged with ⟨hnone, hend⟩ | ⟨head, hhead, hkeep⟩
  · exact .inl ⟨(hended hend).1.trans hnone, (hended hend).2⟩
  · refine .inr ⟨head, hannounced head hhead, fun verdict hpol hv hopen => ?_⟩
    obtain ⟨w₁, y, e, hmem, hk⟩ := hkeep verdict hpol hv hopen
    exact ⟨w₁, y, e, ht _ hmem, hk⟩

/-- What is fresh at the one time of the run is so at all its times. -/
theorem sees_of_found (h : w.store.Found request.cacheKey (fun e => !e.expired start.clock)
    (fun e => e.answers request.headers) (· = start.clock) l) : Sees request start l w := by
  refine ⟨h, ?_⟩
  rintro g - now rfl
  simp

/-- An exchange that has not asked goes on looking, or asks. -/
theorem Looking.turn (hl : Looking front request start t w x) (hf : Frame start w)
    (ho : Orderly front t w) (hx : w.exchanges[start.exchanges.length]? = some x)
    (hrequest : x.request = request) (heligible : front.eligible request = true)
    (ht : Turn front w start.exchanges.length x actor x' b) :
    Alone front request start (t ++ [(w, .step start.exchanges.length actor)])
      (b.put start.exchanges.length x') x' := by
  subst hrequest
  have hsees := hl.sees.turn ho rfl ht hf.clock hl.unasked.not_stores
  have hpicked := hl.picked.snoc (a := .step start.exchanges.length actor) ho hl.sees rfl
  have hunkept : Unkept front start.exchanges.length
      (t ++ [(w, .step start.exchanges.length actor)]) :=
    hl.unkept.snoc fun _ _ _ _ _ => hl.unasked.not_keeps hx
  rcases hl.unasked.turn ho hx heligible ht with ⟨hu', hdead, hcalls, -⟩ |
    ⟨visit, previous, hstage, hh, hprivate, -, hasks⟩
  · exact .looking ⟨hsees, hpicked, hcalls.trans hl.calls, hu', fun h => hl.dead (hdead ▸ h),
      hunkept⟩
  · have hmisses : Misses x.request start := by
      rw [ho.handed_of_found hx hstage hh hl.sees.found] at hprivate
      exact hprivate
    rcases hasks with ⟨hcalls, ⟨draft, hstage'⟩, -⟩ | ⟨hcalls, hu', -⟩
    · exact .awaiting ⟨hsees, hcalls.trans (by rw [hl.calls]), hmisses, ⟨visit, draft, hstage'⟩,
        hunkept⟩
    · exact .looking ⟨hsees, hpicked, hcalls.trans hl.calls, hu', fun _ => hmisses, hunkept⟩

/-- **When the head is there, it is decided what is stored.** -/
theorem Awaiting.judge (haw : Awaiting front request start t w x) (hf : Frame start w)
    (ho : Orderly front t w) (hx : w.exchanges[start.exchanges.length]? = some x)
    (hrequest : x.request = request) (ht : Turn front w start.exchanges.length x .front x' b) :
    Answered front request start (t ++ [(w, .step start.exchanges.length .front)])
      (b.put start.exchanges.length x') x' := by
  subst hrequest
  have hc := ho.course _ x hx
  obtain ⟨visit, draft, hstage⟩ := haw.stage
  obtain ⟨slot, previous, f₀, expiration, -, -, hcache, -⟩ := hc.fetching hstage
  obtain ⟨hstage', hcache', hcalls⟩ := ht.judged hstage
  obtain ⟨f, f', -, hf', hannounced, hending, hkeeps⟩ := ht.keeps hx hc hstage
  have hjudged : Judged front x.request start
      (t ++ [(w, .step start.exchanges.length .front)]) x' := by
    refine ⟨f', hf', ?_⟩
    rw [hannounced, hending]
    refine hkeeps.imp_right ?_
    rintro ⟨head, hhead, hkeep⟩
    refine ⟨head, hhead, fun verdict hpol hv hopen => ?_⟩
    obtain ⟨e, hk⟩ := hkeep verdict (hf.clock ▸ hpol) hv hopen
    exact ⟨w, x, e, List.mem_append_right _ (List.mem_singleton_self _), hk⟩
  suffices hsees : ∃ l, Sees x.request start l (b.put start.exchanges.length x') ∧
      Contains front x.request start (t ++ [(w, .step start.exchanges.length .front)]) l from
    ⟨hsees, hcalls.trans haw.calls, haw.misses, hjudged, hcache'.trans hcache, by simp [hstage']⟩
  by_cases hst : ∃ v e, Stores front w x v e
  · obtain ⟨v, e, hst⟩ := hst
    have hfound :=
      hst.found (fun e => !e.expired start.clock) ho hx ht rfl haw.sees.found haw.misses
    refine ⟨_, sees_of_found hfound, ?_⟩
    intro p hp ha y head verdict e' hk hv
    rcases List.mem_append.1 hp with hp | hp
    · exact absurd hk (haw.unkept p hp ha y head verdict e')
    · rw [List.mem_singleton.1 hp] at hk ⊢
      obtain ⟨head₀, verdict₀, hk₀⟩ := hst.keeps hx hc
      rw [hk.unique hk₀ hv]
      refine ⟨rfl, fun g hg hfresh => hf.numbered.lt g ?_⟩
      exact (Store.stored_iff.2 (haw.sees.found.mem_of_fresh hg (by simp [hfresh]))).knows
  · have hsees := haw.sees.turn ho rfl ht hf.clock fun v e h => hst ⟨v, e, h⟩
    refine ⟨_, hsees, ?_⟩
    intro p hp ha y head verdict e hk hv
    rcases List.mem_append.1 hp with hp | hp
    · exact absurd hk (haw.unkept p hp ha y head verdict e)
    · rw [List.mem_singleton.1 hp] at hk
      obtain rfl : x = y := Option.some.inj (hx.symm.trans hk.exchange)
      obtain ⟨v, hst'⟩ := hk.stores hc hv
      exact absurd ⟨v, e, hst'⟩ hst

/-- An exchange that awaits a head goes on waiting, or its turn ends the wait. -/
theorem Awaiting.turn (haw : Awaiting front request start t w x) (hf : Frame start w)
    (ho : Orderly front t w) (hx : w.exchanges[start.exchanges.length]? = some x)
    (hrequest : x.request = request)
    (ht : Turn front w start.exchanges.length x actor x' b) :
    Alone front request start (t ++ [(w, .step start.exchanges.length actor)])
      (b.put start.exchanges.length x') x' := by
  by_cases hactor : actor = .front
  · subst hactor
    exact .answered (haw.judge hf ho hx hrequest ht)
  · obtain ⟨visit, draft, hstage⟩ := haw.stage
    obtain ⟨hcalls, -⟩ := ht.counts_of_ne hactor
    refine .awaiting ⟨haw.sees.of_store (ht.store_of_ne hactor), hcalls.trans haw.calls, haw.misses,
      ⟨visit, draft, (ht.stage_of_ne hactor).trans hstage⟩, haw.unkept.snoc fun ha => ?_⟩
    exact absurd (Happening.step.inj ha).2 hactor

/-- A miss stays one, and stores nothing more. -/
theorem Answered.turn (han : Answered front request start t w x) (hf : Frame start w)
    (ho : Orderly front t w) (hx : w.exchanges[start.exchanges.length]? = some x)
    (hrequest : x.request = request)
    (ht : Turn front w start.exchanges.length x actor x' b) :
    Answered front request start (t ++ [(w, .step start.exchanges.length actor)])
      (b.put start.exchanges.length x') x' := by
  obtain ⟨l, hsees, hcontains⟩ := han.sees
  have hsome : x.fetch.isSome = true := by
    obtain ⟨f, hfetch, -⟩ := han.judged
    rw [hfetch]
    rfl
  obtain ⟨hcache, -, -, hcalls, -, hstage⟩ := ho.decided hx ht hsome han.stage
  refine ⟨⟨l, ?_, hcontains.snoc fun _ _ _ _ _ => not_keeps hx han.stage⟩, hcalls.trans han.calls,
    han.misses, ?_, hcache.trans han.cache, hstage⟩
  · exact hsees.turn ho (by rw [hrequest]) ht hf.clock (not_stores han.stage)
  · exact han.judged.mono (fun p hp => List.mem_append_left _ hp) fun _ => ho.announced_turn hx ht

/-- What comes from outside leaves a lone exchange where it is. -/
theorem Alone.outside (h : Alone front request start t w x) (ho : Orderly front t w)
    (hout : Outside w a w') (hr : Relinked x x') :
    Alone front request start (t ++ [(w, a)]) w' x' := by
  have hno : a = .step start.exchanges.length .front → ∀ y head verdict e,
      ¬ Keeps front w start.exchanges.length y head verdict e :=
    fun ha => absurd ha (hout.noStep _ _)
  cases h with
  | looking h =>
    exact .looking ⟨h.sees.of_store hout.store, h.picked.snoc ho h.sees rfl,
      hout.calls.trans h.calls, h.unasked.relinked hr, fun hdead => h.dead (hr.isDead ▸ hdead),
      h.unkept.snoc hno⟩
  | awaiting h =>
    obtain ⟨visit, draft, hstage⟩ := h.stage
    exact .awaiting ⟨h.sees.of_store hout.store, hout.calls.trans h.calls, h.misses,
      ⟨visit, draft, hr.stage.trans hstage⟩, h.unkept.snoc hno⟩
  | answered h =>
    obtain ⟨l, hsees, hcontains⟩ := h.sees
    refine .answered ⟨⟨l, hsees.of_store hout.store, hcontains.snoc hno⟩, hout.calls.trans h.calls,
      h.misses, h.judged.mono (fun p hp => List.mem_append_left _ hp) fun f hf => ?_,
      hr.cache.trans h.cache, hr.stage ▸ h.stage⟩
    obtain ⟨link, hf'⟩ := hr.fetch_eq_some hf
    exact ⟨_, hf', fun _ => id, fun hend => ⟨rfl, hend⟩⟩

/-- **Whatever happens to a lone exchange, it stays on its way.** -/
theorem Alone.happen (h : Alone front request start t w x) (hf : Frame start w)
    (ho : Orderly front t w) (hx : w.exchanges[start.exchanges.length]? = some x)
    (hrequest : x.request = request) (heligible : front.eligible request = true)
    (ha : w.happen front a = some w') :
    ∃ x', w'.exchanges[start.exchanges.length]? = some x' ∧ x'.request = request ∧
      Alone front request start (t ++ [(w, a)]) w' x' := by
  rcases happen_cases ha with ⟨i, actor, y, x', b, rfl, hy, ht, rfl⟩ | hout
  · obtain rfl := hf.eq_of_turn hy ht
    obtain rfl : x = y := Option.some.inj (hx.symm.trans hy)
    refine ⟨x', ht.exchange_self hx, ht.request.trans hrequest, ?_⟩
    cases h with
    | looking h => exact h.turn hf ho hx hrequest heligible ht
    | awaiting h => exact h.turn hf ho hx hrequest ht
    | answered h => exact .answered (h.turn hf ho hx hrequest ht)
  · obtain ⟨x', hx', hr⟩ := hout.still _ x hx
    exact ⟨x', hx', hr.request.trans hrequest, h.outside ho hout hr⟩

end Steps

/-! ## From the request to its end -/

section Run

variable {front : Front} {request : Request} {start w w₁ w₂ w' : World} {t t₀ t' : History}
  {x y : Exchange} {head : Head} {verdict : Cacheability} {e : Entry} {now : Instant}

theorem tidy_of_quiet {a : Happening} (h : Quiet a) : Tidy a :=
  fun request client access ha => absurd ha (h.1 request client access)

theorem Solo.run (h : Solo front start request t w) : Run (World.happen front) start t w := by
  obtain ⟨client, access, t', rfl, -, -, hrun, -⟩ := h
  have harrive : start.happen front (.arrive request client access) =
      some (start.arrive request client access) := rfl
  exact (Run.single harrive).trans hrun

theorem Solo.tidy (h : Solo front start request t w) : ∀ p ∈ t, Tidy p.2 := by
  obtain ⟨client, access, t', rfl, hhead, hheaders, -, hquiet⟩ := h
  intro p hp
  rcases List.mem_cons.1 hp with rfl | hp
  · rintro request' client' access' ha
    rw [Happening.arrive.injEq] at ha
    obtain ⟨-, rfl, -⟩ := ha
    exact ⟨hhead, hheaders⟩
  · exact tidy_of_quiet (hquiet p hp)

/-- A request that has just come looks for an entry. -/
theorem Rested.looking (h : Rested front t₀ start) (client : Client) (access : Option Log.Access) :
    Looking front request start (t₀ ++ [(start, .arrive request client access)])
      (start.arrive request client access) { request, own := client, access } := by
  have hsees : Sees request start (start.store.variantsOf request.cacheKey) start :=
    sees_of_found (Store.found_of_isOver rfl fun v u hu _ => h.visits hu)
  refine ⟨⟨hsees.found, hsees.lasting⟩, h.picked.snoc h.orderly hsees rfl, rfl, ⟨rfl, by simp⟩,
    by simp [Exchange.isDead], ?_⟩
  refine Unkept.snoc (fun p hp _ y head verdict e hk => ?_) (by simp)
  obtain ⟨w₀, -, hrun⟩ := h.run
  have hy := hk.exchange
  rw [List.getElem?_eq_none ((length_le_of_run hrun).2 p hp)] at hy
  exact absurd hy (by simp)

/-- **Every world of a solo run is in order, and its exchange on its way**; and no other exchange
passes anything on. -/
theorem Solo.alone (h : Solo front start request t w) (hstart : Rested front t₀ start)
    (heligible : front.eligible request = true) :
    Orderly front (t₀ ++ t) w ∧ Frame start w ∧
      (∀ i, i ≠ start.exchanges.length → t.passed i = []) ∧
      ∃ x, w.exchanges[start.exchanges.length]? = some x ∧ x.request = request ∧
        Alone front request start (t₀ ++ t) w x := by
  obtain ⟨client, access, t', rfl, hhead, hheaders, hrun, hquiet⟩ := h
  induction hrun with
  | start =>
    have harrive : start.happen front (.arrive request client access) =
        some (start.arrive request client access) := rfl
    refine ⟨hstart.orderly.happen harrive ?_, ⟨rfl, fun i y hi hy => ?_, hstart.numbered⟩,
      fun i _ => rfl, _, ?_, rfl, .looking (hstart.looking client access)⟩
    · rintro request' client' access' ha
      rw [Happening.arrive.injEq] at ha
      obtain ⟨-, rfl, -⟩ := ha
      exact ⟨hhead, hheaders⟩
    · rw [arrive, List.getElem?_append] at hy
      split at hy
      · exact hstart.isOver i y hy
      · next hlt =>
        rw [List.getElem?_eq_none (by simp; omega)] at hy
        exact absurd hy (by simp)
    · simp [arrive]
  | @next t' s₁ s₂ a hrun ha ih =>
    obtain ⟨ho, hf, hpassed, x, hx, hrequest, halone⟩ :=
      ih fun p hp => hquiet p (List.mem_append_left _ hp)
    have hq : Quiet a := hquiet _ (List.mem_append_right _ (List.mem_singleton_self (s₁, a)))
    obtain ⟨x', hx', hrequest', halone'⟩ := halone.happen hf ho hx hrequest heligible ha
    rw [← List.cons_append, ← List.append_assoc]
    refine ⟨ho.happen ha (tidy_of_quiet hq), hf.happen ha hq, fun i hi => ?_, x', hx', hrequest',
      halone'⟩
    rcases happen_cases ha with ⟨j, actor, y, y', b, rfl, hy, ht, -⟩ | hout
    · obtain rfl := hf.eq_of_turn hy ht
      rw [History.passed_step_ne hi, hpassed i hi]
    · rw [History.passed_outside hout.noStep, hpassed i hi]

/-- What has become of a lone exchange that is over: it has replayed the first entry that suits its
request, or that one may not be replayed. -/
theorem Alone.settled (h : Alone front request start t w x) (ho : Orderly front t w)
    (hx : w.exchanges[start.exchanges.length]? = some x) (hrequest : x.request = request)
    (hover : x.isOver = true) :
    (∃ held, start.firstSuited request = some held ∧ held.entry.isPublic = true ∧
      FromStore start w ∧ Picked start.exchanges.length request.cacheKey (some held) t ∧
      (∃ p ∈ t, Picks start.exchanges.length request.cacheKey held p) ∧
      Replays front t start.exchanges.length x held.entry ∧
      Replayed t w start.exchanges.length held.entry) ∨
    (Misses request start ∧ ¬ Hits w start.exchanges.length) := by
  have hkey : x.key = request.cacheKey := by rw [Exchange.key, hrequest]
  cases h with
  | looking h =>
    rcases (isOver_cases hover).1 with ⟨outcome, hstage⟩ | hdead
    · obtain ⟨held, ⟨p, hp, hpick⟩, hcache, -, hr, hd⟩ := h.unasked.replays ho hx hstage
      rw [hkey] at hpick
      have hfirst := h.picked p hp _ held (Nat.le_refl _) hpick
      exact .inl ⟨held, hfirst, hr.isPublic, ⟨⟨x, outcome, hx, hstage, hcache⟩, h.calls⟩,
        hfirst ▸ h.picked, ⟨p, hp, hpick⟩, hr, hd⟩
    · refine .inr ⟨h.dead hdead, ?_⟩
      rintro ⟨y, outcome, hy, hstage, -⟩
      obtain rfl : x = y := Option.some.inj (hx.symm.trans hy)
      simp [Exchange.isDead, hstage] at hdead
  | awaiting h =>
    obtain ⟨visit, draft, hstage⟩ := h.stage
    simp [Exchange.isOver, Exchange.outcome?, Exchange.isDead, hstage] at hover
  | answered h =>
    refine .inr ⟨h.misses, ?_⟩
    rintro ⟨y, outcome, hy, hstage, hhit⟩
    obtain rfl : x = y := Option.some.inj (hx.symm.trans hy)
    have hcache := ((ho.course _ x hx).finished hstage).2.1
    rw [hhit, h.cache] at hcache
    exact absurd hcache (by simp)

end Run

end World
end EdgeCache
