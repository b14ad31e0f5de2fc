import EdgeCache.Proofs.Exchange.Visits
import EdgeCache.Proofs.Exchange.Reading
import EdgeCache.Proofs.Origin.Scripts

/-!
# The course of an exchange

`Course` says what is true of an exchange in each of its stages: nothing has been decided or written
while it looks for an entry (`Fresh`); an exchange that replays an entry has its head and has
written what its reader has read (`Replays`, `Tails`); an exchange that fetches has nothing yet that
empties the buffer of its tee; and what an exchange has become once its producer has decided does
not change any more (`Settled`).

`Kept` is where entries come from: an exchange has stored the entry in a step of the run, when the
head of its response was known and judged.
-/

set_option autoImplicit false

namespace EdgeCache
namespace World

/-! ## Where entries come from -/

/-- In the world `w` the exchange `y` of number `j` stores the entry `e`: the head of its response
is known, and the policy has judged it. -/
structure Keeps (front : Front) (w : World) (j : Nat) (y : Exchange) (head : Head)
    (verdict : Cacheability) (e : Entry) : Prop where
  exchange : w.exchanges[j]? = some y
  fetching : ∃ visit draft f, y.stage = .fetching visit draft ∧ y.fetch = some f ∧
    f.tee.announced = some head
  judged : front.policy y.request head w.clock = .ok verdict
  isPublic : e.isPublic = verdict.cacheable
  requestHeaders : e.requestHeaders = y.request.headers
  head : e.head = front.kept head
  /-- A response that may be replayed gets a body of its own. -/
  opened : verdict.cacheable = true → front.faults.opening w.sinks = none ∧
    e.expiration = verdict.expiresAt ∧ e.body = some (.growing w.bodies.length)
  bare : verdict.cacheable = false → e.body = none

/-- An entry answers the headers that it was stored for. -/
theorem answers_self (e : Entry) : e.answers e.requestHeaders = true := by
  simp [Entry.answers, Vary.selects]

/-- The entry was stored under the key in a step of the run. -/
def Kept (front : Front) (t : History) (key : Bytes) (e : Entry) : Prop :=
  ∃ w j y head verdict, (w, .step j .front) ∈ t ∧ y.key = key ∧ Keeps front w j y head verdict e

theorem Kept.mono {front : Front} {t t' : History} {key : Bytes} {e : Entry}
    (h : Kept front t key e) (ht : ∀ p ∈ t, p ∈ t') : Kept front t' key e := by
  obtain ⟨w, j, y, head, verdict, hmem, hkey, hk⟩ := h
  exact ⟨w, j, y, head, verdict, ht _ hmem, hkey, hk⟩

/-- What may be replayed has a body of its own. -/
theorem Kept.body {front : Front} {t : History} {key : Bytes} {e : Entry}
    (h : Kept front t key e) (hpublic : e.isPublic = true) : ∃ id, e.body = some (.growing id) := by
  obtain ⟨w, j, y, head, verdict, -, -, hk⟩ := h
  exact ⟨_, (hk.opened (hk.isPublic.symm.trans hpublic)).2.2⟩

/-- By a happening the store's entry is taken up by an exchange that looks its key up. -/
def Picks (i : Nat) (key : Bytes) (held : Held) (p : World × Happening) : Prop :=
  ∃ x visit, p.2 = .step i .front ∧ p.1.exchanges[i]? = some x ∧ x.key = key ∧
    x.stage = .visiting visit ∧ p.1.store.handed visit = some (some held)

/-! ## What is true in a stage -/

/-- Nothing has been decided, and nothing has been written. -/
structure Fresh (t : History) (i : Nat) (x : Exchange) : Prop where
  cache : x.cache = .miss
  fetch : x.fetch = none
  copier : x.copier = none
  joins : x.joins = false
  head : x.own.head = none
  headers : x.own.headers = {}
  writes : t.writes i = []
  passed : t.passed i = []

/-- The exchange answers with the entry. -/
structure Replays (front : Front) (t : History) (i : Nat) (x : Exchange) (e : Entry) : Prop where
  cache : x.cache = .hit
  fetch : x.fetch = none
  copier : x.copier = none
  joins : x.joins = false
  status : x.status = e.head.status
  head : x.own.head = some ⟨e.head.status, (front.mark .hit {}).appendAll e.head.headers⟩
  kept : Kept front t x.key e
  isPublic : e.isPublic = true
  answers : e.answers x.request.headers = true
  /-- The store has handed it out in a step of the run. -/
  picked : ∃ p ∈ t, ∃ held, Picks i x.key held p ∧ held.entry = e

/-- The exchange reads the entry's body, which grows, and has written what it has read. -/
def Tails (t : History) (w : World) (i : Nat) (e : Entry) (body : StoredBody) (r : Reader)
    (inHand : List Bytes) : Prop :=
  ∃ id g, e.body = some body ∧ body = .growing id ∧ w.bodies[id]? = some g ∧
    Reads (t.writes i) inHand g r

/-- The exchange has written the whole body of the entry, unless its client has refused a chunk. -/
def Replayed (t : History) (w : World) (i : Nat) (e : Entry) : Prop :=
  ∃ id g, e.body = some (.growing id) ∧ w.bodies[id]? = some g ∧
    ((∃ p ∈ t.writes i, p.2 ≠ none) ∨
      g.closed = true ∧ (t.writes i).map (·.1) = g.chunks)

/-- The exchange has asked the origin.  It has a copier, which it awaits, unless the consumer has
gone away. -/
def Asked (x : Exchange) : Prop :=
  x.cache = .miss ∧ x.joins = x.copier.isSome ∧
    ∃ f, x.fetch = some f ∧ f.tee.consumed = x.copier.isSome

/-- The exchange passes the cache. -/
def Skips (x : Exchange) : Prop :=
  x.cache = .skip ∧ x.fetch = none ∧ x.copier = none ∧ x.joins = false

/-- What has become of an exchange: it has replayed an entry, or asked the origin, or passed the
cache. -/
def Settled (front : Front) (t : History) (w : World) (i : Nat) (x : Exchange) : Prop :=
  (∃ e, Replays front t i x e ∧ Replayed t w i e) ∨ Asked x ∨ Skips x

/-- What is true of an exchange in its stage. -/
def Course (front : Front) (t : History) (w : World) (i : Nat) (x : Exchange) : Prop :=
  match x.stage with
  | .arrived => Fresh t i x
  | .forwarding script => Skips x ∧ script.Ends fun o => o.cache = .skip
  | .visiting visit => ∃ p, w.store.phaseOf visit = some p ∧
    (p.early = true → Fresh t i x) ∧ (p.early = false → Settled front t w i x)
  | .replaying visit body r => ∃ e slot n, w.store.phaseOf visit = some (.reusing slot ⟨n, e⟩) ∧
    Replays front t i x e ∧ Tails t w i e body r []
  | .relaying visit body r chunk =>
    ∃ e slot n, w.store.phaseOf visit = some (.reusing slot ⟨n, e⟩) ∧
      Replays front t i x e ∧ Tails t w i e body r [chunk]
  | .fetching visit draft => ∃ slot previous f expiration,
    w.store.phaseOf visit = some (.producing slot previous) ∧
      draft = Entry.speculative x.request.headers expiration ∧ x.cache = .miss ∧
      x.fetch = some f ∧ f.tee.consumed = true ∧ x.copier = none ∧ x.joins = false
  | .joining _ | .closing _ => Settled front t w i x
  | .reporting o | .finished o =>
    Settled front t w i x ∧ o.cache = x.cache ∧ (x.cache ≠ .skip → o.status = x.status)
  | .died => x.fetch = none ∧ x.copier = none

/-! ### Reading it off the stage -/

section Stage

variable {front : Front} {t : History} {w : World} {i : Nat} {x : Exchange}

theorem Course.arrived (hc : Course front t w i x) (h : x.stage = .arrived) : Fresh t i x := by
  simpa only [Course, h] using hc

theorem Course.visiting {v : Nat} (hc : Course front t w i x) (h : x.stage = .visiting v) :
    ∃ p, w.store.phaseOf v = some p ∧ (p.early = true → Fresh t i x) ∧
      (p.early = false → Settled front t w i x) := by
  simpa only [Course, h] using hc

/-- While the producer of its visit runs, an exchange that still visits is fresh. -/
theorem Course.fresh_of_handed {v : Nat} {previous : Option Held} (hc : Course front t w i x)
    (h : x.stage = .visiting v) (hh : w.store.handed v = some previous) : Fresh t i x := by
  obtain ⟨p, hp, hfresh, -⟩ := hc.visiting h
  rw [Store.handed_eq, hp, Option.bind_some] at hh
  exact hfresh (Store.early_of_handed hh)

theorem Course.forwarding {script : Script Handled} (hc : Course front t w i x)
    (h : x.stage = .forwarding script) : Skips x ∧ script.Ends fun o => o.cache = .skip := by
  simpa only [Course, h] using hc

theorem Course.replaying {v : Nat} {body : StoredBody} {r : Reader} (hc : Course front t w i x)
    (h : x.stage = .replaying v body r) :
    ∃ e slot n, w.store.phaseOf v = some (.reusing slot ⟨n, e⟩) ∧
      Replays front t i x e ∧ Tails t w i e body r [] := by
  simpa only [Course, h] using hc

theorem Course.relaying {v : Nat} {body : StoredBody} {r : Reader} {chunk : Bytes}
    (hc : Course front t w i x) (h : x.stage = .relaying v body r chunk) :
    ∃ e slot n, w.store.phaseOf v = some (.reusing slot ⟨n, e⟩) ∧
      Replays front t i x e ∧ Tails t w i e body r [chunk] := by
  simpa only [Course, h] using hc

theorem Course.fetching {v : Nat} {draft : Entry} (hc : Course front t w i x)
    (h : x.stage = .fetching v draft) :
    ∃ slot previous f expiration, w.store.phaseOf v = some (.producing slot previous) ∧
      draft = Entry.speculative x.request.headers expiration ∧ x.cache = .miss ∧
      x.fetch = some f ∧ f.tee.consumed = true ∧ x.copier = none ∧ x.joins = false := by
  simpa only [Course, h] using hc

theorem Course.finished {o : Handled} (hc : Course front t w i x) (h : x.stage = .finished o) :
    Settled front t w i x ∧ o.cache = x.cache ∧ (x.cache ≠ .skip → o.status = x.status) := by
  simpa only [Course, h] using hc

/-- An exchange with an origin waits for the head, or has asked. -/
theorem Course.asked_of_fetch {f : Fetch} (hc : Course front t w i x) (hf : x.fetch = some f) :
    Asked x ∨ ∃ v draft, x.stage = .fetching v draft := by
  have hsettled : Settled front t w i x → Asked x := by
    rintro (⟨e, hr, -⟩ | hasked | ⟨-, hnone, -⟩)
    · simp [hr.fetch] at hf
    · exact hasked
    · simp [hnone] at hf
  rw [Course] at hc
  cases hs : x.stage with
  | arrived =>
    simp only [hs] at hc
    simp [hc.fetch] at hf
  | forwarding script =>
    simp only [hs] at hc
    simp [hc.1.2.1] at hf
  | visiting v =>
    simp only [hs] at hc
    obtain ⟨p, -, hfresh, hlate⟩ := hc
    cases hp : p.early with
    | true => simp [(hfresh hp).fetch] at hf
    | false => exact .inl (hsettled (hlate hp))
  | replaying v body r | relaying v body r chunk =>
    simp only [hs] at hc
    obtain ⟨e, slot, n, -, hr, -⟩ := hc
    simp [hr.fetch] at hf
  | fetching v draft => exact .inr ⟨v, draft, rfl⟩
  | joining result | closing result =>
    simp only [hs] at hc
    exact .inl (hsettled hc)
  | reporting outcome | finished outcome =>
    simp only [hs] at hc
    exact .inl (hsettled hc.1)
  | died =>
    simp only [hs] at hc
    simp [hc.1] at hf

/-- An exchange without an origin has no copier. -/
theorem Course.copier_eq_none (hc : Course front t w i x) (hf : x.fetch = none) :
    x.copier = none := by
  have hsettled : Settled front t w i x → x.copier = none := by
    rintro (⟨e, hr, -⟩ | ⟨-, -, f, hsome, -⟩ | ⟨-, -, hnone, -⟩)
    · exact hr.copier
    · simp [hf] at hsome
    · exact hnone
  rw [Course] at hc
  cases hs : x.stage with
  | arrived =>
    simp only [hs] at hc
    exact hc.copier
  | forwarding script =>
    simp only [hs] at hc
    exact hc.1.2.2.1
  | visiting v =>
    simp only [hs] at hc
    obtain ⟨p, -, hfresh, hlate⟩ := hc
    cases hp : p.early with
    | true => exact (hfresh hp).copier
    | false => exact hsettled (hlate hp)
  | replaying v body r | relaying v body r chunk =>
    simp only [hs] at hc
    obtain ⟨e, slot, n, -, hr, -⟩ := hc
    exact hr.copier
  | fetching v draft =>
    simp only [hs] at hc
    obtain ⟨slot, previous, f, expiration, -, -, -, hsome, -⟩ := hc
    simp [hf] at hsome
  | joining result | closing result =>
    simp only [hs] at hc
    exact hsettled hc
  | reporting outcome | finished outcome =>
    simp only [hs] at hc
    exact hsettled hc.1
  | died =>
    simp only [hs] at hc
    exact hc.2

/-- An exchange with a copier has asked. -/
theorem Course.asked_of_copier (hc : Course front t w i x) (hcop : x.copier.isSome = true) :
    Asked x := by
  cases hf : x.fetch with
  | none => simp [hc.copier_eq_none hf] at hcop
  | some f =>
    rcases hc.asked_of_fetch hf with hasked | ⟨v, draft, hs⟩
    · exact hasked
    · obtain ⟨slot, previous, f', expiration, -, -, -, -, -, hnone, -⟩ := hc.fetching hs
      simp [hnone] at hcop

end Stage

/-! ## What does not concern an exchange -/

/-- Every body is there and has grown. -/
def Grown (w w' : World) : Prop :=
  ∀ (id : Nat) (g : Growing), w.bodies[id]? = some g → ∃ g', w'.bodies[id]? = some g' ∧ g.Grows g'

section Frame

variable {front : Front} {t t' : History} {w w' : World} {i : Nat} {x y : Exchange} {e : Entry}

theorem Replays.mono (h : Replays front t i x e) (ht : ∀ p ∈ t, p ∈ t') :
    Replays front t' i x e := by
  obtain ⟨p, hp, hpicked⟩ := h.picked
  exact { h with kept := h.kept.mono ht, picked := ⟨p, ht p hp, hpicked⟩ }

theorem Tails.frame {body : StoredBody} {r : Reader} {inHand : List Bytes}
    (h : Tails t w i e body r inHand) (hw : t'.writes i = t.writes i) (hb : Grown w w') :
    Tails t' w' i e body r inHand := by
  obtain ⟨id, g, he, hbody, hg, hr⟩ := h
  obtain ⟨g', hg', hgrows⟩ := hb id g hg
  exact ⟨id, g', he, hbody, hg', hw ▸ hr.grows hgrows⟩

theorem Replayed.frame (h : Replayed t w i e) (hw : t'.writes i = t.writes i) (hb : Grown w w') :
    Replayed t' w' i e := by
  obtain ⟨id, g, he, hg, hdone⟩ := h
  obtain ⟨g', hg', hgrows⟩ := hb id g hg
  refine ⟨id, g', he, hg', ?_⟩
  rw [hw]
  rcases hdone with hfail | ⟨hclosed, hall⟩
  · exact .inl hfail
  · -- a closed body does not change any more
    rcases hgrows with rfl | ⟨hopen, -⟩
    · exact .inr ⟨hclosed, hall⟩
    · simp [hclosed] at hopen

theorem Settled.frame (h : Settled front t w i x) (ht : ∀ p ∈ t, p ∈ t')
    (hw : t'.writes i = t.writes i) (hb : Grown w w') : Settled front t' w' i x := by
  rcases h with ⟨e, hr, hd⟩ | h
  · exact .inl ⟨e, hr.mono ht, hd.frame hw hb⟩
  · exact .inr h

/-- What has become of an exchange does not depend on its stage. -/
theorem Settled.staged (h : Settled front t w i x) (stage : Stage) :
    Settled front t w i { x with stage } := by
  rcases h with ⟨e, hr, hd⟩ | h
  · exact .inl ⟨e, { hr with }, hd⟩
  · exact .inr h

theorem Fresh.frame (h : Fresh t i x) (hw : t'.writes i = t.writes i)
    (hp : t'.passed i = t.passed i) : Fresh t' i x :=
  { h with writes := hw.trans h.writes, passed := hp.trans h.passed }

/-- What the others do leaves an exchange on its course. -/
theorem Course.frame (hc : Course front t w i x) (ht : ∀ p ∈ t, p ∈ t')
    (hw : t'.writes i = t.writes i) (hp : t'.passed i = t.passed i)
    (hv : ∀ v, x.stage.visit? = some v → w'.store.phaseOf v = w.store.phaseOf v)
    (hb : Grown w w') : Course front t' w' i x := by
  rw [Course] at hc ⊢
  cases hs : x.stage with
  | arrived =>
    simp only [hs] at hc ⊢
    exact hc.frame hw hp
  | forwarding script =>
    simp only [hs] at hc ⊢
    exact hc
  | visiting v =>
    simp only [hs] at hc ⊢
    obtain ⟨p, hph, hfresh, hsettled⟩ := hc
    exact ⟨p, (hv v (by rw [hs]; rfl)).trans hph, fun he => (hfresh he).frame hw hp,
      fun he => (hsettled he).frame ht hw hb⟩
  | replaying v body r =>
    simp only [hs] at hc ⊢
    obtain ⟨e, slot, n, hph, hr, htail⟩ := hc
    exact ⟨e, slot, n, (hv v (by rw [hs]; rfl)).trans hph, hr.mono ht, htail.frame hw hb⟩
  | relaying v body r chunk =>
    simp only [hs] at hc ⊢
    obtain ⟨e, slot, n, hph, hr, htail⟩ := hc
    exact ⟨e, slot, n, (hv v (by rw [hs]; rfl)).trans hph, hr.mono ht, htail.frame hw hb⟩
  | fetching v draft =>
    simp only [hs] at hc ⊢
    obtain ⟨slot, previous, f, expiration, hph, hrest⟩ := hc
    exact ⟨slot, previous, f, expiration, (hv v (by rw [hs]; rfl)).trans hph, hrest⟩
  | joining result | closing result =>
    simp only [hs] at hc ⊢
    exact hc.frame ht hw hb
  | reporting outcome | finished outcome =>
    simp only [hs] at hc ⊢
    exact ⟨hc.1.frame ht hw hb, hc.2⟩
  | died =>
    simp only [hs] at hc ⊢
    exact hc

theorem Replays.relinked (h : Replays front t i x e) (hr : Relinked x y) :
    Replays front t i y e where
  cache := hr.cache.trans h.cache
  fetch := hr.fetch_eq_none h.fetch
  copier := hr.copier.trans h.copier
  joins := hr.joins.trans h.joins
  status := hr.status.trans h.status
  head := hr.head.trans h.head
  kept := hr.key ▸ h.kept
  isPublic := h.isPublic
  answers := hr.request ▸ h.answers
  picked := by
    rw [hr.key]
    exact h.picked

theorem Asked.relinked (h : Asked x) (hr : Relinked x y) : Asked y := by
  obtain ⟨hcache, hjoins, f, hf, hcons⟩ := h
  obtain ⟨link, hy⟩ := hr.fetch_eq_some hf
  refine ⟨hr.cache.trans hcache, ?_, _, hy, ?_⟩
  · rw [hr.joins, hr.copier, hjoins]
  · rw [hr.copier]
    exact hcons

theorem Skips.relinked (h : Skips x) (hr : Relinked x y) : Skips y :=
  ⟨hr.cache.trans h.1, hr.fetch_eq_none h.2.1, hr.copier.trans h.2.2.1, hr.joins.trans h.2.2.2⟩

theorem Settled.relinked (h : Settled front t w i x) (hr : Relinked x y) :
    Settled front t w i y := by
  rcases h with ⟨e, hreplays, hd⟩ | hasked | hskips
  · exact .inl ⟨e, hreplays.relinked hr, hd⟩
  · exact .inr (.inl (hasked.relinked hr))
  · exact .inr (.inr (hskips.relinked hr))

theorem Fresh.relinked (h : Fresh t i x) (hr : Relinked x y) : Fresh t i y where
  cache := hr.cache.trans h.cache
  fetch := hr.fetch_eq_none h.fetch
  copier := hr.copier.trans h.copier
  joins := hr.joins.trans h.joins
  head := hr.head.trans h.head
  headers := hr.headers.trans h.headers
  writes := h.writes
  passed := h.passed

theorem Course.relinked (hc : Course front t w i x) (hr : Relinked x y) : Course front t w i y := by
  rw [Course] at hc ⊢
  rw [hr.stage]
  cases hs : x.stage with
  | arrived =>
    simp only [hs] at hc ⊢
    exact hc.relinked hr
  | forwarding script =>
    simp only [hs] at hc ⊢
    exact ⟨hc.1.relinked hr, hc.2⟩
  | visiting v =>
    simp only [hs] at hc ⊢
    obtain ⟨p, hph, hfresh, hsettled⟩ := hc
    exact ⟨p, hph, fun he => (hfresh he).relinked hr, fun he => (hsettled he).relinked hr⟩
  | replaying v body r =>
    simp only [hs] at hc ⊢
    obtain ⟨e, slot, n, hph, hreplays, htail⟩ := hc
    exact ⟨e, slot, n, hph, hreplays.relinked hr, htail⟩
  | relaying v body r chunk =>
    simp only [hs] at hc ⊢
    obtain ⟨e, slot, n, hph, hreplays, htail⟩ := hc
    exact ⟨e, slot, n, hph, hreplays.relinked hr, htail⟩
  | fetching v draft =>
    simp only [hs] at hc ⊢
    obtain ⟨slot, previous, f, expiration, hph, hdraft, hcache, hf, hcons, hcop, hj⟩ := hc
    obtain ⟨link, hy⟩ := hr.fetch_eq_some hf
    exact ⟨slot, previous, _, expiration, hph, hr.request ▸ hdraft, hr.cache.trans hcache, hy,
      hcons, hr.copier.trans hcop, hr.joins.trans hj⟩
  | joining result | closing result =>
    simp only [hs] at hc ⊢
    exact hc.relinked hr
  | reporting outcome | finished outcome =>
    simp only [hs] at hc ⊢
    rw [hr.cache, hr.status]
    exact ⟨hc.1.relinked hr, hc.2⟩
  | died =>
    simp only [hs] at hc ⊢
    exact ⟨hr.fetch_eq_none hc.1, hr.copier.trans hc.2⟩

end Frame

end World
end EdgeCache
