import EdgeCache.Proofs.Exchange.Decisions
import EdgeCache.Proofs.Exchange.Provenance

/-!
# Bursts of requests

A burst of requests with the same key and the same headers meets a store that holds nothing under
the key.  Whatever the order of their steps, it goes through three times (`Flight`):

* `Waiting`: nobody has asked the origin, and everybody finds nothing;
* `Fetching`: one exchange has asked and awaits the head, with the slot of the key for itself;
* `Serving`: that exchange has stored the response, everybody finds it, and its body is fed.

An exchange that dies does so in the first time, because the calendar does not reach to the
expiration of a new entry, and then all others do so too.
-/

set_option autoImplicit false

namespace EdgeCache
namespace World

/-! ## Bursts -/

/-- The clock shows this time when something happens in the run. -/
def Clocks (t : History) (now : Instant) : Prop := ∃ p ∈ t, p.1.clock = now

/-- The exchange is for a request of this key and these headers that goes through the cache, and
whose origin would come to a head. -/
structure Joins (front : Front) (key : Bytes) (headers : Headers) (i : Nat) (x : Exchange) :
    Prop where
  key : x.key = key
  headers : x.request.headers = headers
  eligible : front.eligible x.request = true
  answers : (front.respond i x.request).Answers fun _ => True

/-- In a run from a world only requests arrive that are for the same, with clients that are
untouched; and the responses to them are judged cacheable, with an expiration later than any time of
the run. -/
structure Burst (front : Front) (key : Bytes) (headers : Headers) (start : World) (t : History) :
    Prop where
  tidy : ∀ p ∈ t, Tidy p.2
  joins : ∀ p ∈ t, ∀ request client access, p.2 = .arrive request client access →
    Joins front key headers p.1.exchanges.length { request, own := client, access }
  judged : ∀ p ∈ t, ∀ (i : Nat) (x : Exchange) (f : Fetch) (head : Head),
    start.exchanges.length ≤ i → p.1.exchanges[i]? = some x → x.fetch = some f →
    f.tee.announced = some head →
    ∃ verdict, front.policy x.request head p.1.clock = .ok verdict ∧ verdict.cacheable = true ∧
      ∀ now, Clocks t now → verdict.expiresAt.le now = false

/-- The exchanges of a world in such a run: those that were there are over, and the others have
joined in. -/
structure Gathered (front : Front) (key : Bytes) (headers : Headers) (start w : World) : Prop where
  before : ∀ (i : Nat) (x : Exchange), i < start.exchanges.length → w.exchanges[i]? = some x →
    x.isOver = true
  joins : ∀ (i : Nat) (x : Exchange), start.exchanges.length ≤ i → w.exchanges[i]? = some x →
    Joins front key headers i x
  promises : ∀ (i : Nat) (x : Exchange), start.exchanges.length ≤ i → w.exchanges[i]? = some x →
    Promises x

section Gathered

variable {front : Front} {key : Bytes} {headers : Headers} {start w w' b : World} {t : History}
  {i : Nat} {x x' : Exchange} {actor : Actor}

/-- Only exchanges that have joined in take turns. -/
theorem Gathered.le_of_turn (hg : Gathered front key headers start w)
    (hx : w.exchanges[i]? = some x) (ht : Turn front w i x actor x' b) :
    start.exchanges.length ≤ i := by
  rcases Nat.lt_or_ge i start.exchanges.length with hlt | hge
  · have hover := hg.before i x hlt hx
    simp [ht.isOver_eq_false] at hover
  · exact hge

theorem Joins.of_request {y : Exchange} (h : Joins front key headers i x)
    (hr : y.request = x.request) : Joins front key headers i y := by
  obtain ⟨hkey, hheaders, heligible, hanswers⟩ := h
  rw [← hr] at hheaders heligible hanswers
  exact ⟨by rw [← hkey, Exchange.key, Exchange.key, hr], hheaders, heligible, hanswers⟩

theorem Gathered.happen {a : Happening} (hg : Gathered front key headers start w)
    (ho : Orderly front t w) (h : w.happen front a = some w')
    (hlength : start.exchanges.length ≤ w.exchanges.length)
    (hjoins : ∀ request client access, a = .arrive request client access →
      Joins front key headers w.exchanges.length { request, own := client, access }) :
    Gathered front key headers start w' := by
  rcases happen_cases h with ⟨i, actor, x, x', b, rfl, hx, ht, rfl⟩ | hout
  · have hi := hg.le_of_turn hx ht
    have hj := hg.joins i x hi hx
    refine ⟨fun j y hj hy => ?_, fun j y hj hy => ?_, fun j y hj hy => ?_⟩
    · rcases ht.exchange_cases hy with ⟨rfl, -⟩ | ⟨-, hy⟩
      · omega
      · exact hg.before j y hj hy
    · rcases ht.exchange_cases hy with ⟨rfl, rfl⟩ | ⟨-, hy⟩
      · exact (hg.joins j x hi hx).of_request ht.request
      · exact hg.joins j y hj hy
    · rcases ht.exchange_cases hy with ⟨rfl, rfl⟩ | ⟨-, hy⟩
      · exact (hg.promises j x hi hx).turn ho hx ht (hg.joins j x hi hx).answers
      · exact hg.promises j y hj hy
  · refine ⟨fun j y hj hy => ?_, fun j y hj hy => ?_, fun j y hj hy => ?_⟩
    · rcases hout.exchange j y hy with ⟨x, hx, hr⟩ | ⟨request, client, access, -, rfl, -⟩
      · rw [hr.isOver]
        exact hg.before j x hj hx
      · omega
    · rcases hout.exchange j y hy with ⟨x, hx, hr⟩ | ⟨request, client, access, ha, rfl, rfl⟩
      · exact (hg.joins j x hj hx).of_request hr.request
      · exact hjoins request client access ha
    · rcases hout.exchange j y hy with ⟨x, hx, hr⟩ | ⟨request, client, access, -, -, rfl⟩
      · exact (hg.promises j x hj hx).relinked hr
      · exact fun f hf => by simp at hf

end Gathered

/-! ## The three times of a burst -/

section Flight

variable (front : Front) (key : Bytes) (headers : Headers) (start : World) (burst : History)

/-- The exchanges of the burst but the one with this number have not asked, and if one of them has
died, then for this reason. -/
def Others (start : World) (j : Option Nat) (reason : Prop) (w : World) : Prop :=
  ∀ (i : Nat) (x : Exchange), start.exchanges.length ≤ i → some i ≠ j → w.exchanges[i]? = some x →
    Unasked x ∧ (x.isDead = true → reason)

/-- Nobody has asked the origin. -/
structure Waiting (t : History) (w : World) : Prop where
  finding : Finding key headers (fun _ => true) (Clocks burst) [] w
  picked : Picked start.exchanges.length key none t
  calls : w.calls = start.calls
  sinks : w.sinks = start.sinks
  others : Others start none (Late front w) w

/-- The exchange `j` has asked and awaits the head. -/
structure Fetching (j : Nat) (t : History) (w : World) : Prop where
  finding : Finding key headers (fun _ => true) (Clocks burst) [] w
  picked : Picked start.exchanges.length key none t
  calls : w.calls = start.calls + 1
  sinks : w.sinks = start.sinks
  first : start.exchanges.length ≤ j
  awaits : ∃ y visit draft, w.exchanges[j]? = some y ∧ y.stage = .fetching visit draft
  others : Others start (some j) False w

/-- The exchange `j` has stored its response, with this head. -/
structure Serving (j : Nat) (head : Head) (held : Held) (t : History) (w : World) : Prop where
  finding : Finding key headers (fun _ => true) (Clocks burst) [held] w
  picked : Picked start.exchanges.length key (some held) t
  calls : w.calls = start.calls + 1
  sinks : w.sinks = start.sinks + 1
  first : start.exchanges.length ≤ j
  isPublic : held.entry.isPublic = true
  answers : held.entry.answers headers = true
  kept : held.entry.head = front.kept head
  feeds : ∃ y id, w.exchanges[j]? = some y ∧ Feeds y.request head id y ∧ y.cache = .miss ∧
    y.status = head.status ∧ held.entry.body = some (.growing id)
  others : Others start (some j) False w

/-- What is true of a world in a burst. -/
inductive Flight (t : History) (w : World) : Prop
  | waiting (h : Waiting front key headers start burst t w)
  | fetching {j : Nat} (h : Fetching key headers start burst j t w)
  | serving {j : Nat} {head : Head} {held : Held}
      (h : Serving front key headers start burst j head held t w)

end Flight

section Steps

variable {front : Front} {key : Bytes} {headers : Headers} {start w w' b : World}
  {burst t : History}
  {i j : Nat} {x x' : Exchange} {actor : Actor} {a : Happening} {head : Head} {held : Held}

theorem Others.outside {k : Option Nat} {reason reason' : Prop} (h : Others start k reason w)
    (hout : Outside w a w') (hr : reason → reason') : Others start k reason' w' := by
  intro i y hi hk hy
  rcases hout.exchange i y hy with ⟨x, hx, hrel⟩ | ⟨request, client, access, -, -, rfl⟩
  · obtain ⟨hu, hd⟩ := h i x hi hk hx
    exact ⟨hu.relinked hrel, fun hdead => hr (hd (hrel.isDead ▸ hdead))⟩
  · exact ⟨⟨rfl, by simp⟩, fun hdead => by simp [Exchange.isDead] at hdead⟩

theorem Others.turn {k : Option Nat} {reason reason' : Prop} (h : Others start k reason w)
    (ht : Turn front w i x actor x' b) (hr : reason → reason')
    (hself : some i ≠ k → Unasked x' ∧ (x'.isDead = true → reason')) :
    Others start k reason' (b.put i x') := by
  intro n y hn hk hy
  rcases ht.exchange_cases hy with ⟨rfl, rfl⟩ | ⟨-, hy⟩
  · exact hself hk
  · obtain ⟨hu, hd⟩ := h n y hn hk hy
    exact ⟨hu, fun hdead => hr (hd hdead)⟩

/-- Nobody has asked before the turn, and one exchange may have after it. -/
theorem Waiting.turn (hw : Waiting front key headers start burst t w)
    (hg : Gathered front key headers start w) (ho : Orderly front t w)
    (hx : w.exchanges[i]? = some x) (ht : Turn front w i x actor x' b)
    (hclock : Clocks burst w.clock) :
    Flight front key headers start burst (t ++ [(w, .step i actor)]) (b.put i x') := by
  have hi := hg.le_of_turn hx ht
  have hj := hg.joins i x hi hx
  obtain ⟨hu, hlate⟩ := hw.others i x hi (by simp) hx
  have hfinding := hw.finding.turn ho hj.headers ht hclock hu.not_stores
  have hpicked := hw.picked.snoc (a := .step i actor) ho hw.finding rfl
  have hclock' : Late front w → Late front (b.put i x') := fun hl => hl.turn ht
  rcases hu.turn ho hx hj.eligible ht with ⟨hu', hdead, hcalls, hsinks⟩ |
    ⟨visit, previous, -, -, -, hsinks, ⟨hcalls, ⟨draft, hstage'⟩, hexp⟩ | ⟨hcalls, hu', hexp⟩⟩
  · refine .waiting ⟨hfinding, hpicked, hcalls.trans hw.calls, hsinks.trans hw.sinks, ?_⟩
    exact hw.others.turn ht hclock' fun _ => ⟨hu', fun h => hclock' (hlate (hdead ▸ h))⟩
  · refine .fetching (j := i) ⟨hfinding, hpicked, ?_, hsinks.trans hw.sinks, hi, ?_, ?_⟩
    · exact hcalls.trans (by rw [hw.calls])
    · exact ⟨x', visit, draft, ht.exchange_self hx, hstage'⟩
    · -- had one died before, then it would be too late to ask
      intro k y hk hki hy
      rcases ht.exchange_cases hy with ⟨rfl, -⟩ | ⟨-, hy⟩
      · exact absurd rfl hki
      · obtain ⟨huy, hly⟩ := hw.others k y hk (by simp) hy
        exact ⟨huy, fun hdead => hexp (hly hdead)⟩
  · refine .waiting ⟨hfinding, hpicked, hcalls.trans hw.calls, hsinks.trans hw.sinks, ?_⟩
    exact hw.others.turn ht hclock' fun _ => ⟨hu', fun _ => hclock' hexp⟩

/-- While one exchange awaits its head, no other one has the slot of the key for itself. -/
theorem Fetching.alone (hf : Fetching key headers start burst j t w)
    (hg : Gathered front key headers start w) (ho : Orderly front t w)
    (hx : w.exchanges[i]? = some x) (hi : start.exchanges.length ≤ i) {visit : Nat}
    {previous : Option Held} (hstage : x.stage = .visiting visit)
    (hh : w.store.handed visit = some previous)
    (hprivate : ∀ held, previous = some held → held.entry.isPublic = false) : i = j := by
  obtain ⟨y, visit', draft, hy, hstage'⟩ := hf.awaits
  obtain ⟨slot, previous', f, expiration, hphase, -⟩ := (ho.course j y hy).fetching hstage'
  have hv : x.stage.visit? = some visit := by rw [hstage]; rfl
  have hv' : y.stage.visit? = some visit' := by rw [hstage']; rfl
  obtain ⟨u, hu, hku, -⟩ := ho.attended.own i x visit hx hv
  obtain ⟨u', hu', hku', -⟩ := ho.attended.own j y visit' hy hv'
  rw [(hg.joins i x hi hx).key] at hku
  rw [(hg.joins j y hf.first hy).key] at hku'
  rw [Store.handed, hu, Option.bind_some] at hh
  have hh' : u'.phase.handed = some previous' := by
    rw [Store.phaseOf_eq hu', Option.some.injEq] at hphase
    rw [hphase]
    rfl
  have hnone : previous' = none := hf.finding.found.handed visit' u' previous' hu' hku' hh'
  have hsame : visit = visit' := by
    have hbuilds : w.store.Builds key visit := ⟨u, previous, hu, hku, hh, hprivate⟩
    refine hbuilds.unique ho.attended.sound ho.attended.offers ⟨u', previous', hu', hku', hh', ?_⟩
    simp [hnone]
  exact ho.attended.distinct i j x y visit hx hy hv (hsame ▸ hv')

/-- The exchange that awaits a head stores its response, once the head is there. -/
theorem Fetching.judge (hf : Fetching key headers start burst j t w)
    (hg : Gathered front key headers start w) (ho : Orderly front t w)
    (hx : w.exchanges[j]? = some x) (ht : Turn front w j x .front x' b)
    (hb : Burst front key headers start burst) (hmem : (w, .step j .front) ∈ burst)
    (hfaults : ∀ sink, front.faults.opening sink = none) :
    ∃ head held, Serving front key headers start burst j head held
      (t ++ [(w, .step j .front)]) (b.put j x') := by
  obtain ⟨y, visit, draft, hy, hstage⟩ := hf.awaits
  obtain rfl : x = y := Option.some.inj (hx.symm.trans hy)
  have hjoins := hg.joins j x hf.first hx
  have hc := ho.course j x hx
  obtain ⟨slot, previous, f₀, expiration, -, -, hcache, -⟩ := hc.fetching hstage
  obtain ⟨-, hcache', hcalls⟩ := ht.judged hstage
  obtain ⟨f, f', hfetch, hfetch', hannounced, -, hkeeps⟩ := ht.keeps hx hc hstage
  rcases hkeeps with ⟨hnone, hend⟩ | ⟨head, hhead, hkeeps⟩
  · have hpending := (hg.promises j x hf.first hx f hfetch hnone).1
    simp [hpending] at hend
  obtain ⟨verdict, hpol, hv, hlater⟩ := hb.judged _ hmem j x f head hf.first hx hfetch hhead
  obtain ⟨e, hk⟩ := hkeeps verdict hpol hv hfaults
  obtain ⟨hopen, hexpiration, hbody⟩ := hk.opened hv
  obtain ⟨v, hst⟩ := hk.stores hc hv
  obtain ⟨hcop, -, -, hstatus, hsinks⟩ := hk.turn hv ht
  have hfound := hst.found (fun _ => true) ho hx ht hjoins.key hf.finding.found
    (by simp [Store.firstFit])
  refine ⟨head, ⟨w.store.nextId, e⟩, ⟨?_, ?_⟩, ?_, hcalls.trans hf.calls,
    hsinks.trans (by rw [hf.sinks]), hf.first, hk.isPublic.trans hv, ?_, hk.head, ?_, ?_⟩
  · exact hfound
  · intro h hh now hnow
    rw [List.mem_singleton.1 hh, Entry.expired, hexpiration]
    exact hlater now hnow
  · intro p hp k h hk hpick
    exact absurd (hf.picked.snoc ho hf.finding rfl p hp k h hk hpick) (by simp)
  · rw [← hjoins.headers, ← hk.requestHeaders]
    exact answers_self e
  · refine ⟨x', w.bodies.length, ht.exchange_self hx,
      ⟨rfl, ⟨f', hfetch', hannounced.trans hhead⟩, .taking, _, _, _, _, hcop⟩, hcache'.trans hcache,
      hstatus, hbody⟩
  · exact hf.others.turn ht id fun hne => absurd rfl hne

/-- One exchange awaits its head before the turn; after it, it may have stored its response. -/
theorem Fetching.turn (hf : Fetching key headers start burst j t w)
    (hg : Gathered front key headers start w) (ho : Orderly front t w)
    (hx : w.exchanges[i]? = some x) (ht : Turn front w i x actor x' b)
    (hb : Burst front key headers start burst) (hmem : (w, .step i actor) ∈ burst)
    (hfaults : ∀ sink, front.faults.opening sink = none) :
    Flight front key headers start burst (t ++ [(w, .step i actor)]) (b.put i x') := by
  have hclock : Clocks burst w.clock := ⟨_, hmem, rfl⟩
  by_cases hij : i = j
  · subst hij
    cases hactor : actor with
    | front =>
      subst hactor
      obtain ⟨head, held, hs⟩ := hf.judge hg ho hx ht hb hmem hfaults
      exact .serving hs
    | origin | copier =>
      -- what happens in the background leaves all as it is
      obtain ⟨y, visit, draft, hy, hstage⟩ := hf.awaits
      obtain rfl : x = y := Option.some.inj (hx.symm.trans hy)
      have hne : actor ≠ .front := by rw [hactor]; simp
      obtain ⟨hcalls, hsinks⟩ := ht.counts_of_ne hne
      refine .fetching (j := i) ⟨hf.finding.of_store (ht.store_of_ne hne),
        hf.picked.snoc ho hf.finding rfl, hcalls.trans hf.calls, hsinks.trans hf.sinks, hf.first,
        ⟨x', visit, draft, ht.exchange_self hx, (ht.stage_of_ne hne).trans hstage⟩, ?_⟩
      exact hf.others.turn ht id fun hne => absurd rfl hne
  · have hi := hg.le_of_turn hx ht
    have hj := hg.joins i x hi hx
    obtain ⟨hu, hdead⟩ := hf.others i x hi (by simp [hij]) hx
    rcases hu.turn ho hx hj.eligible ht with ⟨hu', hdead', hcalls, hsinks⟩ |
      ⟨visit, previous, hstage, hh, hprivate, -⟩
    · obtain ⟨y, visit, draft, hy, hstage⟩ := hf.awaits
      refine .fetching (j := j) ⟨hf.finding.turn ho hj.headers ht hclock hu.not_stores,
        hf.picked.snoc ho hf.finding rfl, hcalls.trans hf.calls, hsinks.trans hf.sinks, hf.first,
        ⟨y, visit, draft, (ht.exchange_ne (Ne.symm hij)).trans hy, hstage⟩, ?_⟩
      exact hf.others.turn ht id fun _ => ⟨hu', fun h => hdead (hdead' ▸ h)⟩
    · exact absurd (hf.alone hg ho hx hi hstage hh hprivate) hij

/-- An exchange that feeds the body of its response does not await a head. -/
theorem Feeds.not_fetching {request : Request} {id : Nat} (h : Feeds request head id x)
    (ho : Orderly front t w) (hx : w.exchanges[i]? = some x) (visit : Nat) (draft : Entry) :
    x.stage ≠ .fetching visit draft := by
  intro hstage
  obtain ⟨doing, sink, failed, writes, stored, hcop⟩ := h.copies
  obtain ⟨slot, previous, f₀, expiration, -, -, -, -, -, hnone, -⟩ :=
    (ho.course i x hx).fetching hstage
  simp [hnone] at hcop

theorem Serving.firstFit (hs : Serving front key headers start burst j head held t w) :
    Store.firstFit (fun _ => true) (fun e => e.answers headers) [held] = some held := by
  simp [Store.firstFit, hs.answers]

/-- Once a response has been stored, it stays so that all others find it. -/
theorem Serving.turn (hs : Serving front key headers start burst j head held t w)
    (hg : Gathered front key headers start w) (ho : Orderly front t w)
    (hx : w.exchanges[i]? = some x) (ht : Turn front w i x actor x' b)
    (hclock : Clocks burst w.clock) :
    Serving front key headers start burst j head held (t ++ [(w, .step i actor)]) (b.put i x') := by
  have hi := hg.le_of_turn hx ht
  have hj := hg.joins i x hi hx
  obtain ⟨y, id, hy, hfeeds, hcache, hstatus, hbody⟩ := hs.feeds
  have hpicked := hs.picked.snoc (a := .step i actor) ho hs.finding hs.firstFit
  by_cases hij : i = j
  · subst hij
    obtain rfl : x = y := Option.some.inj (hx.symm.trans hy)
    obtain ⟨f, hf, -⟩ := hfeeds.fetch
    have hfetching := hfeeds.not_fetching ho hx
    obtain ⟨hcache', hstatus', -, hcalls, hsinks, -⟩ := ho.decided hx ht (by rw [hf]; rfl) hfetching
    have hfeeds' : Feeds x'.request head id x' := by
      rw [ht.request]
      exact hfeeds.turn ho hx ht
    refine ⟨hs.finding.turn ho hj.headers ht hclock (not_stores hfetching), hpicked,
      hcalls.trans hs.calls, hsinks.trans hs.sinks, hs.first, hs.isPublic, hs.answers, hs.kept,
      ⟨x', id, ht.exchange_self hx, hfeeds',
        hcache'.trans hcache, hstatus'.trans hstatus, hbody⟩, ?_⟩
    exact hs.others.turn ht (fun h => h) fun hne => absurd rfl hne
  · obtain ⟨hu, hdead⟩ := hs.others i x hi (by simp [hij]) hx
    rcases hu.turn ho hx hj.eligible ht with ⟨hu', hdead', hcalls, hsinks⟩ |
      ⟨visit, previous, hstage, hh, hprivate, -⟩
    · refine ⟨hs.finding.turn ho hj.headers ht hclock hu.not_stores, hpicked, hcalls.trans hs.calls,
        hsinks.trans hs.sinks, hs.first, hs.isPublic, hs.answers, hs.kept,
        ⟨y, id, (ht.exchange_ne (Ne.symm hij)).trans hy, hfeeds, hcache, hstatus, hbody⟩, ?_⟩
      exact hs.others.turn ht (fun h => h) fun _ => ⟨hu', fun h => hdead (hdead' ▸ h)⟩
    · -- what is found is public
      have hfound := ho.handed_of_found hx hstage hh (hj.key ▸ hs.finding.found)
      have hprivate' := hprivate held (hfound.trans hs.firstFit)
      simp [hs.isPublic] at hprivate'

/-- **Whatever happens in a burst, it stays on its way.** -/
theorem Flight.happen (hf : Flight front key headers start burst t w)
    (hg : Gathered front key headers start w) (ho : Orderly front t w)
    (h : w.happen front a = some w') (hb : Burst front key headers start burst)
    (hmem : (w, a) ∈ burst) (hfaults : ∀ sink, front.faults.opening sink = none) :
    Flight front key headers start burst (t ++ [(w, a)]) w' := by
  have hclock : Clocks burst w.clock := ⟨_, hmem, rfl⟩
  rcases happen_cases h with ⟨i, actor, x, x', b, rfl, hx, ht, rfl⟩ | hout
  · cases hf with
    | waiting hf => exact hf.turn hg ho hx ht hclock
    | fetching hf => exact hf.turn hg ho hx ht hb hmem hfaults
    | serving hf => exact .serving (hf.turn hg ho hx ht hclock)
  · cases hf with
    | waiting hf =>
      refine .waiting ⟨hf.finding.of_store hout.store, hf.picked.snoc ho hf.finding rfl,
        hout.calls.trans hf.calls, hout.sinks.trans hf.sinks, ?_⟩
      exact hf.others.outside hout fun hl => hl.happen h
    | @fetching j hf =>
      obtain ⟨y, visit, draft, hy, hstage⟩ := hf.awaits
      obtain ⟨y', hy', hr⟩ := hout.still j y hy
      exact .fetching (j := j) ⟨hf.finding.of_store hout.store, hf.picked.snoc ho hf.finding rfl,
        hout.calls.trans hf.calls, hout.sinks.trans hf.sinks, hf.first,
        ⟨y', visit, draft, hy', hr.stage.trans hstage⟩,
        hf.others.outside hout id⟩
    | @serving j head held hf =>
      obtain ⟨y, id, hy, hfeeds, hcache, hstatus, hbody⟩ := hf.feeds
      obtain ⟨y', hy', hr⟩ := hout.still j y hy
      have hfeeds' : Feeds y'.request head id y' := by
        rw [hr.request]
        exact hfeeds.relinked hr
      exact .serving ⟨hf.finding.of_store hout.store, hf.picked.snoc ho hf.finding hf.firstFit,
        hout.calls.trans hf.calls, hout.sinks.trans hf.sinks, hf.first, hf.isPublic, hf.answers,
        hf.kept, ⟨y', id, hy', hfeeds', hr.cache.trans hcache, hr.status.trans hstatus, hbody⟩,
        hf.others.outside hout fun h => h⟩

end Steps

end World
end EdgeCache
