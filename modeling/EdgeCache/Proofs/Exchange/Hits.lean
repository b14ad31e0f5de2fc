import EdgeCache.Proofs.Exchange.Alone
import EdgeCache.Proofs.Exchange.Progress
import EdgeCache.Proofs.Exchange.Termination

/-!
# When a request is a hit

A request that comes alone is a hit exactly if the first entry that has not expired and answers it
is public (`hit_alone`).  A public entry that stands behind a private one is not found: then the
origin is asked, although the store has an answer (`conceals_twoMissing`).
-/

set_option autoImplicit false

namespace EdgeCache
namespace World

section Run

variable {front : Front} {request : Request} {start w w₁ w₂ w' : World} {t t₀ t' : History}
  {x y : Exchange} {head : Head} {verdict : Cacheability} {e : Entry} {now : Instant}

/-! ## One call -/

/-- Every exchange is over. -/
def Over (w : World) : Prop :=
  ∀ (i : Nat) (x : Exchange), w.exchanges[i]? = some x → x.isOver = true

/-- A public entry suits the request, but the first that does is private. -/
def Conceals (start : World) (request : Request) : Prop :=
  Misses request start ∧ ∃ h, start.Suits request h ∧ h.entry.isPublic = true

theorem not_misses_iff :
    ¬ Misses request start ↔ ∃ h, start.firstSuited request = some h ∧ h.entry.isPublic = true := by
  simp [Misses]

/-- **A lone request is a hit exactly if the first entry that suits it is public.** -/
theorem Solo.fromStore_iff (h : Solo front start request t w) (hstart : Rested front t₀ start)
    (heligible : front.eligible request = true) (hover : w.Over) :
    FromStore start w ↔ ¬ Misses request start := by
  obtain ⟨ho, -, -, x, hx, hrequest, halone⟩ := h.alone hstart heligible
  rcases halone.settled ho hx hrequest (hover _ x hx) with ⟨held, hfirst, hpublic, hfrom, -⟩ |
    ⟨hmisses, hno⟩
  · exact iff_of_true hfrom (not_misses_iff.2 ⟨held, hfirst, hpublic⟩)
  · exact iff_of_false (fun hfrom => hno hfrom.1) fun h => h hmisses

/-- Whoever finds a public entry first finds one. -/
theorem exists_suits_of_not_misses (h : ¬ Misses request start) :
    ∃ h, start.Suits request h ∧ h.entry.isPublic = true := by
  obtain ⟨held, hfirst, hpublic⟩ := not_misses_iff.1 h
  exact ⟨held, firstSuited_eq_some hfirst, hpublic⟩

/-- The request that came to the world `start` has been answered with this entry: the origin has not
been asked, the client has been shown this head but for the indicator, and has received these chunks
if it took all it was given. -/
structure Recalls (front : Front) (request : Request) (start : World) (held : Held) (head : Head)
    (chunks : List Bytes) (t : History) (w : World) : Prop where
  fromStore : FromStore start w
  picks : ∃ p ∈ t, Picks start.exchanges.length request.cacheKey held p
  shown : ∃ x shown, w.exchanges[start.exchanges.length]? = some x ∧ x.client.head = some shown ∧
    shown.status = head.status ∧
    ∀ name, front.indicator ≠ some name → shown.headers.values name = head.headers.values name
  received : (∀ p ∈ t.writes start.exchanges.length, p.2 = none) →
    t.received start.exchanges.length = chunks

/-- **A lone request recalls a response exactly if the entry of it is the first that suits it.** -/
theorem Solo.recalls_iff {j : Nat} (id : Nat) (h : Solo front start request t w)
    (hstart : Rested front t₀ start) (heligible : front.eligible request = true) (hover : w.Over)
    (hmem : (w₁, .step j .front) ∈ t₀) (hk : Keeps front w₁ j y head verdict e)
    (hv : verdict.cacheable = true) (hfaults : ∀ sink n, front.faults.writing sink n = none) :
    Recalls front request start ⟨id, e⟩ head (t₀.passed j) t w ↔
      start.firstSuited request = some ⟨id, e⟩ := by
  obtain ⟨ho, -, hpassed, x, hx, hrequest, halone⟩ := h.alone hstart heligible
  rcases halone.settled ho hx hrequest (hover _ x hx) with
    ⟨held, hfirst, hpublic, hfrom, hpicked, ⟨p, hp, hpick⟩, hr, hd⟩ | ⟨hmisses, hno⟩
  · constructor
    · rintro ⟨-, ⟨q, hq, hpick'⟩, -, -⟩
      rw [hfirst]
      exact hpicked q (List.mem_append_right _ hq) _ _ (Nat.le_refl _) hpick'
    · intro hfirst'
      obtain rfl := Option.some.inj (hfirst.symm.trans hfirst')
      refine ⟨hfrom, ⟨p, ?_, hpick⟩, ⟨x, ?_⟩, fun htaken => ?_⟩
      · rcases List.mem_append.1 hp with hp | hp
        · have hnone : Picked start.exchanges.length request.cacheKey none t₀ := hstart.picked
          exact absurd (hnone p hp _ _ (Nat.le_refl _) hpick) (by simp)
        · exact hp
      · obtain ⟨shown, hshown⟩ := hr.shown hk.head
        exact ⟨shown, hx, hshown⟩
      · -- the body is what the origin has passed on that was asked for it
        obtain ⟨w₀, h₀, hrun⟩ := hstart.run
        have hend := hstart.extend h.run h.tidy hover
        obtain ⟨y', hy', hfeeds⟩ :=
          hk.feeds h₀ (hrun.trans h.run) hend.tidy hv (List.mem_append_left _ hmem)
        have hj : j ≠ start.exchanges.length := by
          have hlt := (List.getElem?_eq_some_iff.1 hk.exchange).1
          exact Nat.ne_of_lt (Nat.lt_of_lt_of_le hlt ((length_le_of_run hrun).2 _ hmem))
        obtain ⟨hwrites, -⟩ := hstart.record t (Nat.le_refl _)
        have hreceived := ho.received_of_replayed hy' hfeeds hd (hk.opened hv).2.2 hfaults
          (hwrites ▸ htaken)
        rwa [History.received, hwrites, History.passed_append, hpassed j hj, List.append_nil]
          at hreceived
  · refine iff_of_false (fun hrecalls => hno hrecalls.fromStore.1) fun hfirst => ?_
    have hpublic : e.isPublic = true := hk.isPublic.trans hv
    exact absurd ((hmisses _ hfirst).symm.trans hpublic) (by simp)

/-! ## One call after another -/

/-- Who finds later what a lone exchange has stored for replay. -/
theorem Alone.firstSuited_iff (h : Alone front request start t w x) (hn : start.store.Numbered)
    (hmem : (w₁, .step start.exchanges.length .front) ∈ t)
    (hk : Keeps front w₁ start.exchanges.length y head verdict e) (hv : verdict.cacheable = true)
    (hrequest : y.request = request) (hstore : w₂.store = w.store)
    (hle : start.clock.le w₂.clock = true) (hfresh : e.expired w₂.clock = false) :
    w₂.firstSuited request = some ⟨w₁.store.nextId, e⟩ ↔
      ∀ g ∈ start.store.variantsOf request.cacheKey, g.entry.expired w₂.clock = false →
        g.entry.answers request.headers = true → start.firstSuited request = some g := by
  obtain ⟨l, hsees, hcontains⟩ :
      ∃ l, Sees request start l w ∧ Contains front request start t l := by
    cases h with
    | looking h => exact absurd hk (h.unkept _ hmem rfl y head verdict e)
    | awaiting h => exact absurd hk (h.unkept _ hmem rfl y head verdict e)
    | answered h => exact h.sees
  obtain ⟨rfl, hlt⟩ := hcontains _ hmem rfl y head verdict e hk hv
  -- what is fresh now was so when the first request came
  have hlasts : ∀ e : Entry, (!e.expired w₂.clock) = true → (!e.expired start.clock) = true := by
    intro e he
    rw [Bool.not_eq_true'] at he ⊢
    exact Store.fresh_of_le hle he
  have hanswers : e.answers request.headers = true := by
    rw [← hrequest, ← hk.requestHeaders]
    exact answers_self e
  have hprevious : ∀ g ∈ start.store.variantsOf request.cacheKey, ∀ p,
      start.firstSuited request = some p → g.id = p.id → g = p := by
    intro g hg p hp hid
    exact hn.inj g p (Store.stored_iff.2 hg).knows
      (Store.stored_iff.2 (firstSuited_eq_some hp).mem).knows hid
  rw [firstSuited, hstore, hsees.found.firstFit_variants fun g _ => hlasts g.entry,
    Store.firstFit_afterStore (by simp [hfresh]) hanswers
      (fun g hg hs => hlt g hg (by simpa using hs))
      hprevious fun g _ => hlasts g.entry]
  simp

/-- The clock of a world at rest may move. -/
theorem Rested.tick (h : Rested front t₀ w) (htick : w.happen front (.tick now) = some w₂) :
    Rested front (t₀ ++ [(w, .tick now)]) w₂ := by
  refine h.extend (.single htick) (by simp [Tidy]) fun i x hx => h.isOver i x ?_
  rw [happen, Option.ite_none_right_eq_some, Option.some.injEq] at htick
  rwa [← htick.2] at hx

/-- **When the response that a call has stored answers the next call.**  It does so unless another
entry does that was there before; only the one it has taken the place of does not count. -/
theorem Solo.recalled_iff (h : Solo front start request t w) (hstart : Rested front t₀ start)
    (heligible : front.eligible request = true) (hover : w.Over)
    (hmem : (w₁, .step start.exchanges.length .front) ∈ t)
    (hk : Keeps front w₁ start.exchanges.length y head verdict e) (hv : verdict.cacheable = true)
    (htick : w.happen front (.tick now) = some w₂) (hfresh : e.expired now = false)
    (h' : Solo front w₂ request t' w') (hover' : w'.Over)
    (hfaults : ∀ sink n, front.faults.writing sink n = none) :
    Recalls front request w₂ ⟨w₁.store.nextId, e⟩ head (t.passed start.exchanges.length) t' w' ↔
      ∀ g ∈ start.store.variantsOf request.cacheKey, g.entry.expired now = false →
        g.entry.answers request.headers = true → start.firstSuited request = some g := by
  obtain ⟨-, hf, -, x, hx, hrequest, halone⟩ := h.alone hstart heligible
  have hrested := hstart.extend h.run h.tidy hover
  have hmem₀ : (w₁, .step start.exchanges.length .front) ∈ t₀ ++ t := List.mem_append_right _ hmem
  obtain ⟨w₀, h₀, hrun⟩ := hrested.run
  obtain ⟨y', hy', hrequest', -⟩ := hk.feeds h₀ hrun hrested.tidy hv hmem₀
  obtain rfl : x = y' := Option.some.inj (hx.symm.trans hy')
  have hfirst := h'.recalls_iff w₁.store.nextId (hrested.tick htick) heligible hover'
    (List.mem_append_left _ hmem₀) hk hv hfaults
  rw [History.passed_outside (by simp), (hstart.record t (Nat.le_refl _)).2] at hfirst
  rw [happen, Option.ite_none_right_eq_some, Option.some.injEq] at htick
  obtain ⟨hle, rfl⟩ := htick
  rw [hfirst]
  exact halone.firstSuited_iff hstart.numbered hmem₀ hk hv (hrequest'.symm.trans hrequest) rfl
    (hf.clock ▸ hle) hfresh

/-- The request that came to the world `start` has ended as a miss with this head, and the policy
calls the response cacheable. -/
structure Missed (front : Front) (request : Request) (start w : World) (head : Head)
    (verdict : Cacheability) : Prop where
  outcome : ∃ x outcome, w.exchanges[start.exchanges.length]? = some x ∧
    x.stage = .finished outcome ∧ outcome.cache = .miss ∧ x.client.head = some head
  judged : front.policy request head start.clock = .ok verdict
  cacheable : verdict.cacheable = true

/-- Then the exchange has stored the response. -/
theorem Solo.keeps (h : Solo front start request t w) (hstart : Rested front t₀ start)
    (heligible : front.eligible request = true) (hm : Missed front request start w head verdict)
    (hfaults : ∀ sink, front.faults.opening sink = none) :
    ∃ w₁ y e, (w₁, .step start.exchanges.length .front) ∈ t ∧
      Keeps front w₁ start.exchanges.length y head verdict e := by
  obtain ⟨ho, -, -, x, hx, hrequest, halone⟩ := h.alone hstart heligible
  obtain ⟨x', outcome, hx', hstage, hmiss, hhead⟩ := hm.outcome
  obtain rfl : x = x' := Option.some.inj (hx.symm.trans hx')
  cases halone with
  | looking h =>
    obtain ⟨held, -, hhit, -⟩ := h.unasked.replays ho hx hstage
    simp [hmiss] at hhit
  | awaiting h =>
    obtain ⟨visit, draft, hstage'⟩ := h.stage
    simp [hstage] at hstage'
  | answered h =>
    obtain ⟨f, hf, hjudged⟩ := h.judged
    rw [Exchange.client, hf] at hhead
    have hannounced := (ho.watched _ x f hx hf).announced.trans hhead
    rcases hjudged with ⟨hnone, -⟩ | ⟨head', hhead', hkeep⟩
    · simp [hannounced] at hnone
    · obtain rfl := Option.some.inj (hannounced.symm.trans hhead')
      obtain ⟨w₁, y, e, hmem, hk⟩ := hkeep verdict hm.judged hm.cacheable hfaults
      rcases List.mem_append.1 hmem with hmem | hmem
      · obtain ⟨w₀, -, hrun⟩ := hstart.run
        have hlt := (List.getElem?_eq_some_iff.1 hk.exchange).1
        exact absurd ((length_le_of_run hrun).2 _ hmem) (Nat.not_le.2 hlt)
      · exact ⟨w₁, y, e, hmem, hk⟩

/-- **When a request that comes alone is a hit.**  A request that goes through the cache comes to a
world at rest, with a store in memory; the clock stands still and nothing else arrives.  Then its
exchange can go on until it is over, but does not go on for ever; and when it is over,

* it was a hit for which the origin was not asked exactly if the first entry under its key that has
  not expired and answers it is public;
* so it was one exactly if any public entry would have suited it, save where such an entry is
  concealed by a private one before it;
* and if it was a miss whose response is cacheable, and the same request comes once more while that
  has not expired, then it recalls this response exactly if no other entry that was there before
  suits it then, but for the one that the response has taken the place of. -/
theorem hit_alone (hstart : Rested front t₀ start) (heligible : front.eligible request = true)
    (hfaults : front.faults = {}) (h : Solo front start request t w) :
    (w.Over ∨ (∃ (i : Nat) (actor : Actor) (w' : World), w.step front i actor = some w') ∨
      ∃ (i : Nat) (x : Exchange), w.exchanges[i]? = some x ∧ x.waits w.gates = true) ∧
    Acc (fun w' w => Steps front w w') w ∧
    (w.Over →
      (FromStore start w ↔
        ∃ h, start.firstSuited request = some h ∧ h.entry.isPublic = true) ∧
      ((FromStore start w ↔ ∃ h, start.Suits request h ∧ h.entry.isPublic = true) ↔
        ¬ Conceals start request) ∧
      ∀ head verdict now w₂ t' w', Missed front request start w head verdict →
        w.happen front (.tick now) = some w₂ → verdict.expiresAt.le now = false →
        Solo front w₂ request t' w' → w'.Over →
        ∃ w₁ y e, (w₁, .step start.exchanges.length .front) ∈ t ∧
          Keeps front w₁ start.exchanges.length y head verdict e ∧
          (Recalls front request w₂ ⟨w₁.store.nextId, e⟩ head (t.passed start.exchanges.length)
              t' w' ↔
            ∀ g ∈ start.store.variantsOf request.cacheKey, g.entry.expired now = false →
              g.entry.answers request.headers = true → start.firstSuited request = some g)) := by
  obtain ⟨ho, -⟩ := h.alone hstart heligible
  refine ⟨ho.progress, ho.terminates, fun hover => ⟨?_, ?_, ?_⟩⟩
  · rw [← not_misses_iff]
    exact h.fromStore_iff hstart heligible hover
  · rw [h.fromStore_iff hstart heligible hover]
    constructor
    · rintro hiff ⟨hmisses, hsuits⟩
      exact hiff.2 hsuits hmisses
    · intro hno
      refine ⟨exists_suits_of_not_misses, fun hsuits hmisses => hno ⟨hmisses, hsuits⟩⟩
  · intro head verdict now w₂ t' w' hm htick hfresh h' hover'
    obtain ⟨w₁, y, e, hmem, hk⟩ := h.keeps hstart heligible hm (by simp [hfaults])
    have hexpired : e.expired now = false := by
      rw [Entry.expired, (hk.opened hm.cacheable).2.1, hfresh]
    exact ⟨w₁, y, e, hmem, hk,
      h.recalled_iff hstart heligible hover hmem hk hm.cacheable htick hexpired h' hover'
        (by simp [hfaults])⟩

end Run

/-! ## Calls that are followed -/

/-- The request comes, and its exchange takes turns. -/
def call (front : Front) (request : Request) (turns : List (Actor × Nat)) (start : World) :
    Option (History × World) :=
  (follow (World.happen front) (start.arrive request { link := .tape {} } none)
    (turns.flatMap fun c => List.replicate c.2 (.step start.exchanges.length c.1))).map fun r =>
      ((start, .arrive request { link := .tape {} } none) :: r.1, r.2)

theorem solo_of_call {front : Front} {request : Request} {turns : List (Actor × Nat)}
    {start : World} {r : History × World} (h : call front request turns start = some r) :
    Solo front start request r.1 r.2 := by
  obtain ⟨r, hr, rfl⟩ := Option.map_eq_some_iff.1 h
  refine ⟨{ link := .tape {} }, none, r.1, rfl, rfl, rfl, run_of_follow hr, fun p hp => ?_⟩
  have hmem := map_snd_of_follow hr ▸ List.mem_map_of_mem hp
  obtain ⟨c, -, hc⟩ := List.mem_flatMap.1 hmem
  rw [(List.mem_replicate.1 hc).2]
  exact ⟨by simp, by simp⟩

theorem over_of_all {w : World} (h : w.exchanges.all Exchange.isOver = true) : w.Over :=
  fun _ _ hx => List.all_eq_true.1 h _ (List.mem_of_getElem? hx)

/-- The exchange of this number is a miss with this head. -/
def endsMissed (w : World) (i : Nat) (head : Head) : Bool :=
  (w.exchanges[i]?).any fun x =>
    x.outcome?.any (fun o => o.cache = .miss) && x.client.head = some head

theorem missed_of_endsMissed {front : Front} {request : Request} {start w : World} {head : Head}
    {verdict : Cacheability} (h : w.endsMissed start.exchanges.length head = true)
    (hpol : front.policy request head start.clock = .ok verdict) (hv : verdict.cacheable = true) :
    Missed front request start w head verdict := by
  simp only [endsMissed, Option.any_eq_true, Bool.and_eq_true, decide_eq_true_eq] at h
  obtain ⟨x, hx, ⟨outcome, houtcome, hmiss⟩, hhead⟩ := h
  refine ⟨⟨x, outcome, hx, ?_, hmiss, hhead⟩, hpol, hv⟩
  rw [Exchange.outcome?] at houtcome
  split at houtcome
  · next hstage => rw [hstage, Option.some.inj houtcome]
  · simp at houtcome

/-- The turns in which a response of one chunk is fetched. -/
def fetching : List (Actor × Nat) :=
  [(.front, 10), (.origin, 5), (.front, 6), (.copier, 4), (.front, 2)]

/-- A request that comes twice, the second time when the response has a second left, is answered
with the chunk that was passed on for the first. -/
theorem hit_alone_twice :
    ∃ (t t' : History) (w w₂ w' : World) (request : Request), Solo oneChunk {} request t w ∧
      w.happen oneChunk (.tick ⟨9, 0⟩) = some w₂ ∧ Solo oneChunk w₂ request t' w' ∧
      FromStore w₂ w' ∧ t'.received w₂.exchanges.length = t.passed 0 ∧
      t'.received w₂.exchanges.length = [[1]] := by
  have hcalls : ((call oneChunk { method := .get, uri := .asterisk } fetching {}).any fun r =>
      (r.2.happen oneChunk (.tick ⟨9, 0⟩)).any fun w₂ =>
        (call oneChunk { method := .get, uri := .asterisk } [(.front, 18)] w₂).any fun r' =>
          r.2.exchanges.all Exchange.isOver && r.2.endsMissed 0 ⟨.ok, {}⟩ &&
            r'.2.exchanges.all Exchange.isOver &&
            r'.1.writes w₂.exchanges.length == [([1], none)]) = true := by
    decide +kernel
  simp only [Option.any_eq_true, Bool.and_eq_true, beq_iff_eq] at hcalls
  obtain ⟨r, hr, w₂, htick, r', hr', ⟨⟨hover, hmissed⟩, hover'⟩, hwrites⟩ := hcalls
  have h := solo_of_call hr
  have h' := solo_of_call hr'
  have hstart : Rested oneChunk [] {} := ⟨⟨{}, ⟨rfl, rfl, rfl⟩, .start⟩, by simp, by simp⟩
  obtain ⟨-, -, hend⟩ := hit_alone hstart rfl rfl h
  obtain ⟨-, -, hnext⟩ := hend (over_of_all hover)
  obtain ⟨w₁, y, e, -, -, hrecalls⟩ := hnext _ ⟨true, ⟨10, 0⟩⟩ ⟨9, 0⟩ w₂ _ _
    (missed_of_endsMissed hmissed rfl rfl) htick rfl h' (over_of_all hover')
  have hrecall := hrecalls.2 (by simp [Store.variantsOf, Store.slotOf])
  refine ⟨r.1, r'.1, r.2, w₂, r'.2, _, h, htick, h', hrecall.fromStore, hrecall.received ?_, ?_⟩
  · simp [hwrites]
  · simp [History.received, hwrites]

/-- A front that keeps a response of one chunk, but not two that say what they depend on. -/
def twoMissing : Front := .byDefault {} none fun i _ =>
  match i with
  | 0 => .edit (·.append .vary (bytes "te")) (.commit .notFound (.done (.ok .notFound)))
  | 1 => .edit (·.append .vary (bytes "referer")) (.commit .notFound (.done (.ok .notFound)))
  | _ => .commit .ok (.write [1] fun _ => .done (.ok .ok))

/-- A request with two fields. -/
def withFields (te referer : String) : Request :=
  { method := .get, uri := .asterisk, headers := ⟨[(.te, bytes te), (.referer, bytes referer)]⟩ }

/-- The turns in which a response without a body is fetched. -/
def fetchingHead : List (Actor × Nat) :=
  [(.front, 10), (.origin, 4), (.front, 6), (.copier, 1), (.front, 2)]

/-- **A public entry that is not found.**  Two entries that may not be replayed are there, both of
which would answer a third request.  The response to that takes the place of the first and stands
behind the second, so that the same request asks the origin once more. -/
theorem conceals_twoMissing :
    ∃ (t₀ t t' : History) (start w w' : World) (request : Request) (head : Head)
      (verdict : Cacheability), Rested twoMissing t₀ start ∧ twoMissing.eligible request = true ∧
      twoMissing.faults = {} ∧ Solo twoMissing start request t w ∧
      Missed twoMissing request start w head verdict ∧ verdict.expiresAt.le w.clock = false ∧
      Rested twoMissing (t₀ ++ t) w ∧ Solo twoMissing w request t' w' ∧ w'.Over ∧
      (∃ h, w.Suits request h ∧ h.entry.isPublic = true) ∧ ¬ FromStore w w' := by
  have hcalls : ((call twoMissing (withFields "1" "2") fetchingHead {}).any fun r₁ =>
      (call twoMissing (withFields "2" "1") fetchingHead r₁.2).any fun r₂ =>
        (call twoMissing (withFields "1" "1") fetching r₂.2).any fun r₃ =>
          (call twoMissing (withFields "1" "1") fetching r₃.2).any fun r₄ =>
            r₁.2.exchanges.all Exchange.isOver && r₂.2.exchanges.all Exchange.isOver &&
              r₃.2.exchanges.all Exchange.isOver && r₄.2.exchanges.all Exchange.isOver &&
              r₃.2.endsMissed r₂.2.exchanges.length ⟨.ok, {}⟩ && r₂.2.clock = ⟨0, 0⟩ &&
              r₃.2.clock = ⟨0, 0⟩ && r₄.2.calls != r₃.2.calls &&
              (r₃.2.store.variantsOf (withFields "1" "1").cacheKey).any fun h =>
                !h.entry.expired r₃.2.clock && h.entry.answers (withFields "1" "1").headers &&
                  h.entry.isPublic) = true := by
    decide +kernel
  simp only [Option.any_eq_true, Bool.and_eq_true, bne_iff_ne, decide_eq_true_eq, List.any_eq_true,
    Bool.not_eq_true'] at hcalls
  obtain ⟨r₁, hr₁, r₂, hr₂, r₃, hr₃, r₄, hr₄, ⟨⟨⟨⟨⟨⟨⟨hover₁, hover₂⟩, hover₃⟩, hover₄⟩, hmissed⟩,
    hclock₂⟩, hclock₃⟩, hcalls⟩, h, hmem, ⟨hfresh, hanswers⟩, hpublic⟩ := hcalls
  have hsolo₁ := solo_of_call hr₁
  have hsolo₂ := solo_of_call hr₂
  have hsolo₃ := solo_of_call hr₃
  have hblank : Rested twoMissing [] {} := ⟨⟨{}, ⟨rfl, rfl, rfl⟩, .start⟩, by simp, by simp⟩
  have hrested₁ := hblank.extend hsolo₁.run hsolo₁.tidy (over_of_all hover₁)
  have hrested₂ := hrested₁.extend hsolo₂.run hsolo₂.tidy (over_of_all hover₂)
  have hrested₃ := hrested₂.extend hsolo₃.run hsolo₃.tidy (over_of_all hover₃)
  have hpolicy : twoMissing.policy (withFields "1" "1") ⟨.ok, {}⟩ r₂.2.clock =
      .ok ⟨true, ⟨600, 0⟩⟩ := by
    rw [hclock₂]
    rfl
  exact ⟨_, r₃.1, r₄.1, r₂.2, r₃.2, r₄.2, _, _, _, hrested₂, rfl, rfl, hsolo₃,
    missed_of_endsMissed hmissed hpolicy rfl, by rw [hclock₃]; rfl, hrested₃, solo_of_call hr₄,
    over_of_all hover₄, ⟨h, ⟨hmem, hfresh, hanswers⟩, hpublic⟩, fun hfrom => hcalls hfrom.2⟩

end World
end EdgeCache
