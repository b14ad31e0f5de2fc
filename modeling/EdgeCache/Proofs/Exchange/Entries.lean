import EdgeCache.Proofs.Exchange.Hits
import EdgeCache.Proofs.Store.Choices
import EdgeCache.Proofs.Variant.Keys

/-!
# What the store holds

Everything under a key was put there by an exchange, in the one step in which the head of its
response was judged (`Files`).  From this step on neither the entry nor the head of the exchange
changes, so all that the step says of the entry holds as long as the entry is there: `stored_entry`.

`Filed.variantsOf_cases` says what a happening makes of the variants of a key: it takes some out, or
an exchange stores its entry, in place of the first one that would have answered its request.
`resource_of_hit` says whose response a hit is answered with, as far as keys tell requests apart.
-/

set_option autoImplicit false

namespace EdgeCache
namespace World

/-! ## Worlds with a store in order -/

/-- A world in order, in whose store entries have numbers and producers build what they should. -/
structure Filed (front : Front) (t : History) (w : World) : Prop where
  orderly : Orderly front t w
  numbered : w.store.Numbered
  fitting : w.store.Fitting

/-- By a happening an exchange stores the entry under the key, and under the next number. -/
def Files (front : Front) (key : Bytes) (held : Held) (p : World × Happening) : Prop :=
  ∃ j y v, p.2 = .step j .front ∧ p.1.exchanges[j]? = some y ∧ y.key = key ∧
    Stores front p.1 y v held.entry ∧ held.id = p.1.store.nextId

section Turn

variable {front : Front} {t : History} {w w' b : World} {i : Nat} {x x' : Exchange} {actor : Actor}
  {s : Store} {a : Happening}

/-- While an exchange is about to store an entry, its visit has a slot to itself. -/
theorem Stores.producing {v : Nat} {e : Entry} {u : Store.Visit} (hs : Stores front w x v e)
    (hc : Course front t w i x) (hu : w.store.visits[v]? = some u) :
    ∃ slot previous, u.phase = .producing slot previous := by
  obtain ⟨draft, f, head, verdict, hstage, -⟩ := hs
  obtain ⟨slot, previous, f', expiration, hphase, -⟩ := hc.fetching hstage
  rw [Store.phaseOf_eq hu, Option.some.injEq] at hphase
  exact ⟨slot, previous, hphase⟩

theorem Filed.happen (hw : Filed front t w) (h : w.happen front a = some w') (htidy : Tidy a) :
    Filed front (t ++ [(w, a)]) w' where
  orderly := hw.orderly.happen h htidy
  numbered := numbered_happen hw.numbered h
  fitting := by
    rcases happen_cases h with ⟨i, actor, x, x', b, rfl, hx, ht, rfl⟩ | hout
    · rw [put_store]
      rcases ht.store.move_stores with hs | ⟨m, hm, hstores⟩
      · rw [hs]
        exact hw.fitting
      · refine hw.fitting.move hw.orderly.attended.sound hm fun v e u hme hu => ?_
        exact (hstores v e hme).2.producing (hw.orderly.course i x hx) hu
    · rw [hout.store]
      exact hw.fitting

theorem Filed.of_run {w₀ : World} (h₀ : w₀.Blank) (hrun : Run (World.happen front) w₀ t w)
    (htidy : ∀ p ∈ t, Tidy p.2) : Filed front t w := by
  induction hrun with
  | start =>
    refine ⟨h₀.orderly front, ?_, ?_⟩
    · rw [h₀.store]
      exact Store.numbered_empty
    · rw [h₀.store]
      exact Store.fitting_empty
  | @next t s₁ s₂ a _ ha ih =>
    refine Filed.happen (ih fun p hp => htidy p ?_) ha (htidy (s₁, a) ?_)
    · exact List.mem_append_left _ hp
    · exact List.mem_append_right _ (List.mem_singleton_self _)

/-- What was so in order when a happening of the run was about to happen. -/
theorem Filed.of_mem {w₀ : World} {p : World × Happening} (h₀ : w₀.Blank)
    (hrun : Run (World.happen front) w₀ t w) (htidy : ∀ p ∈ t, Tidy p.2) (hp : p ∈ t) :
    ∃ t₁, Run (World.happen front) w₀ t₁ p.1 ∧ Filed front t₁ p.1 ∧ ∀ q ∈ t₁, q ∈ t := by
  obtain ⟨t₁, t₂, w₂, rfl, hrun₁, -⟩ := hrun.split hp
  have hmem : ∀ q ∈ t₁, q ∈ t₁ ++ p :: t₂ := fun q hq => List.mem_append_left _ hq
  exact ⟨t₁, hrun₁, .of_run h₀ hrun₁ fun q hq => htidy q (hmem q hq), hmem⟩

/-! ## How the variants of a key change -/

theorem Filed.variantsOf_turn (hw : Filed front t w) (hx : w.exchanges[i]? = some x)
    (ht : Turn front w i x actor x' b) (key : Bytes) :
    (∀ h ∈ b.store.variantsOf key, h ∈ w.store.variantsOf key) ∨
      ∃ v e, actor = .front ∧ x.key = key ∧ Stores front w x v e ∧
        b.store.variantsOf key =
          Store.kept ((w.store.variantsOf key).find? fun h => h.entry.answers x.request.headers)
            (w.store.variantsOf key) ++ [⟨w.store.nextId, e⟩] := by
  have hsound := hw.orderly.attended.sound
  by_cases hactor : actor = .front
  · rcases ht.store.move_stores with hs | ⟨m, hm, hstores⟩
    · exact .inl fun h hh => by rwa [hs] at hh
    · rcases Store.move_cases hm with ⟨_, _, -, hs⟩ | ⟨-, -, hs⟩ | ⟨v, u, p, c, hu, hturn, hgoes⟩
      · refine .inl fun h hh => ?_
        rw [hs] at hh
        exact hh
      · exact .inl fun h hh => by rwa [hs] at hh
      · rw [hgoes.variantsOf]
        rcases hturn.variantsOf_cases hsound hu key with hsame | ⟨_, _, -, -, -, hswept⟩ |
          ⟨previous, e, hst, hkey, hstored⟩
        · exact .inl fun h hh => hsame ▸ hh
        · refine .inl fun h hh => ?_
          rw [hswept] at hh
          exact (List.mem_filter.1 hh).1
        · obtain ⟨rfl, hfirst⟩ := hw.fitting.stores hu hst
          obtain ⟨hvisit, hstores⟩ := hstores v e rfl
          obtain ⟨u', hu', hkey', haccepts⟩ := hw.orderly.attended.own i x v hx hvisit
          obtain rfl : u = u' := Option.some.inj (hu.symm.trans hu')
          rw [hkey, haccepts] at hfirst
          exact .inr ⟨v, e, hactor, hkey'.symm.trans hkey, hstores, by rw [hstored, ← hfirst]⟩
  · rw [ht.store_of_ne hactor]
    exact .inl fun _ => id

/-- The entry that an exchange stores has the headers of its request. -/
theorem Filed.requestHeaders (hw : Filed front t w) (hx : w.exchanges[i]? = some x) {v : Nat}
    {e : Entry} (hs : Stores front w x v e) : e.requestHeaders = x.request.headers := by
  obtain ⟨head, verdict, hk⟩ := hs.keeps hx (hw.orderly.course i x hx)
  exact hk.requestHeaders

/-- **What a happening makes of the variants of a key.**  It puts nothing new there, or an exchange
stores an entry, in place of the first one that would have answered its request. -/
theorem Filed.variantsOf_cases (hw : Filed front t w) (h : w.happen front a = some w')
    (key : Bytes) :
    (∀ h ∈ w'.store.variantsOf key, h ∈ w.store.variantsOf key) ∨
      ∃ e, Files front key ⟨w.store.nextId, e⟩ (w, a) ∧
        w'.store.variantsOf key =
          Store.kept ((w.store.variantsOf key).find? fun h => h.entry.answers e.requestHeaders)
            (w.store.variantsOf key) ++ [⟨w.store.nextId, e⟩] := by
  rcases happen_cases h with ⟨i, actor, x, x', b, rfl, hx, ht, rfl⟩ | hout
  · rw [put_store]
    rcases hw.variantsOf_turn hx ht key with hsub | ⟨v, e, rfl, hkey, hs, hstored⟩
    · exact .inl hsub
    · rw [← hw.requestHeaders hx hs] at hstored
      exact .inr ⟨e, ⟨i, x, v, rfl, hx, hkey, hs, rfl⟩, hstored⟩
  · rw [hout.store]
    exact .inl fun _ => id

/-- Everything under a key has been put there by an exchange of the run. -/
theorem files_of_mem {w₀ : World} {key : Bytes} (h₀ : w₀.Blank)
    (hrun : Run (World.happen front) w₀ t w) (htidy : ∀ p ∈ t, Tidy p.2) :
    ∀ held ∈ w.store.variantsOf key, ∃ p ∈ t, Files front key held p := by
  induction hrun with
  | start => simp [h₀.store, Store.variantsOf, Store.slotOf]
  | @next t s₁ s₂ a hrun ha ih =>
    have htidy₁ : ∀ p ∈ t, Tidy p.2 := fun p hp => htidy p (List.mem_append_left _ hp)
    have hold : ∀ held ∈ s₁.store.variantsOf key, ∃ p ∈ t ++ [(s₁, a)], Files front key held p := by
      intro held hh
      obtain ⟨p, hp, hfiles⟩ := ih htidy₁ held hh
      exact ⟨p, List.mem_append_left _ hp, hfiles⟩
    intro held hh
    rcases (Filed.of_run h₀ hrun htidy₁).variantsOf_cases ha key with hsub | ⟨e, hfiles, hstored⟩
    · exact hold held (hsub held hh)
    · rw [hstored, List.mem_append, List.mem_singleton] at hh
      rcases hh with hh | rfl
      · exact hold held (Store.mem_of_mem_kept hh)
      · exact ⟨_, List.mem_append_right _ (List.mem_singleton_self _), hfiles⟩

/-! ## The draft of an entry -/

/-- The exchange has asked its origin, at a time from which on the draft lasts for the default
lifetime. -/
def Drafts (front : Front) (t : History) (i : Nat) (draft : Entry) : Prop :=
  ∃ p ∈ t, Asks front i p ∧
    p.1.clock.add? front.settings.defaultWindow = some draft.expiration

theorem Drafts.mono {t' : History} {draft : Entry} (h : Drafts front t i draft)
    (ht : ∀ p ∈ t, p ∈ t') : Drafts front t' i draft := by
  obtain ⟨p, hp, hasks⟩ := h
  exact ⟨p, ht p hp, hasks⟩

theorem Turn.drafts (hx : w.exchanges[i]? = some x) (ht : Turn front w i x actor x' b) {v : Nat}
    {draft : Entry} (hstage : x'.stage = .fetching v draft) :
    x.stage = .fetching v draft ∨ Drafts front [(w, .step i actor)] i draft := by
  cases ht with
  | @ask visit previous expiration h hh hprivate hexp =>
    obtain ⟨-, rfl⟩ := Stage.fetching.inj hstage
    exact .inr ⟨_, List.mem_singleton_self _, ⟨x, visit, previous, expiration, rfl, hx, h, hh,
      hprivate, hexp⟩, hexp⟩
  | step | relayPartly | origin | drain | drained | pump | pumped | writeFail | write | stop =>
    exact .inl hstage
  | _ => simp at hstage

/-- An exchange that awaits a head has asked for it in the run. -/
theorem drafts_of_fetching {w₀ : World} (h₀ : w₀.Blank) (hrun : Run (World.happen front) w₀ t w) :
    ∀ i x v draft, w.exchanges[i]? = some x → x.stage = .fetching v draft →
      Drafts front t i draft := by
  induction hrun with
  | start => simp [h₀.exchanges]
  | @next t s₁ s₂ a hrun ha ih =>
    intro i x v draft hx hstage
    have hold : ∀ y, s₁.exchanges[i]? = some y → y.stage = .fetching v draft →
        Drafts front (t ++ [(s₁, a)]) i draft := fun y hy hstage =>
      (ih i y v draft hy hstage).mono fun p hp => List.mem_append_left _ hp
    rcases happen_cases ha with ⟨j, actor, y, y', b, rfl, hy, ht, rfl⟩ | hout
    · rcases ht.exchange_cases hx with ⟨rfl, rfl⟩ | ⟨-, hx⟩
      · rcases ht.drafts hy hstage with hstage | hdrafts
        · exact hold y hy hstage
        · exact hdrafts.mono fun p hp => List.mem_append_right _ hp
      · exact hold x hx hstage
    · rcases hout.exchange i x hx with ⟨y, hy, hr⟩ | ⟨request, client, access, -, -, rfl⟩
      · exact hold y hy (hr.stage ▸ hstage)
      · simp at hstage

/-! ## The head of a response -/

/-- The exchange has this request, and its origin has committed this head. -/
def Commits (request : Request) (head : Head) (y : Exchange) : Prop :=
  y.request = request ∧ ∃ f, y.fetch = some f ∧ f.tee.announced = some head

theorem Commits.happen {request : Request} {head : Head} {j : Nat} {y : Exchange}
    (h : Commits request head y) (ho : Orderly front t w) (hy : w.exchanges[j]? = some y)
    (ha : w.happen front a = some w') :
    ∃ y', w'.exchanges[j]? = some y' ∧ Commits request head y' := by
  obtain ⟨hrequest, f, hf, hann⟩ := h
  rcases happen_cases ha with ⟨i, actor, x, x', b, rfl, hx, ht, rfl⟩ | hout
  · by_cases hij : j = i
    · subst hij
      obtain rfl : x = y := Option.some.inj (hx.symm.trans hy)
      obtain ⟨f', hf', hannounced, -⟩ := ho.announced_turn hx ht hf
      exact ⟨x', ht.exchange_self hx, ht.request.trans hrequest, f', hf', hannounced head hann⟩
    · exact ⟨y, (ht.exchange_ne hij).trans hy, hrequest, f, hf, hann⟩
  · obtain ⟨y', hy', hr⟩ := hout.still j y hy
    obtain ⟨link, hf'⟩ := hr.fetch_eq_some hf
    exact ⟨y', hy', hr.request.trans hrequest, _, hf', hann⟩

/-- What an exchange has committed at a time of the run it has committed at the end. -/
theorem Commits.persist {w₀ w₁ : World} {a₁ : Happening} {request : Request} {head : Head} {j : Nat}
    {y : Exchange} (h₀ : w₀.Blank) (hrun : Run (World.happen front) w₀ t w)
    (htidy : ∀ p ∈ t, Tidy p.2) (hmem : (w₁, a₁) ∈ t) (hy : w₁.exchanges[j]? = some y)
    (h : Commits request head y) :
    ∃ y', w.exchanges[j]? = some y' ∧ Commits request head y' := by
  refine persists (P := fun w => ∃ y', w.exchanges[j]? = some y' ∧ Commits request head y')
    h₀ hrun htidy hmem (fun t₁ w₂ ho hstep => h.happen ho hy hstep) ?_
  rintro t w a w' ho ⟨y', hy', h⟩ hmove
  exact h.happen ho hy' hmove

/-- **Whom a hit is answered with.**  The request of another exchange, which has asked its origin,
has the same method and the same resource, or the host of one of the two reaches over into the path
of the other. -/
theorem resource_of_hit {w₀ : World} {outcome : Handled} (h₀ : w₀.Blank)
    (hrun : Run (World.happen front) w₀ t w) (htidy : ∀ p ∈ t, Tidy p.2)
    (hx : w.exchanges[i]? = some x) (hfinished : x.stage = .finished outcome)
    (hhit : outcome.cache = .hit)
    (hreadable : ∀ (j : Nat) (y : Exchange), w.exchanges[j]? = some y → y.request.uri.Readable) :
    ∃ (j : Nat) (y : Exchange), w.exchanges[j]? = some y ∧ (∃ p ∈ t, Asks front j p) ∧
      y.request.method = x.request.method ∧
      (y.request.SameResource x.request ∨ y.request.Overruns x.request ∨
        x.request.Overruns y.request) := by
  have ho : Orderly front t w := Orderly.of_run hrun h₀ htidy
  obtain ⟨hsettled, hcache, -⟩ := (ho.course i x hx).finished hfinished
  rw [hhit] at hcache
  obtain ⟨e, hr⟩ : ∃ e, Replays front t i x e := by
    rcases hsettled with ⟨e, hr, -⟩ | ⟨hmiss, -⟩ | ⟨hskip, -⟩
    · exact ⟨e, hr⟩
    · simp [← hcache] at hmiss
    · simp [← hcache] at hskip
  obtain ⟨w₁, j, y, head, verdict, hmem, hkey, hk⟩ := hr.kept
  obtain ⟨visit, draft, f, -, hf, hann⟩ := hk.fetching
  obtain ⟨y', hy', hrequest, f', hf', -⟩ :=
    Commits.persist h₀ hrun htidy hmem hk.exchange ⟨rfl, f, hf, hann⟩
  rw [Exchange.key, Exchange.key, ← hrequest] at hkey
  obtain ⟨hmethod, hplace⟩ := Request.method_eq_of_cacheKey_eq hkey
  exact ⟨j, y', hy', (ho.watched j y' f' hy' hf').asked, hmethod,
    (Request.host_place_eq_iff (hreadable j y' hy') (hreadable i x hx)).1 hplace⟩

/-- A stored head has no indicator. -/
theorem values_kept (front : Front) (head : Head) {name : HeaderName}
    (h : front.indicator = some name) : (front.kept head).headers.values name = [] := by
  simp [Front.kept, Front.unmark, h]

theorem pinned_happen {held : Held} (hp : w.store.Pinned held) (h : w.happen front a = some w') :
    w'.store.Pinned held := by
  rcases store_happen h with hs | ⟨m, hm⟩
  · rwa [hs]
  · exact hp.move hm

/-- What is stored is not changed. -/
theorem Filed.eq_of_id_eq {t' : History} {key key' : Bytes} {held held' : Held}
    (hw : Filed front t w) (hheld : held ∈ w.store.variantsOf key)
    (hrun : Run (World.happen front) w t' w') (hheld' : held' ∈ w'.store.variantsOf key')
    (hid : held'.id = held.id) : held' = held := by
  have hpinned : w'.store.Pinned held :=
    hrun.invariant (P := fun w => w.store.Pinned held) (fun hp h => pinned_happen hp h)
      (hw.numbered.pinned hheld)
  exact hpinned.eq held' (Store.stored_iff.2 hheld').knows hid

/-- **What is true of every entry in the store.**  An exchange for its key has stored it, in a step
of the run in which the policy has judged the head of its response;

* its status and headers are those that the origin of this exchange has committed for the request,
  without the values of the indicator, of which it has none;
* its request headers are those of the request;
* it is public exactly if the head was judged cacheable, and exactly if it has a body;
* it lasts as long as the policy said if it is public, and else for the default lifetime from the
  time when the origin was asked;
* and whatever happens afterwards, an entry of its number that is found in the store is this one. -/
theorem stored_entry {w₀ : World} {key : Bytes} {held : Held} (h₀ : w₀.Blank)
    (hrun : Run (World.happen front) w₀ t w) (htidy : ∀ p ∈ t, Tidy p.2)
    (hheld : held ∈ w.store.variantsOf key) :
    ∃ (w₁ : World) (j : Nat) (y y' : Exchange) (head : Head) (verdict : Cacheability),
      (w₁, .step j .front) ∈ t ∧ w₁.exchanges[j]? = some y ∧ y.key = key ∧
      w.exchanges[j]? = some y' ∧ y'.request = y.request ∧ y'.client.head = some head ∧
      held.entry.head = ⟨head.status, front.unmark head.headers⟩ ∧
      (∀ name, front.indicator = some name → held.entry.head.headers.values name = []) ∧
      (∀ name, front.indicator ≠ some name →
        held.entry.head.headers.values name = head.headers.values name) ∧
      held.entry.requestHeaders = y.request.headers ∧
      front.policy y.request head w₁.clock = .ok verdict ∧
      held.entry.isPublic = verdict.cacheable ∧ held.entry.body.isSome = verdict.cacheable ∧
      (held.entry.isPublic = true → held.entry.expiration = verdict.expiresAt) ∧
      (∃ p ∈ t, Asks front j p ∧ (held.entry.isPublic = false →
        p.1.clock.add? front.settings.defaultWindow = some held.entry.expiration)) ∧
      ∀ t' w' key' held', Run (World.happen front) w t' w' → held' ∈ w'.store.variantsOf key' →
        held'.id = held.id → held' = held := by
  obtain ⟨⟨w₁, a₁⟩, hp, j, y, v, rfl, hy, hkey, hstores, -⟩ := files_of_mem h₀ hrun htidy held hheld
  obtain ⟨t₁, hrun₁, hw₁, hsub⟩ := Filed.of_mem h₀ hrun htidy hp
  -- the step in which the entry was stored
  obtain ⟨head, verdict, hk⟩ := hstores.keeps hy (hw₁.orderly.course j y hy)
  obtain ⟨draft, f, head', verdict', hstage, hf, hann, hpol, hcases⟩ := hstores
  obtain ⟨visit, draft', f', hstage', hf', hann'⟩ := hk.fetching
  obtain rfl : f = f' := Option.some.inj (hf.symm.trans hf')
  obtain rfl : head = head' := Option.some.inj (hann'.symm.trans hann)
  obtain rfl : verdict = verdict' := Except.ok.inj (hk.judged.symm.trans hpol)
  have hdrafts : Drafts front t j draft :=
    (drafts_of_fetching h₀ hrun₁ j y v draft hy hstage).mono hsub
  obtain ⟨p, hpmem, hasks, hlasts⟩ := hdrafts
  -- the exchange at the end of the run
  obtain ⟨y', hy', hrequest, f', hf', hann'⟩ :=
    Commits.persist h₀ hrun htidy hp hy ⟨rfl, f, hf, hann⟩
  have hw : Filed front t w := .of_run h₀ hrun htidy
  have hclient : y'.client.head = some head := by
    rw [Exchange.client, hf']
    exact (hw.orderly.watched j y' f' hy' hf').announced.symm.trans hann'
  refine ⟨w₁, j, y, y', head, verdict, hp, hy, hkey, hy', hrequest, hclient, hk.head,
    fun name hname => hk.head ▸ values_kept front head hname,
    fun name hname => hk.head ▸ values_unmark front head.headers hname, hk.requestHeaders,
    hk.judged, hk.isPublic, ?_, ?_, ⟨p, hpmem, hasks, ?_⟩,
    fun t' w' key' held' hrun' hheld' hid => hw.eq_of_id_eq hheld hrun' hheld' hid⟩
  · cases hv : verdict.cacheable with
    | true => rw [(hk.opened hv).2.2, Option.isSome_some]
    | false => rw [hk.bare hv, Option.isSome_none]
  · intro hpublic
    exact (hk.opened (hk.isPublic.symm.trans hpublic)).2.1
  · intro hprivate
    rcases hcases with ⟨-, he⟩ | ⟨hv, -⟩
    · rw [he]
      exact hlasts
    · simp [hk.isPublic, hv] at hprivate

end Turn

/-- A front whose origin puts a value of its own under the indicator. -/
def marking : Front :=
  { eligible := fun _ => true
    indicator := some .te
    policy := fun _ _ _ => .ok ⟨true, ⟨10, 0⟩⟩
    respond := fun _ _ => .edit (·.append .te [2]) (.commit .ok (.done (.ok .ok))) }

/-- As soon as the head of a response is known it is stored, for ten seconds and without the
indicator. -/
theorem stored_entry_marking :
    ∃ (t : History) (w : World) (request : Request) (held : Held),
      Run (World.happen marking) {} t w ∧ held ∈ w.store.variantsOf request.cacheKey ∧
      held.entry.isPublic = true ∧ held.entry.expiration = ⟨10, 0⟩ ∧
      held.entry.head.headers.values .te = [] ∧ held.entry.requestHeaders = request.headers := by
  have hcall : ((call marking (withFields "1" "2")
      [(.front, 10), (.origin, 2), (.front, 1)] {}).any fun r =>
      (r.2.store.variantsOf (withFields "1" "2").cacheKey).any fun held =>
        held.entry.requestHeaders = (withFields "1" "2").headers) = true := by
    decide +kernel
  simp only [Option.any_eq_true, List.any_eq_true, decide_eq_true_eq] at hcall
  obtain ⟨r, hr, held, hheld, hheaders⟩ := hcall
  have hsolo := solo_of_call hr
  obtain ⟨w₁, j, y, y', head, verdict, -, -, -, -, -, -, -, hbare, -, -, hpol, hpublic, -, hlasts,
    -⟩ :=
    stored_entry ⟨rfl, rfl, rfl⟩ hsolo.run hsolo.tidy hheld
  obtain rfl : ⟨true, ⟨10, 0⟩⟩ = verdict := Except.ok.inj hpol
  exact ⟨r.1, r.2, _, held, hsolo.run, hheld, hpublic, hlasts hpublic, hbare .te rfl, hheaders⟩

end World
end EdgeCache
