import EdgeCache.Proofs.Exchange.Mirrors

/-!
# What is shown of a key

A `Scene` is what a world shows of one key: the variants that are stored under it, and of every
request with the key the response as far as its client has it, the outcome once it is known, and
what the producer has been handed while it runs.  It mentions no number of a visit, an entry, or a
body; in place of the latter it has what a reader would find there.

A mirror of a world shows the same scene (`World.Mirrors.scene`).  So of everything that happens in
a run those who only know of the key see what they could have seen if there had been no other
requests (`World.exists_run_ofKey`).
-/

set_option autoImplicit false

namespace EdgeCache

/-- An entry, with what is found in its body in place of its number. -/
structure Shown where
  entry : Entry
  content : Option (List Bytes × Tail)

def Entry.shown (bodies : List Growing) (e : Entry) : Shown :=
  ⟨{ e with body := none }, e.body.map fun body => body.available bodies⟩

/-- What is shown of an exchange. -/
structure Sight where
  request : Request
  client : Client
  outcome : Option Handled
  /-- What the producer has been handed, while it runs. -/
  handed : Option (Option Shown)

/-- What is shown of a key. -/
structure Scene where
  clock : Instant
  variants : List Shown
  exchanges : List Sight

namespace World

def sight (w : World) (x : Exchange) : Sight where
  request := x.request
  client := x.client
  outcome := x.outcome?
  handed := (x.stage.visit?.bind w.store.handed).map
    fun previous => previous.map fun h => h.entry.shown w.bodies

/-- What the world shows of the key. -/
def scene (k : Bytes) (w : World) : Scene where
  clock := w.clock
  variants := (w.store.variantsOf k).map fun h => h.entry.shown w.bodies
  exchanges := (w.ofKey k).map w.sight

end World

/-! ## What is alike is shown as the same -/

section Shown

variable {k : Bytes} {L : Links} {w w' : World}

theorem map_eq_of_rel {α β γ : Type} {r : α → β → Prop} {f : α → γ} {g : β → γ} {l : List α}
    {l' : List β} (h : List.Forall₂ r l l') (hfg : ∀ {a b}, r a b → g b = f a) :
    l'.map g = l.map f := by
  induction h with
  | nil => rfl
  | cons hab _ ih => rw [List.map_cons, List.map_cons, hfg hab, ih]

theorem option_map_eq_of_rel {α β γ : Type} {r : α → β → Prop} {f : α → γ} {g : β → γ}
    {a : Option α} {b : Option β} (h : Option.Rel r a b) (hfg : ∀ {a b}, r a b → g b = f a) :
    b.map g = a.map f := by
  cases h with
  | some hab => rw [Option.map_some, Option.map_some, hfg hab]
  | none => rfl

theorem World.Alike.available (h : w.Alike k L w') {body body' : StoredBody}
    (hb : body.Alike L body') : body'.available w'.bodies = body.available w.bodies := by
  cases hb with
  | fixed => rfl
  | growing hid =>
    simp only [StoredBody.available, List.getD_eq_getElem?_getD, h.body hid]

theorem World.Alike.shown (h : w.Alike k L w') {e e' : Entry} (he : e.Alike L e') :
    e'.shown w'.bodies = e.shown w.bodies := by
  rw [Entry.shown, Entry.shown, option_map_eq_of_rel he.body fun hb => h.available hb,
    he.isPublic, he.expiration, he.requestHeaders, he.head]

theorem World.Alike.sight (h : w.Alike k L w') {x x' : Exchange} (hal : x.Alike L x') :
    w'.sight x' = w.sight x := by
  have hhanded : Option.Rel (Option.Rel (Held.Alike L)) (x.stage.visit?.bind w.store.handed)
      (x'.stage.visit?.bind w'.store.handed) := by
    have hv := hal.visit?
    generalize x.stage.visit? = v, x'.stage.visit? = v' at hv
    cases hv with
    | none => exact .none
    | some hv => exact h.store.handed hv
  rw [World.sight, World.sight, hal.request, hal.client, hal.outcome,
    option_map_eq_of_rel hhanded fun hp => option_map_eq_of_rel hp fun hh => h.shown hh.entry]

theorem Store.Mirrors.variantsOf {s s' : Store} (h : s.Mirrors k L s') :
    List.Forall₂ (Held.Alike L) (s.variantsOf k) (s'.variantsOf k) := by
  have hmap := h.map
  rw [Store.variantsOf, Store.variantsOf]
  generalize s.slotOf k = slot, s'.slotOf k = slot' at hmap
  cases hmap with
  | none => exact .nil
  | some ha => exact h.variants ha

namespace World

/-- In a mirror there are no exchanges but those of the key. -/
theorem Mirrors.ofKey (h : w.Mirrors k L w') : w'.ofKey k = w'.exchanges := by
  refine List.filter_eq_self.2 fun x' hx' => ?_
  obtain ⟨i, hi⟩ := List.getElem?_of_mem hx'
  have hrel := rel_getElem? h.exchanges i
  rw [hi] at hrel
  generalize hx : (w.ofKey k)[i]? = x at hrel
  cases hrel with
  | some hal =>
    have hkey := List.of_mem_filter (List.mem_of_getElem? hx)
    rw [hal.key]
    exact hkey

/-- **A mirror shows the same scene.** -/
theorem Mirrors.scene (h : w.Mirrors k L w') : w'.scene k = w.scene k := by
  rw [World.scene, World.scene, h.ofKey, h.clock,
    map_eq_of_rel h.store.variantsOf fun hh => h.shown hh.entry,
    map_eq_of_rel h.exchanges fun hal => h.sight hal]

end World
end Shown

/-! ## Runs -/

namespace World

/-- What is seen of a run by those who only know of the key: what happens, and each time the scene
in which it does. -/
def seenOf (k : Bytes) (t : History) : List (Scene × Happening) :=
  t.filterMap fun p => (p.1.seen k p.2).map fun a => (p.1.scene k, a)

theorem seen_arrive {k : Bytes} {w : World} {a : Happening} {request : Request} {client : Client}
    {access : Option Log.Access} (h : w.seen k a = some (.arrive request client access)) :
    request.cacheKey = k := by
  cases a with
  | arrive request' client' access' =>
    rw [seen, Option.ite_none_right_eq_some, Option.some.injEq] at h
    obtain ⟨hkey, ha⟩ := h
    obtain ⟨rfl, rfl, rfl⟩ := Happening.arrive.inj ha
    simpa using hkey
  | step | take | abandon =>
    rw [seen, Option.ite_none_right_eq_some] at h
    exact absurd h.2 (by simp)
  | release | tick => simp [seen] at h

section Run

variable {front : Front} {k : Bytes} {w₀ w : World} {t : History}

/-- Along a run, what is seen of it can happen as well, and leads to a mirror. -/
theorem exists_mirror (hf : front.Impartial) (h₀ : w₀.Blank)
    (hrun : Run (World.happen front) w₀ t w) :
    ∃ (L : Links) (t' : History) (w' : World), Run (World.happen front) w₀ t' w' ∧
      w.Attended ∧ w.Mirrors k L w' ∧
      t'.map (fun p => (p.1.scene k, p.2)) = seenOf k t := by
  induction hrun with
  | start => exact ⟨_, [], w₀, .start, (h₀.orderly front).attended, h₀.mirrors k, rfl⟩
  | @next t w w₁ a _ ha ih =>
    obtain ⟨L, t', w', hrun', hatt, hm, hseen⟩ := ih
    cases hs : w.seen k a with
    | none =>
      refine ⟨L, t', w', hrun', hatt.happen ha, hm.happen_unseen hatt hs ha, ?_⟩
      rw [hseen, seenOf, seenOf, List.filterMap_append]
      simp [hs]
    | some a' =>
      obtain ⟨L₁, w₁', ha', hm₁⟩ := hm.happen_seen hf hs ha
      refine ⟨L₁, _, w₁', hrun'.next ha', hatt.happen ha, hm₁, ?_⟩
      rw [List.map_append, hseen, seenOf, seenOf, List.filterMap_append]
      simp [hs, hm.scene]

/-- **What is seen of a run could be seen if there were no other requests.** -/
theorem exists_run_ofKey (hf : front.Impartial) (h₀ : w₀.Blank)
    (hrun : Run (World.happen front) w₀ t w) (k : Bytes) :
    ∃ (t' : History) (w' : World), Run (World.happen front) w₀ t' w' ∧
      (∀ p ∈ t', ∀ request client access, p.2 = .arrive request client access →
        request.cacheKey = k) ∧
      t'.map (fun p => (p.1.scene k, p.2)) = seenOf k t ∧ w'.scene k = w.scene k := by
  obtain ⟨L, t', w', hrun', -, hm, hseen⟩ := exists_mirror hf h₀ hrun
  refine ⟨t', w', hrun', fun p hp request client access harrive => ?_, hseen, hm.scene⟩
  have hmem : (p.1.scene k, p.2) ∈ seenOf k t := hseen ▸ List.mem_map_of_mem hp
  obtain ⟨q, -, hq⟩ := List.mem_filterMap.1 hmem
  obtain ⟨a, hs, ha⟩ := Option.map_eq_some_iff.1 hq
  rw [Prod.mk.injEq, harrive] at ha
  exact seen_arrive (ha.2 ▸ hs)

end Run

end World
end EdgeCache
