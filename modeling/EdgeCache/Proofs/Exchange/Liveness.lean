import EdgeCache.Proofs.Exchange.Entries
import EdgeCache.Proofs.Exchange.Progress
import EdgeCache.Proofs.Exchange.Termination
import EdgeCache.Proofs.Exchange.Transparency

/-!
# Calls come to an end

The work on one request, from its arrival to its end, is a call.  Where the origin has no gates to
wait at and the client takes or refuses what is written to it, a call is never stuck (`call_live`).
If all others are over, then it is over itself or one of its own tasks can take a step.  And one
that has asked the origin waits for others only as long as they work on the map of the store, which
they can do at once; so neither the room of the buffer nor anything that fails on the way can bring
a miss to a halt.

Since no run has infinitely many steps, every call comes to its end.
-/

set_option autoImplicit false

namespace EdgeCache

/-! ## Scripts without gates -/

/-- A script without gates is held up only by a writer without room. -/
theorem Script.Waitless.isHeld_eq_false {α : Type} {s : Script α} (h : s.Waitless) (gates : Gates) :
    s.isHeld gates false = false := by
  cases h <;> rfl

theorem Fetch.waitless_step {f f' : Fetch} {gates gates' : Gates} {event : Option Event}
    (h : f.script.Waitless) (hs : f.step gates = some (f', gates', event)) :
    f'.script.Waitless := by
  rw [Fetch.step] at hs
  split at hs
  · exact absurd hs (by simp)
  · split at hs
    · simp only [Option.some.injEq, Prod.mk.injEq] at hs
      rw [← hs.1]
      exact h
    · simp only [Option.some.injEq, Prod.mk.injEq] at hs
      rw [← hs.1]
      exact h
    · split at hs
      · exact absurd hs (by simp)
      · next m hm =>
        simp only [Option.some.injEq, Prod.mk.injEq] at hs
        rw [← hs.1]
        exact h.step hm

/-- What is left of the scripts of the exchange has no gates. -/
structure Exchange.IsWaitless (x : Exchange) : Prop where
  forwarding : ∀ script, x.stage = .forwarding script → script.Waitless
  fetch : ∀ f, x.fetch = some f → f.script.Waitless

namespace World

/-- What is over does not wait for anything. -/
theorem waits_eq_false_of_isOver {gates : Gates} {x : Exchange} (h : x.isOver = true) :
    x.waits gates = false := by
  obtain ⟨hfront, horigin⟩ := isOver_cases h
  rw [Exchange.waits, Bool.or_eq_false_iff]
  refine ⟨?_, ?_⟩
  · rcases hfront with ⟨outcome, hs⟩ | hdead
    · rw [hs]
      rfl
    · cases hs : x.stage <;> simp [Exchange.isDead, hs] at hdead
      rfl
  · cases hf : x.fetch with
    | none => rfl
    | some f =>
      obtain ⟨ending, hend⟩ := Option.isSome_iff_exists.1 (horigin f hf)
      simp [Fetch.isHeld, hend]

section Turn

variable {front : Front} {t : History} {w w' b : World} {i : Nat} {x x' y : Exchange}
  {actor : Actor}

/-- An exchange without gates whose client has room does not wait for anything from outside. -/
theorem waits_eq_false_of_isWaitless (hc : Course front t w i x) (h : x.IsWaitless)
    (hroom : x.client.isFull = false) : x.waits w.gates = false := by
  have hown : x.fetch = none → x.own.isFull = false := by
    intro hf
    rwa [Exchange.client, hf] at hroom
  rw [Exchange.waits, Bool.or_eq_false_iff]
  refine ⟨?_, ?_⟩
  · cases hs : x.stage with
    | forwarding script =>
      rw [Stage.isHeld, hown (hc.forwarding hs).1.2.1]
      exact (h.forwarding script hs).isHeld_eq_false _
    | relaying visit body reader chunk =>
      obtain ⟨e, slot, n, -, hr, -⟩ := hc.relaying hs
      exact hown hr.fetch
    | _ => rfl
  · cases hf : x.fetch with
    | none => rfl
    | some f =>
      rw [Exchange.client, hf] at hroom
      simp only [Option.any_some, Fetch.isHeld, hroom, Bool.and_false,
        (h.fetch f hf).isHeld_eq_false]

/-! ## What holds of a call from its arrival -/

/-- If its origin has no gates then nor has what is left of its scripts; and its front dies only
with an origin that it runs itself, past the cache, or when it is too late to ask. -/
structure Steady (front : Front) (w : World) (i : Nat) (x : Exchange) : Prop where
  waitless : (front.respond i x.request).Waitless → x.IsWaitless
  dead : x.isDead = true → x.cache = .skip ∨ Late front w

theorem Turn.isWaitless (hc : Course front t w i x) (ht : Turn front w i x actor x' b)
    (hscript : (front.respond i x.request).Waitless) (h : x.IsWaitless) : x'.IsWaitless where
  forwarding script hs := by
    cases ht with
    | skip =>
      obtain rfl := Stage.forwarding.inj hs
      exact Front.waitless_forward hscript
    | forward hs' hm =>
      obtain rfl := Stage.forwarding.inj hs
      exact (h.forwarding _ hs').step hm
    | step | relayPartly | origin | drain | drained | pump | pumped | writeFail | write | stop =>
      exact h.forwarding script hs
    | _ => exact absurd hs (by simp)
  fetch f hf := by
    rcases ht.fetch_cases hc hf with ⟨-, -, -, rfl⟩ | ⟨-, f₀, gates', event, hf₀, hs⟩ |
      ⟨f₀, buffer, consumed, hf₀, -, rfl⟩
    · exact Fetch.waitless_supervise hscript
    · exact Fetch.waitless_step (h.fetch f₀ hf₀) hs
    · exact h.fetch f₀ hf₀

theorem Turn.dead_cases (hc : Course front t w i x) (ht : Turn front w i x actor x' b)
    (h : x'.isDead = true) :
    (x.isDead = true ∧ x'.cache = x.cache) ∨ x'.cache = .skip ∨ Late front w := by
  cases ht with
  | dieForwarding hs => exact .inr (.inl (hc.forwarding hs).1.1)
  | dieAsking hs hh hprivate hexp => exact .inr (.inr hexp)
  | step | relayPartly | origin | drain | drained | pump | pumped | writeFail | write | stop =>
    exact .inl ⟨h, rfl⟩
  | _ => exact absurd h (by simp [Exchange.isDead])

/-- A turn of its own keeps this. -/
theorem Steady.turn (h : Steady front w i x) (hc : Course front t w i x)
    (ht : Turn front w i x actor x' b) : Steady front (b.put i x') i x' where
  waitless hscript := by
    rw [ht.request] at hscript
    exact ht.isWaitless hc hscript (h.waitless hscript)
  dead hdead := by
    rcases ht.dead_cases hc hdead with ⟨hdead', hcache⟩ | hskip | hlate
    · rw [hcache]
      exact (h.dead hdead').imp_right fun hlate => hlate.turn ht
    · exact .inl hskip
    · exact .inr (hlate.turn ht)

/-- And so does everything else. -/
theorem Steady.relinked (h : Steady front w i x) (hr : Relinked x y)
    (hlate : Late front w → Late front w') : Steady front w' i y where
  waitless hscript := by
    have hx := h.waitless (hr.request ▸ hscript)
    refine ⟨fun script hs => hx.forwarding script (hr.stage ▸ hs), fun f hf => ?_⟩
    cases hxf : x.fetch with
    | none => simp [hr.fetch_eq_none hxf] at hf
    | some f₀ =>
      obtain ⟨link, hy⟩ := hr.fetch_eq_some hxf
      obtain rfl := Option.some.inj (hy.symm.trans hf)
      exact hx.fetch f₀ hxf
  dead hdead := by
    rw [hr.cache]
    exact (h.dead (hr.isDead ▸ hdead)).imp_right hlate

theorem Steady.of_run {w₀ : World} (h₀ : w₀.Blank) (hrun : Run (World.happen front) w₀ t w)
    (htidy : ∀ p ∈ t, Tidy p.2) :
    ∀ (i : Nat) (x : Exchange), w.exchanges[i]? = some x → Steady front w i x := by
  refine each_of_run (P := fun _ w i x => Steady front w i x) h₀ hrun htidy ?_ ?_ ?_ ?_
  · intro t w i x actor x' b _ _ ho hx ht hsteady
    exact hsteady.turn (ho.course i x hx) ht
  · intro t w i x actor x' b j y _ _ ht _ _ hsteady
    exact hsteady.relinked (.refl y) fun hlate => hlate.turn ht
  · intro t w a w' i x y ha _ _ _ hr hsteady
    exact hsteady.relinked hr fun hlate => hlate.happen ha
  · exact fun _ => ⟨fun _ => ⟨by simp, by simp⟩, by simp [Exchange.isDead]⟩

end Turn

/-! ## Nobody keeps a miss waiting -/

section Live

variable {front : Front} {t : History} {w w₀ : World} {i : Nat} {x : Exchange}

/-- **A call that has asked the origin is over when no task can take a step**, whatever others wait
for: its producer has decided, so of the store it needs no more than the map. -/
theorem Idle.isOver_of_fetch (h : Idle front w i x) (hw : Filed front t w)
    (hnone : ∀ (j : Nat) (actor : Actor), w.step front j actor = none)
    (hf : x.fetch.isSome = true) : x.isOver = true := by
  have ho := hw.orderly
  have hc := ho.course i x h.exchange
  rcases h.front_cases ho with hover | ⟨visit, hs, -, hr, -⟩ | ⟨visit, body, reader, hs, -⟩
  · exact h.isOver ho hover
  · exfalso
    obtain ⟨u, hu, hbusy⟩ := ho.visit_busy h.exchange hs hr
    obtain ⟨p, hp, hfresh, -⟩ := hc.visiting hs
    obtain rfl : u.phase = p := Option.some.inj ((Store.phaseOf_eq hu).symm.trans hp)
    have hpending := hw.fitting.pending visit u hu
    have hmoves : ∃ (j : Nat) (s : Store), w.store.step w.clock j = some s := by
      cases hphase : u.phase with
      | leaving slot result => exact Store.step_of_wantsMap hu (by rw [hphase]; rfl)
      | checking slot result | dropping slot result =>
        exact ⟨visit, Store.step_of_atWork hu (by rw [hphase]; rfl)⟩
      | returning slot held e | swapping slot held e =>
        simp [hphase, Store.Phase.pending] at hpending
      | ended result | lost => simp [hphase, Store.Phase.isOver] at hbusy
      | _ => simp [(hfresh (by rw [hphase]; rfl)).fetch] at hf
    obtain ⟨j, s, hstep⟩ := hmoves
    obtain ⟨k, w', hk⟩ := ho.front_steps hstep
    simp [hnone k .front] at hk
  · obtain ⟨e, slot, n, -, hreplays, -⟩ := hc.replaying hs
    simp [hreplays.fetch] at hf

/-- The call has come to its end: all its tasks have finished, and its outcome is known; unless its
front has died, with an origin that it ran itself, past the cache, or because the calendar does not
reach to the expiration of a new entry. -/
def Concluded (front : Front) (w : World) (x : Exchange) : Prop :=
  x.isOver = true ∧
    (x.outcome?.isSome = true ∨ x.isDead = true ∧ (x.cache = .skip ∨ Late front w))

theorem Steady.concluded (h : Steady front w i x) (hover : x.isOver = true) :
    Concluded front w x := by
  refine ⟨hover, ?_⟩
  rcases (isOver_cases hover).1 with ⟨outcome, hs⟩ | hdead
  · exact .inl (by rw [Exchange.outcome?, hs]; rfl)
  · exact .inr ⟨hdead, h.dead hdead⟩

/-- A call that does not wait for anything from outside is over or has a task that can take a step,
if all others are over. -/
theorem Orderly.progress_alone (ho : Orderly front t w) (hx : w.exchanges[i]? = some x)
    (hwait : x.waits w.gates = false)
    (halone : ∀ (j : Nat) (y : Exchange), j ≠ i → w.exchanges[j]? = some y → y.isOver = true) :
    x.isOver = true ∨ ∃ (actor : Actor) (w' : World), w.step front i actor = some w' := by
  rcases ho.progress with hover | ⟨j, actor, w', h⟩ | ⟨j, y, hy, hwaits⟩
  · exact .inl (hover i x hx)
  · by_cases hij : j = i
    · subst hij
      exact .inr ⟨actor, w', h⟩
    · rcases happen_cases (a := .step j actor) h with ⟨k, actor', y, y', b, ha, hy, ht, -⟩ | hout
      · obtain ⟨rfl, rfl⟩ := Happening.step.inj ha
        exact absurd (halone j y hij hy) (by simp [ht.isOver_eq_false])
      · exact absurd rfl (hout.noStep j actor)
  · by_cases hij : j = i
    · subst hij
      obtain rfl : x = y := Option.some.inj (hx.symm.trans hy)
      simp [hwait] at hwaits
    · simp [waits_eq_false_of_isOver (halone j y hij hy)] at hwaits

/-- **Calls cannot get stuck, and no run is infinite.**  Let the origin have no gates, and let the
client take or refuse what is written to it; the room of the buffer, the policy and what fails on
the way may be anything.  A call that is alone has come to its end, or one of its tasks can take a
step.  A call that has asked the origin has come to its end, or a task can take a step, whatever the
others wait for.  And as long as no more requests arrive, only finitely many steps are taken. -/
theorem call_live (h₀ : w₀.Blank) (hrun : Run (World.happen front) w₀ t w)
    (htidy : ∀ p ∈ t, Tidy p.2) (hx : w.exchanges[i]? = some x)
    (hscript : (front.respond i x.request).Waitless) (hroom : x.client.isFull = false) :
    ((∀ (j : Nat) (y : Exchange), j ≠ i → w.exchanges[j]? = some y → y.isOver = true) →
      Concluded front w x ∨ ∃ (actor : Actor) (w' : World), w.step front i actor = some w') ∧
    (x.fetch.isSome = true →
      Concluded front w x ∨ ∃ (j : Nat) (actor : Actor) (w' : World),
        w.step front j actor = some w') ∧
    Acc (fun w' w => Proceeds front w w') w := by
  have hw : Filed front t w := .of_run h₀ hrun htidy
  have ho := hw.orderly
  have hsteady := Steady.of_run h₀ hrun htidy i x hx
  have hwait : x.waits w.gates = false :=
    waits_eq_false_of_isWaitless (ho.course i x hx) (hsteady.waitless hscript) hroom
  refine ⟨fun halone => ?_, fun hf => ?_, ho.terminates_meanwhile⟩
  · exact (ho.progress_alone hx hwait halone).imp_left hsteady.concluded
  · by_cases hstep : ∃ (j : Nat) (actor : Actor) (w' : World), w.step front j actor = some w'
    · exact .inr hstep
    · have hnone : ∀ (j : Nat) (actor : Actor), w.step front j actor = none := fun j actor =>
        Option.eq_none_iff_forall_ne_some.2 fun w' h => hstep ⟨j, actor, w', h⟩
      exact .inl (hsteady.concluded (Idle.isOver_of_fetch ⟨hx, hnone i, hwait⟩ hw hnone hf))

end Live

/-- A front whose origin may be one chunk ahead of the store, which fails to take what it is
given. -/
def cramped : Front :=
  { settings := { bodyBuffer := 0 }, eligible := fun _ => true
    policy := fun _ _ _ => .ok ⟨true, ⟨10, 0⟩⟩
    respond := fun _ _ => .write [1] fun _ => .write [2] fun _ => .done (.ok .ok)
    faults := { writing := fun _ _ => some "full", closing := fun _ => some "full" } }

/-- When the origin has no room for the second chunk and its copier has not begun, then another task
goes on. -/
theorem call_live_cramped :
    ∃ (t : History) (w : World), Run (World.happen cramped) {} t w ∧
      w.step cramped 0 .origin = none ∧ w.step cramped 0 .copier = none ∧
      (∃ (actor : Actor) (w' : World), w.step cramped 0 actor = some w') ∧
      Acc (fun w' w => Proceeds cramped w w') w := by
  let turns := refusing [(.front, 10), (.origin, 4)]
  let r := (follow (World.happen cramped) {} turns).get rfl
  have hfollow : follow (World.happen cramped) {} turns = some r := (Option.some_get _).symm
  have htidy : ∀ p ∈ r.1, Tidy p.2 := fun p hp =>
    tidy_refusing _ _ (map_snd_of_follow hfollow ▸ List.mem_map_of_mem hp)
  have hlive := call_live ⟨rfl, rfl, rfl⟩ (run_of_follow hfollow) htidy (i := 0) rfl
    (.write fun _ => .write fun _ => .done) rfl
  refine ⟨r.1, r.2, run_of_follow hfollow, rfl, rfl, ?_, hlive.2.2⟩
  refine (hlive.1 fun j y hj hy => ?_).resolve_left fun hover => ?_
  · obtain ⟨hlt, -⟩ := List.getElem?_eq_some_iff.1 hy
    have hlength : r.2.exchanges.length = 1 := rfl
    omega
  · exact absurd hover.1 (by decide)

end World
end EdgeCache
