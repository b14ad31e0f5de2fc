import EdgeCache.Proofs.Exchange.Liveness
import EdgeCache.Proofs.Exchange.Provenance
import EdgeCache.Proofs.Exchange.Relief
import EdgeCache.Proofs.Exchange.Scenes

/-!
# Keys do not interfere

What a run shows of a key, a run shows in which there are no requests but those with the key; and a
call with the key can be carried to its end while calls with other keys stay suspended where they
are (`World.keys_apart`).

The first is `World.exists_run_ofKey`.  For the second, the exchanges of the key take the steps that
they can, and their clients and the gates help them.  Of the others nothing is asked while their
producers run; but a visit on its way through the store may be at work on the map, which all keys
share, and so such visits go on as well (`World.Spares`).  The exchanges of the others are untouched
by this (`World.Attended.untouched_of_run`).  It comes to an end (`World.exists_end`), since there
are no infinite runs, and when none of all this can go on then the exchanges of the key are over: a
body that is read under a key is written under it (`World.feeder_of_replays`), and visits that wait
for each other's slot have one key (`World.Stalled.isOver`).
-/

set_option autoImplicit false

namespace EdgeCache
namespace World

/-! ## What leaves the others alone -/

/-- What happens spares the exchanges of other keys: it is help from outside, a step of an exchange
of the key, or a step of a visit on its way through the store, whose producer does not run. -/
inductive Spares (k : Bytes) (w : World) : Happening → Prop
  | help {a : Happening} (h : w.relieves k a = true) : Spares k w a
  | own {i : Nat} {actor : Actor} (h : w.hasKey k i = true) : Spares k w (.step i actor)
  | passing {i visit : Nat} {x : Exchange} {s : Store} (hx : w.exchanges[i]? = some x)
      (hs : x.stage = .visiting visit) (hh : w.store.handed visit = none)
      (hr : w.store.result visit = none) (h : w.store.step w.clock visit = some s) :
      Spares k w (.step i .front)

/-- The exchanges of other keys are as they were, and those producers still run that ran. -/
structure Untouched (k : Bytes) (w v : World) : Prop where
  exchange : ∀ (j : Nat) (y : Exchange), w.exchanges[j]? = some y → y.key ≠ k →
    v.exchanges[j]? = some y
  handed : ∀ (j : Nat) (y : Exchange) (visit : Nat) (previous : Option Held),
    w.exchanges[j]? = some y → y.key ≠ k → y.stage.visit? = some visit →
    w.store.handed visit = some previous → v.store.handed visit = some previous

section Untouched

variable {front : Front} {k : Bytes} {w v v' : World} {u : History} {a : Happening}

theorem Spares.tidy (h : Spares k w a) : Tidy a := by
  cases h with
  | help h => exact Happening.tidy_of_isAside (isAside_of_relieves h)
  | own | passing => exact fun _ _ _ h => absurd h (by simp)

theorem Untouched.refl (k : Bytes) (w : World) : Untouched k w w :=
  ⟨fun _ _ hy _ => hy, fun _ _ _ _ _ _ _ hh => hh⟩

theorem Untouched.trans (h : Untouched k w v) (h' : Untouched k v v') : Untouched k w v' where
  exchange j y hy hk := h'.exchange j y (h.exchange j y hy hk) hk
  handed j y visit previous hy hk hv hh :=
    h'.handed j y visit previous (h.exchange j y hy hk) hk hv
      (h.handed j y visit previous hy hk hv hh)

/-- A client takes what is for it and for nobody else. -/
theorem take_exchange_ne (w : World) {i j : Nat} (r : Reception) (hij : j ≠ i) :
    (w.take i r).2.2.exchanges[j]? = w.exchanges[j]? := by
  rw [take]
  cases w.exchanges[i]? with
  | none => rfl
  | some x => exact List.getElem?_set_ne (Ne.symm hij)

theorem untouched_of_relieves (h : w.relieves k a = true) (hv : w.happen front a = some v) :
    Untouched k w v := by
  have hstore : v.store = w.store := by
    rcases happen_cases hv with ⟨i, actor, x, x', b, rfl, -⟩ | hout
    · simp [relieves] at h
    · exact hout.store
  refine ⟨fun j y hy hk => ?_, fun j y visit previous _ _ _ hh => hstore ▸ hh⟩
  cases a with
  | release gate =>
    obtain rfl := Option.some.inj hv
    exact hy
  | take i =>
    obtain ⟨x, hx, hkey⟩ := hasKey_eq_true h
    obtain rfl := Option.some.inj hv
    have hij : j ≠ i := by
      rintro rfl
      obtain rfl := Option.some.inj (hx.symm.trans hy)
      exact hk hkey
    exact (take_exchange_ne w _ hij).trans hy
  | _ => simp [relieves] at h

theorem Attended.untouched_of_turn (ha : w.Attended) {i : Nat} {x x' : Exchange} {actor : Actor}
    {b : World} (hx : w.exchanges[i]? = some x) (hkey : x.key = k)
    (ht : Turn front w i x actor x' b) : Untouched k w (b.put i x') := by
  have hne : ∀ {j : Nat} {y : Exchange}, w.exchanges[j]? = some y → y.key ≠ k → j ≠ i := by
    rintro j y hy hk rfl
    obtain rfl : x = y := Option.some.inj (hx.symm.trans hy)
    exact hk hkey
  refine ⟨fun j y hy hk => (ht.exchange_ne (hne hy hk)).trans hy,
    fun j y visit previous hy hk hvisit hh => ?_⟩
  rw [Store.handed, put_store, ha.visit_other hx ht.store hy (hne hy hk) hvisit]
  exact hh

theorem untouched_of_step {i visit : Nat} {x : Exchange} {s : Store}
    (hx : w.exchanges[i]? = some x) (hs : x.stage = .visiting visit)
    (hh : w.store.handed visit = none) (hr : w.store.result visit = none)
    (h : w.store.step w.clock visit = some s) (hv : w.happen front (.step i .front) = some v) :
    Untouched k w v := by
  obtain ⟨log, hstep⟩ := frontStep_visit hx hs hh hr h
  obtain rfl := Option.some.inj (hstep.symm.trans hv)
  refine ⟨fun j y hy _ => hy, fun j y other previous _ _ _ hp => ?_⟩
  have hne : other ≠ visit := by
    rintro rfl
    exact absurd (hh.symm.trans hp) (by simp)
  show s.handed other = some previous
  rw [Store.handed, (Store.step_visit h).1 other hne]
  exact hp

/-- What spares the others leaves them untouched, -/
theorem Attended.untouched (ha : w.Attended) (h : Spares k w a)
    (hv : w.happen front a = some v) : Untouched k w v := by
  cases h with
  | help h => exact untouched_of_relieves h hv
  | own h =>
    obtain ⟨x, hx, hkey⟩ := hasKey_eq_true h
    rcases happen_cases hv with ⟨i, actor, x₀, x', b, hstep, hx₀, ht, rfl⟩ | hout
    · obtain ⟨rfl, rfl⟩ := Happening.step.inj hstep
      obtain rfl := Option.some.inj (hx.symm.trans hx₀)
      exact ha.untouched_of_turn hx hkey ht
    · exact absurd rfl (hout.noStep _ _)
  | passing hx hs hh hr h => exact untouched_of_step hx hs hh hr h hv

/-- and so does every run of it. -/
theorem Attended.untouched_of_run (ha : w.Attended) (hrun : Run (World.happen front) w u v)
    (hu : ∀ p ∈ u, Spares k p.1 p.2) : Untouched k w v := by
  have hend : v.Attended ∧ Untouched k w v := by
    refine hrun.invariant_of (P := fun v => v.Attended ∧ Untouched k w v) (Q := Spares k) ?_ hu
      ⟨ha, .refl k w⟩
    rintro v a v' hspares ⟨ha', hw⟩ hv
    exact ⟨ha'.happen hv, hw.trans (ha'.untouched hspares hv)⟩
  exact hend.2

end Untouched

/-! ## What goes on without the others -/

section Stalled

variable {front : Front} {t : History} {w₀ w : World} {k : Bytes} {i : Nat} {x : Exchange}

/-- An exchange that reads a body reads what an exchange of its key writes. -/
theorem feeder_of_replays {e : Entry} {id : Nat} (h₀ : w₀.Blank)
    (hrun : Run (World.happen front) w₀ t w) (htidy : ∀ p ∈ t, Tidy p.2)
    (hr : Replays front t i x e) (hbody : e.body = some (.growing id)) :
    ∃ (j : Nat) (y : Exchange) (doing : Copying), w.exchanges[j]? = some y ∧ y.key = x.key ∧
      Copies y id doing := by
  obtain ⟨w₁, j, y, head, verdict, hmem, hkey, hk⟩ := hr.kept
  have hv : verdict.cacheable = true := hk.isPublic ▸ hr.isPublic
  obtain ⟨y', hy', hfeeds⟩ := hk.feeds h₀ hrun htidy hv hmem
  obtain ⟨doing, hcop⟩ := hfeeds.copies
  obtain rfl : w₁.bodies.length = id := by
    simpa using (hk.opened hv).2.2.symm.trans hbody
  refine ⟨j, y', doing, hy', ?_, hcop⟩
  rw [← hkey, Exchange.key, Exchange.key, hfeeds.request]

/-- When no exchange of the key waits for something from outside, and none of what spares the others
can be done, then with the key nothing goes on. -/
theorem stalled_of_spares (h₀ : w₀.Blank) (hrun : Run (World.happen front) w₀ t w)
    (htidy : ∀ p ∈ t, Tidy p.2)
    (hwait : ∀ (j : Nat) (y : Exchange), w.exchanges[j]? = some y → y.key = k →
      y.waits w.gates = false)
    (hnone : ∀ (j : Nat) (actor : Actor), Spares k w (.step j actor) →
      w.step front j actor = none) :
    Stalled front (· = k) w := by
  have ho := Orderly.of_run hrun h₀ htidy
  constructor
  case idle =>
    exact fun j y hy hk =>
      ⟨hy, fun actor => hnone j actor (.own (hasKey_of hy hk)), hwait j y hy hk⟩
  case noMove =>
    intro visit
    cases hs : w.store.step w.clock visit with
    | none => rfl
    | some s =>
      obtain ⟨j, y, hy, hstage, hh, hr⟩ := ho.visitor hs
      obtain ⟨log, hstep⟩ := frontStep_visit hy hstage hh hr hs
      exact absurd (hstep.symm.trans (hnone j .front (.passing hy hstage hh hr hs))) (by simp)
  case fed =>
    intro j y visit id reader g hy hk hstage _ _
    obtain ⟨e, slot, n, -, hreplays, id', g', hbody, hid, -⟩ := (ho.course j y hy).replaying hstage
    obtain rfl : id = id' := StoredBody.growing.inj hid
    obtain ⟨m, z, doing, hz, hzk, hcop⟩ := feeder_of_replays h₀ hrun htidy hreplays hbody
    exact ⟨m, z, doing, hz, hzk.trans hk, hcop⟩

/-- **The exchanges of a key can be carried to their end** in a way that spares the others. -/
theorem exists_end (h₀ : w₀.Blank) (hrun : Run (World.happen front) w₀ t w)
    (htidy : ∀ p ∈ t, Tidy p.2) (k : Bytes) :
    ∃ (u : History) (v : World), Run (World.happen front) w u v ∧ (∀ p ∈ u, Spares k p.1 p.2) ∧
      ∀ (i : Nat) (x : Exchange), v.exchanges[i]? = some x → x.key = k → x.isOver = true := by
  have hacc := (Orderly.of_run hrun h₀ htidy).terminates_meanwhile
  induction hacc generalizing t with
  | intro w _ ih =>
    -- first help from outside, as much as there is need for
    obtain ⟨u, v, hu, hhelp, hwait⟩ := (Orderly.of_run hrun h₀ htidy).exists_relief k
    have haside : ∀ p ∈ u, p.2.isAside = true := fun p hp => isAside_of_relieves (hhelp p hp)
    have hspares : ∀ p ∈ u, Spares k p.1 p.2 := fun p hp => .help (hhelp p hp)
    have hrun' := hrun.trans hu
    have htidy' : ∀ p ∈ t ++ u, Tidy p.2 := fun p hp =>
      (List.mem_append.1 hp).elim (htidy p) fun hp => (hspares p hp).tidy
    by_cases hstep : ∃ (j : Nat) (actor : Actor) (v' : World), Spares k v (.step j actor) ∧
        v.step front j actor = some v'
    · -- then a step, if there is one
      obtain ⟨j, actor, v', hs, hv'⟩ := hstep
      have hnext : v.happen front (.step j actor) = some v' := hv'
      obtain ⟨u', v'', hu', hspares', hover⟩ := ih v' ⟨u, v, hu, haside, j, actor, hv'⟩
        (hrun'.next hnext) fun p hp => by
          rcases List.mem_append.1 hp with hp | hp
          · exact htidy' p hp
          · obtain rfl := List.mem_singleton.1 hp
            exact hs.tidy
      refine ⟨_, v'', (hu.next hnext).trans hu', fun p hp => ?_, hover⟩
      rcases List.mem_append.1 hp with hp | hp
      · rcases List.mem_append.1 hp with hp | hp
        · exact hspares p hp
        · obtain rfl := List.mem_singleton.1 hp
          exact hs
      · exact hspares' p hp
    · have hstalled := stalled_of_spares h₀ hrun' htidy' hwait fun j actor hs =>
        Option.eq_none_iff_forall_ne_some.2 fun v' hv' => hstep ⟨j, actor, v', hs, hv'⟩
      exact ⟨u, v, hu, hspares, fun i x hx hk =>
        hstalled.isOver (Orderly.of_run hrun' h₀ htidy') hx hk⟩

/-- **Keys do not interfere.**  Let the origin answer every request by itself.  What a run shows of
a key, a run shows in which only the requests with the key arrive, in the same order and at the same
times: who is handed what, which variants are stored, and the responses.  And from every world that
a run leads to, every call with the key can be carried to its end in such a way that the others are
left untouched; their producers may stay where they are. -/
theorem keys_apart (hf : front.Impartial) (h₀ : w₀.Blank) (hrun : Run (World.happen front) w₀ t w)
    (htidy : ∀ p ∈ t, Tidy p.2) (k : Bytes) :
    (∃ (t' : History) (w' : World), Run (World.happen front) w₀ t' w' ∧
      (∀ p ∈ t', ∀ request client access, p.2 = .arrive request client access →
        request.cacheKey = k) ∧
      t'.map (fun p => (p.1.scene k, p.2)) = seenOf k t ∧ w'.scene k = w.scene k) ∧
    ∀ (i : Nat) (x : Exchange), w.exchanges[i]? = some x → x.key = k →
      ∃ (u : History) (v : World) (y : Exchange), Run (World.happen front) w u v ∧
        (∀ p ∈ u, Spares k p.1 p.2) ∧ Untouched k w v ∧
        v.exchanges[i]? = some y ∧ y.request = x.request ∧ Concluded front v y := by
  refine ⟨exists_run_ofKey hf h₀ hrun k, fun i x hx hk => ?_⟩
  obtain ⟨u, v, hu, hspares, hover⟩ := exists_end h₀ hrun htidy k
  obtain ⟨y, hy, hreq⟩ := exists_exchange_of_run hx hu
  have hkey : y.key = k := by
    rw [Exchange.key, hreq]
    exact hk
  have htidy' : ∀ p ∈ t ++ u, Tidy p.2 := fun p hp =>
    (List.mem_append.1 hp).elim (htidy p) fun hp => (hspares p hp).tidy
  have hsteady := Steady.of_run h₀ (hrun.trans hu) htidy' i y hy
  have hattended := (Orderly.of_run hrun h₀ htidy).attended
  exact ⟨u, v, y, hu, hspares, hattended.untouched_of_run hu hspares, hy, hreq,
    hsteady.concluded (hover i y hy hkey)⟩

end Stalled

/-- Two requests for two resources, whose producers run at the same time. -/
def twoKeys : List Happening :=
  let arrive (uri : Uri) := Happening.arrive { method := .get, uri } { link := .tape {} } none
  let steps (i : Nat) (actor : Actor) (n : Nat) := List.replicate n (Happening.step i actor)
  [arrive .asterisk, arrive (.authority [98])] ++ steps 0 .front 10 ++ steps 1 .front 10 ++
    steps 0 .origin 1

/-- Either call can be carried to its end while the producer of the other one stays where it is. -/
theorem keys_apart_twoKeys :
    ∃ (t : History) (w : World) (x y : Exchange), Run (World.happen oneChunk) {} t w ∧
      w.exchanges = [x, y] ∧ x.key ≠ y.key ∧
      w.store.handed 0 = some none ∧ w.store.handed 1 = some none ∧
      (∃ (u : History) (v : World) (x' : Exchange), Run (World.happen oneChunk) w u v ∧
        v.exchanges[0]? = some x' ∧ Concluded oneChunk v x' ∧
        v.exchanges[1]? = some y ∧ v.store.handed 1 = some none) ∧
      ∃ (t' : History) (w' : World), Run (World.happen oneChunk) {} t' w' ∧
        t'.map (fun p => (p.1.scene y.key, p.2)) = seenOf y.key t ∧
        w'.scene y.key = w.scene y.key := by
  let r := (follow (World.happen oneChunk) {} twoKeys).get rfl
  have hfollow : follow (World.happen oneChunk) {} twoKeys = some r := (Option.some_get _).symm
  have htidy : ∀ p ∈ r.1, Tidy p.2 := by
    intro p hp
    have hmem : p.2 ∈ twoKeys := map_snd_of_follow hfollow ▸ List.mem_map_of_mem hp
    rintro request client access ha
    simp [ha, twoKeys] at hmem
    rcases hmem with ⟨-, rfl, -⟩ | ⟨-, rfl, -⟩ <;> exact ⟨rfl, rfl⟩
  let x := r.2.exchanges.get ⟨0, by decide⟩
  let y := r.2.exchanges.get ⟨1, by decide⟩
  have hne : x.key ≠ y.key := by
    show bytes "GET *" ≠ bytes "GET b"
    decide
  have hf : oneChunk.Impartial := ⟨fun _ _ => rfl, fun _ _ => rfl, fun _ _ => rfl⟩
  have hsplit := keys_apart hf ⟨rfl, rfl, rfl⟩ (run_of_follow hfollow) htidy
  obtain ⟨u, v, x', hu, -, hun, hx', -, hover⟩ := (hsplit x.key).2 0 x rfl rfl
  obtain ⟨t', w', hrun', -, hseen, hscene⟩ := (hsplit y.key).1
  exact ⟨r.1, r.2, x, y, run_of_follow hfollow, rfl, hne, rfl, rfl,
    ⟨u, v, x', hu, hx', hover, hun.exchange 1 y rfl hne.symm,
      hun.handed 1 y 1 none rfl hne.symm rfl rfl⟩, t', w', hrun', hseen, hscene⟩

end World
end EdgeCache
