import EdgeCache.Proofs.Exchange.Course
import EdgeCache.Proofs.Exchange.Copies

/-!
# Worlds in order

`Orderly` is all that holds of a world after any run from a blank one.  Its clauses are proved one
by one to survive a turn; this file has those about bodies, origins, copiers and the store, and
`EdgeCache.Proofs.Exchange.Steps` has the course of the exchanges and the run.
-/

set_option autoImplicit false

namespace EdgeCache
namespace World

/-- The exchange has a pump with this body, which is about to do that. -/
def Copies (x : Exchange) (id : Nat) (doing : Copying) : Prop :=
  ∃ sink failed writes stored, x.copier = some (.pump sink id failed writes stored doing)

/-- What holds of a world after the run recorded in `t`. -/
structure Orderly (front : Front) (t : History) (w : World) : Prop where
  attended : w.Attended
  course : ∀ (i : Nat) (x : Exchange), w.exchanges[i]? = some x → Course front t w i x
  watched : ∀ (i : Nat) (x : Exchange) (f : Fetch), w.exchanges[i]? = some x → x.fetch = some f →
    Watched front t i x.copier f
  pumps : ∀ (i : Nat) (x : Exchange) (sink id : Nat) (failed : Bool) (writes stored : Nat)
    (doing : Copying), w.exchanges[i]? = some x →
    x.copier = some (.pump sink id failed writes stored doing) →
    ∃ f g, x.fetch = some f ∧ w.bodies[id]? = some g ∧ Pumps front t i f g sink failed doing
  /-- Two pumps have two bodies. -/
  apart : ∀ (i j : Nat) (x y : Exchange) (id : Nat) (doing doing' : Copying),
    w.exchanges[i]? = some x → w.exchanges[j]? = some y → Copies x id doing →
    Copies y id doing' → i = j
  /-- A body that is not closed has a pump. -/
  fed : ∀ (id : Nat) (g : Growing), w.bodies[id]? = some g → g.closed = false →
    ∃ (i : Nat) (x : Exchange) (doing : Copying), w.exchanges[i]? = some x ∧ Copies x id doing
  /-- A body is closed when its sink is dropped. -/
  attached : ∀ (id : Nat) (g : Growing), w.bodies[id]? = some g → g.attached = !g.closed
  kept : w.store.All (Kept front t)
  /-- The body of a stored entry is there. -/
  room : ∀ (key : Bytes) (e : Entry) (id : Nat), Kept front t key e → e.body = some (.growing id) →
    id < w.bodies.length
  /-- Nothing has been written for an exchange that has not begun. -/
  unborn : ∀ j, w.exchanges.length ≤ j → t.writes j = [] ∧ t.passed j = []

section Turn

variable {front : Front} {t : History} {w b : World} {i : Nat} {x x' : Exchange} {actor : Actor}

/-! ## Bodies -/

/-- **How bodies change.**  A body is opened, and its pump writes to it and closes it. -/
theorem Turn.bodies_cases (ht : Turn front w i x actor x' b) :
    b.bodies = w.bodies ∨ b.bodies = w.bodies ++ [Growing.empty] ∨
    ∃ id doing change, Copies x id doing ∧ doing ≠ .stopped ∧
      (∀ g : Growing, g.closed = false → g.Grows (change g) ∧
        (g.attached = true → (change g).attached = !(change g).closed)) ∧
      b.bodies = w.bodies.modify id change := by
  cases ht with
  | forward | origin => exact .inl (absorb_bodies _ _ _)
  | keep => exact .inr (.inl rfl)
  | @write sink id writes stored failed data hc hw =>
    refine .inr (.inr ⟨id, .writing data, _, ⟨sink, failed, writes, stored, hc⟩, by simp, ?_, rfl⟩)
    refine fun g hopen => ⟨.inr ⟨hopen, ⟨[data], rfl⟩, Nat.lt_succ_self _⟩, fun ha => ?_⟩
    simp [Growing.write, ha, hopen]
  | @stop sink id writes stored failed lines hc =>
    refine .inr (.inr ⟨id, .closing, _, ⟨sink, failed, writes, stored, hc⟩, by simp, ?_, rfl⟩)
    exact fun g hopen => ⟨.inr ⟨hopen, List.prefix_refl _, Nat.lt_succ_self _⟩, fun _ => rfl⟩
  | _ => exact .inl rfl

/-- The body of a pump that has not stopped is open. -/
theorem Orderly.open_of_copies (ho : Orderly front t w) (hx : w.exchanges[i]? = some x) {id : Nat}
    {doing : Copying} (hc : Copies x id doing) (hd : doing ≠ .stopped) :
    ∃ g, w.bodies[id]? = some g ∧ g.closed = false := by
  obtain ⟨sink, failed, writes, stored, hc⟩ := hc
  obtain ⟨f, g, -, hg, hp⟩ := ho.pumps i x sink id failed writes stored doing hx hc
  refine ⟨g, hg, ?_⟩
  cases hclosed : g.closed with
  | false => rfl
  | true => exact absurd (hp.closed.1 hclosed) hd

/-- **Bodies only grow.** -/
theorem Orderly.grown (ho : Orderly front t w) (hx : w.exchanges[i]? = some x)
    (ht : Turn front w i x actor x' b) : Grown w b := by
  intro id g hg
  rcases ht.bodies_cases with hb | hb | ⟨id', doing, change, hc, hd, hchange, hb⟩
  · exact ⟨g, hb ▸ hg, .inl rfl⟩
  · refine ⟨g, ?_, .inl rfl⟩
    rw [hb, List.getElem?_append_left (List.getElem?_eq_some_iff.1 hg).1, hg]
  · rw [hb, List.getElem?_modify, hg]
    by_cases hid : id' = id
    · subst hid
      obtain ⟨g', hg', hopen⟩ := ho.open_of_copies hx hc hd
      obtain rfl : g = g' := Option.some.inj (hg.symm.trans hg')
      exact ⟨change g, by simp, (hchange g hopen).1⟩
    · exact ⟨g, by simp [hid], .inl rfl⟩

theorem Orderly.attached_turn (ho : Orderly front t w) (hx : w.exchanges[i]? = some x)
    (ht : Turn front w i x actor x' b) {id : Nat} {g : Growing} (hg : b.bodies[id]? = some g) :
    g.attached = !g.closed := by
  rcases ht.bodies_cases with hb | hb | ⟨id', doing, change, hc, hd, hchange, hb⟩
  · exact ho.attached id g (hb ▸ hg)
  · rw [hb, List.getElem?_append] at hg
    split at hg
    · exact ho.attached id g hg
    · rw [List.getElem?_singleton] at hg
      split at hg
      · rw [← Option.some.inj hg]
        rfl
      · exact absurd hg (by simp)
  · rw [hb, List.getElem?_modify] at hg
    obtain ⟨g₀, hg₀, rfl⟩ := Option.map_eq_some_iff.1 hg
    by_cases hid : id' = id
    · subst hid
      obtain ⟨g', hg', hopen⟩ := ho.open_of_copies hx hc hd
      obtain rfl : g₀ = g' := Option.some.inj (hg₀.symm.trans hg')
      have hatt := ho.attached id' g₀ hg₀
      rw [hopen] at hatt
      rw [if_pos rfl]
      exact (hchange g₀ hopen).2 (by simpa using hatt)
    · rw [if_neg hid]
      exact ho.attached id g₀ hg₀

theorem Turn.bodies_length (ht : Turn front w i x actor x' b) :
    w.bodies.length ≤ b.bodies.length := by
  rcases ht.bodies_cases with hb | hb | ⟨id', doing, change, -, -, -, hb⟩
  · exact Nat.le_of_eq (by rw [hb])
  · rw [hb, List.length_append]
    exact Nat.le_add_right _ _
  · exact Nat.le_of_eq (by rw [hb, List.length_modify])

/-- A body that is not the pump's stays as it is. -/
theorem Turn.body_other (ht : Turn front w i x actor x' b) {id : Nat} {g : Growing}
    (hg : w.bodies[id]? = some g) (hne : ∀ doing, ¬ Copies x id doing) :
    b.bodies[id]? = some g := by
  rcases ht.bodies_cases with hb | hb | ⟨id', doing, change, hc, -, -, hb⟩
  · rw [hb, hg]
  · rw [hb, List.getElem?_append_left (List.getElem?_eq_some_iff.1 hg).1, hg]
  · have hid : id' ≠ id := by
      rintro rfl
      exact hne doing hc
    rw [hb, List.getElem?_modify, hg]
    simp [hid]

/-! ## Origins -/

theorem Watched.turn (ho : Orderly front t w) (hx : w.exchanges[i]? = some x)
    (ht : Turn front w i x actor x' b) {f' : Fetch} (hf' : x'.fetch = some f') :
    Watched front (t ++ [(w, .step i actor)]) i x'.copier f' := by
  have hmem : ∀ p ∈ t, p ∈ t ++ [(w, Happening.step i actor)] :=
    fun p hp => List.mem_append_left _ hp
  have hc := ho.course i x hx
  -- a turn of the front that writes nothing and leaves origin and copier alone
  have hidle : ∀ {f : Fetch}, actor = .front → x.stage.chunk? = none → x.fetch = some f →
      Watched front (t ++ [(w, .step i actor)]) i x.copier f := by
    rintro f rfl hchunk hf
    exact (ho.watched i x f hx hf).frame hmem (History.writes_front hx hchunk)
      (History.passed_front hx)
  have hcopier : ∀ {f : Fetch}, actor = .copier → x.fetch = some f →
      Watched front (t ++ [(w, .step i actor)]) i x.copier f := by
    rintro f rfl hf
    exact (ho.watched i x f hx hf).frame hmem (History.writes_copier hx) (History.passed_copier hx)
  cases ht with
  | enter h | skip h | forwarded h | dieForwarding h | replay h | replayHead h | dieAsking h
  | leave _ h | step h | turn h | read h | readAll h | readFailed _ h | join _ h | close _ h
  | report h => exact hidle rfl (by rw [h]; rfl) hf'
  | forward h => simp [(hc.forwarding h).1.2.1] at hf'
  | relayPartly h | relay h | relayFailed h =>
    obtain ⟨e, slot, n, -, hr, -⟩ := hc.relaying h
    simp [hr.fetch] at hf'
  | @ask visit previous expiration h hh hprivate hexp =>
    have hfresh := hc.fresh_of_handed h hh
    obtain rfl := Option.some.inj hf'
    have hw := (History.writes_front (t := t) hx (by rw [h]; rfl)).trans hfresh.writes
    have hp := (History.passed_front (t := t) hx).trans hfresh.passed
    refine ⟨⟨(w, .step i .front), by simp, x, visit, previous, expiration, rfl, hx, h, hh, hprivate,
      hexp⟩, hfresh.head.symm, fun _ => ⟨rfl, hp⟩, by simp [Fetch.start], ?_, fun _ => rfl,
      fun _ _ => hp.symm, by simp [Fetch.start], by simp [hfresh.copier]⟩
    rw [hw, hp]
    rfl
  | decideFail h hf | openFail h hf | loseHead h hf =>
    obtain rfl := Option.some.inj hf'
    exact (hidle rfl (by rw [h]; rfl) hf).unwatched
  | discard _ h hf | keep _ h hf =>
    exact (hidle rfl (by rw [h]; rfl) hf').copying rfl f'.tee.buffer (by simp)
  | @origin f f₁ gates event hf hs =>
    obtain rfl := Option.some.inj hf'
    obtain ⟨hend, hturn⟩ := Fetch.step_cases hs
    refine (ho.watched i x f hx hf).origin hend hturn hmem ?_ ?_
    · rw [History.writes_step hx, Exchange.attempt, hf, Option.bind_some]
    · rw [History.passed_step hx, Exchange.passes, hf, Option.bind_some]
  | drain hcop hf hr =>
    obtain rfl := Option.some.inj hf'
    obtain ⟨rest, -, -, rfl⟩ := Fetch.receive_chunk hr
    exact (hcopier rfl hf).copying (by rw [hcop]; rfl) rest (by simp [hcop])
  | pump hcop hf hr =>
    obtain rfl := Option.some.inj hf'
    obtain ⟨rest, -, -, rfl⟩ := Fetch.receive_chunk hr
    exact (hcopier rfl hf).copying rfl rest (by simp)
  | @drained f hcop hf hr =>
    obtain rfl : f = f' := Option.some.inj (hf.symm.trans hf')
    obtain ⟨-, -, f₀, hf₀, hcons⟩ := hc.asked_of_copier (by rw [hcop]; rfl)
    obtain rfl : f = f₀ := Option.some.inj (hf.symm.trans hf₀)
    exact (hcopier rfl hf).copying rfl f.tee.buffer fun _ =>
      Fetch.receive_end (by rw [hcons, hcop]; rfl) hr
  | pumped hcop hf => exact (hcopier rfl hf').copying rfl f'.tee.buffer (by simp)
  | writeFail _ hcop | write hcop | stop _ hcop =>
    exact (hcopier rfl hf').copying rfl f'.tee.buffer (by simp)

/-! ## Pumps -/

theorem Pumps.turn (ho : Orderly front t w) (hx : w.exchanges[i]? = some x)
    (ht : Turn front w i x actor x' b) {sink id writes stored : Nat} {failed : Bool}
    {doing : Copying} (hcop' : x'.copier = some (.pump sink id failed writes stored doing)) :
    ∃ f g, x'.fetch = some f ∧ b.bodies[id]? = some g ∧
      Pumps front (t ++ [(w, .step i actor)]) i f g sink failed doing := by
  have hc := ho.course i x hx
  have hpumps := ho.pumps i x
  -- a turn of the front that leaves origin, copier and bodies alone
  have hidle : actor = .front → x.copier = some (.pump sink id failed writes stored doing) →
      ∃ f g, x.fetch = some f ∧ w.bodies[id]? = some g ∧
        Pumps front (t ++ [(w, .step i actor)]) i f g sink failed doing := by
    rintro rfl hcop
    obtain ⟨f, g, hf, hg, hp⟩ := hpumps sink id failed writes stored doing hx hcop
    exact ⟨f, g, hf, hg, hp.frame (History.passed_front hx)⟩
  cases ht with
  | forward h hm =>
    rw [absorb_bodies]
    exact hidle rfl hcop'
  | ask h hh => simp [(hc.fresh_of_handed h hh).copier] at hcop'
  | decideFail h | openFail h | loseHead h =>
    obtain ⟨slot, previous, f, expiration, -, -, -, -, -, hcop, -⟩ := hc.fetching h
    simp [hcop] at hcop'
  | discard => simp at hcop'
  | @keep visit draft f head verdict lines h hf hhead =>
    obtain ⟨slot, previous, f₀, expiration, -, -, -, hf₀, hcons, hcop, -⟩ := hc.fetching h
    obtain rfl : f = f₀ := Option.some.inj (hf.symm.trans hf₀)
    simp only [Option.some.injEq, Copier.pump.injEq] at hcop'
    obtain ⟨rfl, rfl, rfl, -, -, rfl⟩ := hcop'
    have hwatched := ho.watched i x f hx hf
    rw [hcop] at hwatched
    refine ⟨f, Growing.empty, hf, by simp, ?_⟩
    exact (Pumps.start hwatched hcons (by rw [hhead]; rfl)).frame (History.passed_front hx)
  | @origin f f' gates event hf hs =>
    obtain ⟨f₀, g, hf₀, hg, hp⟩ := hpumps sink id failed writes stored doing hx hcop'
    obtain rfl : f = f₀ := Option.some.inj (hf.symm.trans hf₀)
    obtain ⟨hend, hturn⟩ := Fetch.step_cases hs
    refine ⟨f', g, rfl, by rw [absorb_bodies, hg], ?_⟩
    refine hp.origin (ho.watched i x f hx hf) hend hturn ?_
    rw [History.passed_step hx, Exchange.passes, hf, Option.bind_some]
  | drain hcop => simp [hcop] at hcop'
  | drained => simp at hcop'
  | @pump sink₀ id₀ writes₀ stored₀ failed₀ f f' data hcop hf hr =>
    simp only [Option.some.injEq, Copier.pump.injEq] at hcop'
    obtain ⟨rfl, rfl, rfl, rfl, rfl, rfl⟩ := hcop'
    obtain ⟨f₀, g, hf₀, hg, hp⟩ := hpumps _ _ _ _ _ _ hx hcop
    obtain rfl : f = f₀ := Option.some.inj (hf.symm.trans hf₀)
    exact ⟨f', g, rfl, hg, (hp.taken hr).frame (History.passed_copier hx)⟩
  | @pumped sink₀ id₀ writes₀ stored₀ failed₀ f hcop hf hr =>
    simp only [Option.some.injEq, Copier.pump.injEq] at hcop'
    obtain ⟨rfl, rfl, rfl, rfl, rfl, rfl⟩ := hcop'
    obtain ⟨f₀, g, hf₀, hg, hp⟩ := hpumps _ _ _ _ _ _ hx hcop
    obtain rfl : f = f₀ := Option.some.inj (hf.symm.trans hf₀)
    exact ⟨f, g, hf, hg, (hp.ended hr).frame (History.passed_copier hx)⟩
  | @writeFail sink₀ id₀ writes₀ stored₀ failed₀ data text lines hcop hw =>
    simp only [Option.some.injEq, Copier.pump.injEq] at hcop'
    obtain ⟨rfl, rfl, rfl, rfl, rfl, rfl⟩ := hcop'
    obtain ⟨f, g, hf, hg, hp⟩ := hpumps _ _ _ _ _ _ hx hcop
    exact ⟨f, g, hf, hg, (hp.writeFail hw).frame (History.passed_copier hx)⟩
  | @write sink₀ id₀ writes₀ stored₀ failed₀ data hcop hw =>
    simp only [Option.some.injEq, Copier.pump.injEq] at hcop'
    obtain ⟨rfl, rfl, rfl, rfl, rfl, rfl⟩ := hcop'
    obtain ⟨f, g, hf, hg, hp⟩ := hpumps _ _ _ _ _ _ hx hcop
    exact ⟨f, g.write data, hf, by simp [hg], hp.write.frame (History.passed_copier hx)⟩
  | @stop sink₀ id₀ writes₀ stored₀ failed₀ lines hcop =>
    simp only [Option.some.injEq, Copier.pump.injEq] at hcop'
    obtain ⟨rfl, rfl, rfl, rfl, rfl, rfl⟩ := hcop'
    obtain ⟨f, g, hf, hg, hp⟩ := hpumps _ _ _ _ _ _ hx hcop
    exact ⟨f, g.close, hf, by simp [hg], hp.stop.frame (History.passed_copier hx)⟩
  | _ => exact hidle rfl hcop'

/-- A pump's body was its body before, or has just been opened. -/
theorem Turn.copies_cases (ht : Turn front w i x actor x' b) {id : Nat} {doing : Copying}
    (hc : Copies x' id doing) :
    (∃ doing', Copies x id doing') ∨ (id = w.bodies.length ∧ id < b.bodies.length) := by
  obtain ⟨sink, failed, writes, stored, hc⟩ := hc
  cases ht with
  | keep =>
    simp only [Option.some.injEq, Copier.pump.injEq] at hc
    exact .inr ⟨hc.2.1.symm, by simp [← hc.2.1]⟩
  | discard | drained => simp at hc
  | pump hcop | pumped hcop | writeFail _ hcop | write hcop | stop _ hcop =>
    simp only [Option.some.injEq, Copier.pump.injEq] at hc
    exact .inl ⟨_, _, _, _, _, hc.2.1 ▸ hcop⟩
  | _ => exact .inl ⟨doing, sink, failed, writes, stored, hc⟩

/-- A pump stays with its body. -/
theorem Turn.copies_stay (hc : Course front t w i x) (ht : Turn front w i x actor x' b) {id : Nat}
    {doing : Copying} (hcop : Copies x id doing) : ∃ doing', Copies x' id doing' := by
  obtain ⟨sink, failed, writes, stored, hcop⟩ := hcop
  cases ht with
  | discard _ h | keep _ h =>
    obtain ⟨slot, previous, f, expiration, -, -, -, -, -, hnone, -⟩ := hc.fetching h
    simp [hnone] at hcop
  | drain hc₀ | drained hc₀ => simp [hc₀] at hcop
  | pump hc₀ | pumped hc₀ | writeFail _ hc₀ | write hc₀ | stop _ hc₀ =>
    simp only [hc₀, Option.some.injEq, Copier.pump.injEq] at hcop
    obtain ⟨rfl, rfl, rfl, rfl, rfl, -⟩ := hcop
    exact ⟨_, _, _, _, _, rfl⟩
  | _ => exact ⟨doing, sink, failed, writes, stored, hcop⟩

/-- **Every open body has its pump** after a turn. -/
theorem Orderly.fed_turn (ho : Orderly front t w) (hx : w.exchanges[i]? = some x)
    (ht : Turn front w i x actor x' b) {id : Nat} {g : Growing} (hg : b.bodies[id]? = some g)
    (hopen : g.closed = false) :
    ∃ (j : Nat) (y : Exchange) (doing : Copying), (b.put i x').exchanges[j]? = some y ∧
      Copies y id doing := by
  rcases Nat.lt_or_ge id w.bodies.length with hlt | hge
  · -- the body was there, and it was open
    obtain ⟨g₀, hg₀⟩ : ∃ g₀, w.bodies[id]? = some g₀ := ⟨_, List.getElem?_eq_getElem hlt⟩
    obtain ⟨g', hg', hgrows⟩ := ho.grown hx ht id g₀ hg₀
    obtain rfl : g = g' := Option.some.inj (hg.symm.trans hg')
    have hopen₀ : g₀.closed = false := by
      rcases hgrows with rfl | ⟨h, -⟩
      · exact hopen
      · exact h
    obtain ⟨j, y, doing, hy, hcop⟩ := ho.fed id g₀ hg₀ hopen₀
    by_cases hij : j = i
    · subst hij
      obtain rfl : x = y := Option.some.inj (hx.symm.trans hy)
      obtain ⟨doing', hcop'⟩ := ht.copies_stay (ho.course j x hx) hcop
      exact ⟨j, x', doing', ht.exchange_self hx, hcop'⟩
    · exact ⟨j, y, doing, (ht.exchange_ne hij).trans hy, hcop⟩
  · -- the body has just been opened
    refine ⟨i, x', .taking, ht.exchange_self hx, ?_⟩
    have hlen : id < b.bodies.length := (List.getElem?_eq_some_iff.1 hg).1
    cases ht with
    | keep =>
      simp only [concluding_bodies, note_bodies, opening_bodies, List.length_append,
        List.length_singleton] at hlen
      obtain rfl : id = w.bodies.length := by omega
      exact ⟨_, _, _, _, rfl⟩
    | forward | origin =>
      rw [absorb_bodies] at hlen
      exact absurd hlen (Nat.not_lt.2 hge)
    | write | stop =>
      simp only [note_bodies, modifyBody_bodies, List.length_modify] at hlen
      exact absurd hlen (Nat.not_lt.2 hge)
    | _ => exact absurd hlen (Nat.not_lt.2 hge)

theorem Orderly.copies_lt (ho : Orderly front t w) (hx : w.exchanges[i]? = some x) {id : Nat}
    {doing : Copying} (hc : Copies x id doing) : id < w.bodies.length := by
  obtain ⟨sink, failed, writes, stored, hc⟩ := hc
  obtain ⟨f, g, -, hg, -⟩ := ho.pumps i x sink id failed writes stored doing hx hc
  exact (List.getElem?_eq_some_iff.1 hg).1

/-! ## Stored entries -/

/-- What an exchange stores is made of its own response. -/
theorem Stores.keeps {v : Nat} {e : Entry} (hs : Stores front w x v e)
    (hx : w.exchanges[i]? = some x) (hc : Course front t w i x) :
    ∃ head verdict, Keeps front w i x head verdict e := by
  obtain ⟨draft, f, head, verdict, h, hf, hhead, hpol, hcases⟩ := hs
  obtain ⟨slot, previous, f₀, expiration, -, rfl, -⟩ := hc.fetching h
  refine ⟨head, verdict, ?_⟩
  rcases hcases with ⟨hv, rfl⟩ | ⟨hv, ho, rfl⟩
  · exact ⟨hx, ⟨v, _, f, h, hf, hhead⟩, hpol, hv.symm, rfl, rfl, fun hv' => by simp [hv] at hv',
      fun _ => rfl⟩
  · exact ⟨hx, ⟨v, _, f, h, hf, hhead⟩, hpol, hv.symm, rfl, rfl, fun _ => ⟨ho, rfl, rfl⟩,
      fun hv' => by simp [hv] at hv'⟩

/-- An exchange that stores an entry for replay opens the entry's body for its pump. -/
theorem Keeps.turn {head : Head} {verdict : Cacheability} {e : Entry}
    (hk : Keeps front w i x head verdict e) (hv : verdict.cacheable = true)
    (ht : Turn front w i x .front x' b) :
    x'.copier = some (.pump w.sinks w.bodies.length false 0 0 .taking) ∧ x'.fetch = x.fetch ∧
      b.bodies = w.bodies ++ [Growing.empty] ∧ x'.status = head.status ∧ b.sinks = w.sinks + 1 := by
  obtain ⟨visit, draft, f, hstage, hf, hann⟩ := hk.fetching
  cases ht with
  | enter h | skip h | forward h | forwarded h | dieForwarding h | replay h | replayHead h | ask h
  | dieAsking h | leave _ h | step h | turn h | read h | readAll h | readFailed _ h | relayPartly h
  | relay h | relayFailed h | join _ h | close _ h | report h => simp [hstage] at h
  | @decideFail visit' draft' f' head' text h hf' hhead hpol =>
    obtain rfl : f = f' := Option.some.inj (hf.symm.trans hf')
    obtain rfl : head = head' := Option.some.inj (hann.symm.trans hhead)
    simp [hk.judged] at hpol
  | @discard visit' draft' f' head' verdict' lines h hf' hhead hpol hv' =>
    obtain rfl : f = f' := Option.some.inj (hf.symm.trans hf')
    obtain rfl : head = head' := Option.some.inj (hann.symm.trans hhead)
    obtain rfl : verdict = verdict' := Except.ok.inj (hk.judged.symm.trans hpol)
    simp [hv] at hv'
  | @openFail visit' draft' f' head' verdict' text h hf' hhead hpol hv' ho =>
    simp [(hk.opened hv).1] at ho
  | @keep visit' draft' f' head' verdict' lines h hf' hhead =>
    obtain rfl : f = f' := Option.some.inj (hf.symm.trans hf')
    obtain rfl : head = head' := Option.some.inj (hann.symm.trans hhead)
    exact ⟨rfl, rfl, rfl, rfl, rfl⟩
  | @loseHead visit' draft' f' h hf' hhead =>
    obtain rfl : f = f' := Option.some.inj (hf.symm.trans hf')
    simp [hann] at hhead

theorem StoreTurn.all {P : Bytes → Entry → Prop} {s : Store} (hst : StoreTurn front w x x' s)
    (ha : w.store.All P) (hs : Store.Sound w.store)
    (hstore : ∀ (v : Nat) (u : Store.Visit) (e : Entry), x.stage.visit? = some v →
      w.store.visits[v]? = some u → Stores front w x v e → P u.key e) : s.All P := by
  rcases hst.move_stores with rfl | ⟨m, hm, hstores⟩
  · exact ha
  · refine ha.move hs hm fun v e u hme hu => ?_
    obtain ⟨hv, hst⟩ := hstores v e hme
    exact hstore v u e hv hu hst

/-- The origin and the copier do not touch the store. -/
theorem Turn.store_of_ne (ht : Turn front w i x actor x' b) (h : actor ≠ .front) :
    b.store = w.store := by
  cases ht with
  | origin => exact absorb_store _ _ _
  | drain | drained | pump | pumped | writeFail | write | stop => rfl
  | _ => exact absurd rfl h

/-- **Everything stored has been stored in a step of the run.** -/
theorem Orderly.kept_turn (ho : Orderly front t w) (hx : w.exchanges[i]? = some x)
    (ht : Turn front w i x actor x' b) :
    b.store.All (Kept front (t ++ [(w, .step i actor)])) := by
  have hkept : w.store.All (Kept front (t ++ [(w, .step i actor)])) :=
    ho.kept.mono fun _ _ hk => hk.mono fun p hp => List.mem_append_left _ hp
  by_cases hactor : actor = .front
  · subst hactor
    refine ht.store.all hkept ho.attended.sound fun v u e hv hu hs => ?_
    obtain ⟨head, verdict, hk⟩ := hs.keeps hx (ho.course i x hx)
    obtain ⟨u', hu', hkey, -⟩ := ho.attended.own i x v hx hv
    obtain rfl : u = u' := Option.some.inj (hu.symm.trans hu')
    exact ⟨w, i, x, head, verdict, by simp, hkey.symm, hk⟩
  · rw [ht.store_of_ne hactor]
    exact hkept

theorem Orderly.room_turn (ho : Orderly front t w) (hx : w.exchanges[i]? = some x)
    (ht : Turn front w i x actor x' b) {key : Bytes} {e : Entry} {id : Nat}
    (hk : Kept front (t ++ [(w, .step i actor)]) key e) (he : e.body = some (.growing id)) :
    id < b.bodies.length := by
  obtain ⟨w', j, y, head, verdict, hmem, hkey, hk⟩ := hk
  rcases List.mem_append.1 hmem with hmem | hmem
  · exact Nat.lt_of_lt_of_le (ho.room key e id ⟨w', j, y, head, verdict, hmem, hkey, hk⟩ he)
      ht.bodies_length
  · simp only [List.mem_singleton, Prod.mk.injEq, Happening.step.injEq] at hmem
    obtain ⟨rfl, rfl, rfl⟩ := hmem
    obtain rfl : x = y := Option.some.inj (hx.symm.trans hk.exchange)
    cases hv : verdict.cacheable with
    | false => simp [hk.bare hv] at he
    | true =>
      have hbody := (hk.opened hv).2.2
      rw [he, Option.some.injEq, StoredBody.growing.injEq] at hbody
      rw [(hk.turn hv ht).2.2.1, hbody, List.length_append]
      exact Nat.lt_succ_self _

end Turn

end World
end EdgeCache
