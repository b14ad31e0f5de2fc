import EdgeCache.Proofs.Exchange.Steps
import Mathlib.Logic.Hydra

/-!
# Exchanges do not go on for ever

No run of steps is infinite (`terminates`).  There is no bound on the number of steps, since an
origin may do any amount of work depending on what it sees; so the measure is not a number.  Of each
exchange it takes, in this order of weight,

* what is left of its scripts (`Errand`): an origin that has not been asked yet, then ever less of
  it;
* the chunks that its copier has still to take (`chores`);
* the stages that its front has still to come to (`rung`);

and of all exchanges together the steps that lead to the next stage (`toGo`), which is what a reader
has still to read of a body, or what a visit has before it.  The last counts least because it is the
only part that the others can add to: a copier that writes to a body gives work to all who read it.
-/

set_option autoImplicit false

namespace EdgeCache

/-! ## Scripts -/

/-- What is left of the scripts of an exchange; of a script that is under way, with the number of
steps that leave it as it is. -/
inductive Errand where
  /-- The origin has not been asked. -/
  | unasked
  | forwarding (script : Script Handled) (parts : Nat)
  | fetching (script : Script Unit) (parts : Nat)
  | done

namespace Errand

/-- Less is left. -/
inductive Less : Errand → Errand → Prop
  | skip {s : Script Handled} {n : Nat} : Less (.forwarding s n) .unasked
  | ask {s : Script Unit} {n : Nat} : Less (.fetching s n) .unasked
  | forward {s s' : Script Handled} {n n' : Nat} (h : Script.Less s' s) :
      Less (.forwarding s' n') (.forwarding s n)
  | forwardPart {s : Script Handled} {n n' : Nat} (h : n' < n) :
      Less (.forwarding s n') (.forwarding s n)
  | forwarded {s : Script Handled} {n : Nat} : Less .done (.forwarding s n)
  | fetch {s s' : Script Unit} {n n' : Nat} (h : Script.Less s' s) :
      Less (.fetching s' n') (.fetching s n)
  | fetchPart {s : Script Unit} {n n' : Nat} (h : n' < n) : Less (.fetching s n') (.fetching s n)

theorem acc_done : Acc Less .done := ⟨_, fun _ h => by cases h⟩

theorem acc_forwarding (s : Script Handled) : ∀ n, Acc Less (.forwarding s n) := by
  induction Script.acc_less s with
  | intro s _ ih =>
    intro n
    induction n using Nat.strongRecOn with
    | ind n ihn =>
      refine ⟨_, fun e h => ?_⟩
      cases h with
      | forward h => exact ih _ h _
      | forwardPart h => exact ihn _ h
      | forwarded => exact acc_done

theorem acc_fetching (s : Script Unit) : ∀ n, Acc Less (.fetching s n) := by
  induction Script.acc_less s with
  | intro s _ ih =>
    intro n
    induction n using Nat.strongRecOn with
    | ind n ihn =>
      refine ⟨_, fun e h => ?_⟩
      cases h with
      | fetch h => exact ih _ h _
      | fetchPart h => exact ihn _ h

theorem wellFounded_less : WellFounded Less := by
  refine ⟨fun e => ?_⟩
  cases e with
  | unasked =>
    refine ⟨_, fun e h => ?_⟩
    cases h with
    | skip => exact acc_forwarding _ _
    | ask => exact acc_fetching _ _
  | forwarding s n => exact acc_forwarding s n
  | fetching s n => exact acc_fetching s n
  | done => exact acc_done

end Errand

/-- The steps of a tee that are only a part of a write. -/
def Tee.parts (t : Tee) : Nat :=
  (if t.isCommitted then 0 else 1) + (if t.halfway.isNone then 1 else 0)

/-- The steps of an origin that leave its script as it is. -/
def Fetch.parts (f : Fetch) : Nat := (if f.ending.isNone then 1 else 0) + f.tee.parts

theorem Tee.parts_lt {t t' : Tee} {chunk : Bytes} (h : t.write chunk = .partly t') :
    t'.parts < t.parts := by
  rw [Tee.write] at h
  cases hh : t.halfway with
  | some failure =>
    simp only [hh] at h
    split at h <;> exact absurd h (by simp)
  | none =>
    simp only [hh] at h
    cases hc : t.isCommitted with
    | false =>
      simp only [hc, Bool.not_false, if_true, Progress.partly.injEq] at h
      subst h
      have hhead : t.client.head = none := by simpa [isCommitted, Client.isCommitted] using hc
      have hcommitted : (t.commit .ok).isCommitted = true := by
        rw [commit, hc, if_neg (by simp), isCommitted, Client.isCommitted, Client.head_commit hhead]
        rfl
      simp [parts, hcommitted, hc, (Tee.commit_eq t .ok).2.1, hh]
    | true =>
      simp only [hc, Bool.not_true, Bool.false_eq_true, if_false] at h
      split at h
      · exact absurd h (by simp)
      · next c hw => exact absurd hw (Client.write_ne_partly hc)
      · next c failure hw =>
        split at h
        · rw [Progress.partly.injEq] at h
          subst h
          have hcommitted : c.isCommitted = true := by
            rw [Client.isCommitted, Client.head_of_write hc hw]
            exact hc
          simp [parts, isCommitted, hcommitted, hh]
        · exact absurd h (by simp)

/-- **A step of an origin leaves less of its script**, or is one of few that do not. -/
theorem Fetch.step_less {f f' : Fetch} {gates gates' : Gates} {event : Option Event}
    (h : f.step gates = some (f', gates', event)) :
    Errand.Less (.fetching f'.script f'.parts) (.fetching f.script f.parts) := by
  rw [Fetch.step] at h
  split at h
  · exact absurd h (by simp)
  · next hend =>
    have hclose : ∀ ending, Errand.Less (.fetching (f.close ending).script (f.close ending).parts)
        (.fetching f.script f.parts) := by
      intro ending
      refine .fetchPart ?_
      have hparts : (f.close ending).tee.parts = f.tee.parts := rfl
      rw [parts, parts, hparts, hend]
      exact Nat.add_lt_add_right Nat.zero_lt_one _
    split at h
    · simp only [Option.some.injEq, Prod.mk.injEq] at h
      exact h.1 ▸ hclose _
    · simp only [Option.some.injEq, Prod.mk.injEq] at h
      exact h.1 ▸ hclose _
    · split at h
      · exact absurd h (by simp)
      · next m hm =>
        simp only [Option.some.injEq, Prod.mk.injEq] at h
        rw [← h.1]
        rcases Script.step_less hm with hless | ⟨hsame, chunk, k, -, hw⟩
        · exact .fetch hless
        · rw [hsame]
          have hlt : m.writer.parts < f.tee.parts := Tee.parts_lt hw
          refine .fetchPart ?_
          simpa [parts] using hlt

/-! ## What lies ahead of an exchange -/

/-- What is left of the scripts of the exchange. -/
def Exchange.errand (x : Exchange) : Errand :=
  match x.fetch with
  | some f => .fetching f.script f.parts
  | none =>
    match x.stage with
    | .forwarding script => .forwarding script (if x.own.isCommitted then 0 else 1)
    | _ => if x.cache = .skip then .done else .unasked

/-- The steps of a copier that has nothing more to take. -/
def Copying.chores : Copying → Nat
  | .taking => 2
  | .writing _ => 3
  | .closing => 1
  | .stopped => 0

def Copier.chores : Copier → Nat
  | .drain stopped => if stopped then 0 else 1
  | .pump _ _ _ _ _ doing => doing.chores

/-- The steps of the copier of the exchange, should its origin write no more. -/
def Exchange.chores (x : Exchange) : Nat :=
  2 * ((x.fetch.map fun f => f.tee.buffer.length).getD 0) + (x.copier.map Copier.chores).getD 3

/-- How many stages the front of the exchange is from its end. -/
def Exchange.rung (x : Exchange) : Nat :=
  match x.stage with
  | .arrived => 8
  | .forwarding _ => 7
  | .visiting _ => if x.cache = .miss ∧ x.fetch = none then 6 else 4
  | .replaying _ _ _ | .relaying _ _ _ _ | .fetching _ _ => 5
  | .joining _ => 3
  | .closing _ => 2
  | .reporting _ => 1
  | .finished _ | .died => 0

/-- What lies ahead of the exchange. -/
def Exchange.ahead (x : Exchange) : Errand × Nat × Nat := (x.errand, x.chores, x.rung)

/-- Less lies ahead. -/
def Nearer : Errand × Nat × Nat → Errand × Nat × Nat → Prop :=
  Prod.Lex Errand.Less (Prod.Lex (· < ·) (· < ·))

theorem wellFounded_nearer : WellFounded Nearer :=
  Errand.wellFounded_less.prod_lex (Nat.lt_wfRel.wf.prod_lex Nat.lt_wfRel.wf)

section Nearer

variable {x x' : Exchange}

theorem nearer_of_errand (h : Errand.Less x'.errand x.errand) : Nearer x'.ahead x.ahead :=
  .left _ _ h

theorem nearer_of_chores (he : x'.errand = x.errand) (h : x'.chores < x.chores) :
    Nearer x'.ahead x.ahead := by
  rw [Exchange.ahead, Exchange.ahead, he]
  exact .right _ (.left _ _ h)

theorem nearer_of_rung (he : x'.errand = x.errand) (hc : x'.chores ≤ x.chores)
    (h : x'.rung < x.rung) : Nearer x'.ahead x.ahead := by
  rcases Nat.lt_or_eq_of_le hc with hlt | heq
  · exact nearer_of_chores he hlt
  · rw [Exchange.ahead, Exchange.ahead, he, heq]
    exact .right _ (.right _ h)

end Nearer

/-- How many steps a reader takes to the end of a body that does not grow any more. -/
def Reader.toGo (bodies : List Growing) (r : Reader) : StoredBody → Nat
  | .growing id =>
    let g := bodies.getD id { attached := false }
    3 * (g.chunks.length - r.index) +
      (if r.waiting then if r.seen = g.version then 1 else 3 else 2)
  | .fixed chunks _ => 3 * (chunks.length - r.index) + 2

theorem Reader.toGo_turning {bodies : List Growing} {r r' : Reader} {body : StoredBody}
    (h : r.read bodies body = .turning r') : r'.toGo bodies body < r.toGo bodies body := by
  cases body with
  | growing id =>
    cases Reader.look h with
    | wakes hw hseen =>
      simp only [toGo, hw, if_neg hseen, Bool.false_eq_true, if_false, if_true]
      omega
    | rests hw => simp [toGo, hw]
  | fixed chunks failure =>
    simp only [read] at h
    split at h
    · exact absurd h (by simp)
    · split at h <;> exact absurd h (by simp)

theorem Reader.toGo_chunk {bodies : List Growing} {r r' : Reader} {body : StoredBody} {data : Bytes}
    (h : r.read bodies body = .chunk data r') : r'.toGo bodies body + 1 < r.toGo bodies body := by
  cases body with
  | growing id =>
    cases Reader.look h with
    | gives hw hdata =>
      have hlt := (List.getElem?_eq_some_iff.1 hdata).1
      simp only [toGo, hw, Bool.false_eq_true, if_false]
      omega
  | fixed chunks failure =>
    simp only [read] at h
    split at h
    · next data' hdata =>
      rw [Reading.chunk.injEq] at h
      obtain ⟨-, rfl⟩ := h
      have hlt := (List.getElem?_eq_some_iff.1 hdata).1
      simp only [toGo]
      omega
    · split at h <;> exact absurd h (by simp)

namespace World

/-- How many steps the front of the exchange takes to its next stage. -/
def toGo (w : World) (x : Exchange) : Nat :=
  match x.stage with
  | .visiting visit => ((w.store.phaseOf visit).map Store.Phase.toGo).getD 0
  | .replaying _ body reader => reader.toGo w.bodies body
  | .relaying _ body reader _ => reader.toGo w.bodies body + 1
  | _ => 0

theorem toGo_congr {w w' : World} {x : Exchange} (hb : w'.bodies = w.bodies)
    (hv : ∀ v, x.stage.visit? = some v → w'.store.phaseOf v = w.store.phaseOf v) :
    w'.toGo x = w.toGo x := by
  unfold toGo
  cases hs : x.stage with
  | visiting v => simp only [hv v (by rw [hs]; rfl)]
  | replaying | relaying => simp only [hb]
  | _ => rfl

/-! ## A turn brings an exchange nearer to its end -/

section Turn

variable {front : Front} {t : History} {w b : World} {i : Nat} {x x' : Exchange} {actor : Actor}

/-- What an origin does leaves less of its script. -/
theorem nearer_origin {f f' : Fetch} {gates : Gates} {event : Option Event} (hf : x.fetch = some f)
    (hs : f.step w.gates = some (f', gates, event)) :
    Nearer { x with fetch := some f' }.ahead x.ahead := by
  refine nearer_of_errand ?_
  simp only [Exchange.errand, hf]
  exact Fetch.step_less hs

/-- What a copier does leaves it less to do. -/
theorem nearer_copier (ht : Turn front w i x .copier x' b) : Nearer x'.ahead x.ahead := by
  cases ht with
  | @drain f f' data hc hf hr =>
    obtain ⟨rest, -, hbuf, rfl⟩ := Fetch.receive_chunk hr
    refine nearer_of_chores (by simp only [Exchange.errand, hf]; rfl) ?_
    simp only [Exchange.chores, hf, hc, hbuf, Option.map_some, Option.getD_some, List.length_cons]
    omega
  | drained hc hf =>
    refine nearer_of_chores rfl ?_
    simp [Exchange.chores, hf, hc, Copier.chores]
  | @pump sink id writes stored failed f f' data hc hf hr =>
    obtain ⟨rest, -, hbuf, rfl⟩ := Fetch.receive_chunk hr
    refine nearer_of_chores (by simp only [Exchange.errand, hf]; rfl) ?_
    simp only [Exchange.chores, hf, hc, hbuf, Option.map_some, Option.getD_some, List.length_cons,
      Copier.chores]
    cases failed with
    | true =>
      simp [Copying.chores]
    | false =>
      simp [Copying.chores]
      omega
  | pumped hc | writeFail _ hc | write hc | stop _ hc =>
    refine nearer_of_chores rfl ?_
    simp [Exchange.chores, hc, Copier.chores, Copying.chores]

/-- **What a front does brings it to its next stage, or nearer to it.** -/
theorem nearer_front (ho : Orderly front t w) (hx : w.exchanges[i]? = some x)
    (ht : Turn front w i x .front x' b) :
    Nearer x'.ahead x.ahead ∨
      (x'.ahead = x.ahead ∧ b.bodies = w.bodies ∧ (b.put i x').toGo x' < w.toGo x) := by
  have hc := ho.course i x hx
  cases ht with
  | enter h he =>
    have hf := hc.arrived h
    refine .inl (nearer_of_rung ?_ (Nat.le_refl _) ?_)
    · simp [Exchange.errand, h, hf.fetch]
    · simp [Exchange.rung, h, hf.fetch, hf.cache]
  | skip h he =>
    have hf := hc.arrived h
    refine .inl (nearer_of_errand ?_)
    simp only [Exchange.errand, h, hf.fetch, hf.cache, reduceCtorEq, if_false]
    exact .skip
  | @forward script m h hm =>
    obtain ⟨⟨-, hnone, -⟩, -⟩ := hc.forwarding h
    refine .inl (nearer_of_errand ?_)
    simp only [Exchange.errand, h, hnone]
    rcases Script.step_less hm with hless | ⟨hsame, chunk, k, -, hw⟩
    · exact .forward hless
    · rw [hsame]
      refine .forwardPart ?_
      have hpart : x.own.write chunk = .partly m.writer := hw
      cases hcom : x.own.isCommitted with
      | true => exact absurd hpart (Client.write_ne_partly hcom)
      | false =>
        rw [Client.isCommitted_of_partly hpart]
        simp
  | forwarded h | dieForwarding h =>
    obtain ⟨⟨hskip, hnone, -⟩, -⟩ := hc.forwarding h
    refine .inl (nearer_of_errand ?_)
    simp only [Exchange.errand, h, hnone, hskip, if_true]
    exact .forwarded
  | replay h hh | replayHead h hh =>
    have hf := hc.fresh_of_handed h hh
    refine .inl (nearer_of_rung ?_ (Nat.le_refl _) ?_)
    · simp [Exchange.errand, h, hf.fetch, hf.cache]
    · simp [Exchange.rung, h, hf.fetch, hf.cache]
  | ask h hh =>
    have hf := hc.fresh_of_handed h hh
    refine .inl (nearer_of_errand ?_)
    simp only [Exchange.errand, h, hf.fetch, hf.cache, reduceCtorEq, if_false]
    exact .ask
  | dieAsking h hh =>
    have hf := hc.fresh_of_handed h hh
    refine .inl (nearer_of_rung ?_ (Nat.le_refl _) ?_)
    · simp [Exchange.errand, h, hf.fetch]
    · simp [Exchange.rung, h, hf.fetch, hf.cache]
  | leave lines h hh hr =>
    refine .inl (nearer_of_rung (by simp [Exchange.errand, h]) (Nat.le_refl _) ?_)
    simp only [Exchange.rung, h]
    split <;> omega
  | @step visit store h hh hr hs =>
    obtain ⟨u, u', hu, hu', hlt⟩ := Store.toGo_step hs
    refine .inr ⟨rfl, rfl, ?_⟩
    simpa [toGo, h, Store.phaseOf_eq hu, Store.phaseOf_eq hu'] using hlt
  | turn h hr =>
    refine .inr ⟨by simp [Exchange.ahead, Exchange.errand, Exchange.chores, Exchange.rung, h],
      rfl, ?_⟩
    simpa [toGo, h] using Reader.toGo_turning hr
  | read h hr =>
    refine .inr ⟨by simp [Exchange.ahead, Exchange.errand, Exchange.chores, Exchange.rung, h],
      rfl, ?_⟩
    simpa [toGo, h] using Reader.toGo_chunk hr
  | readAll h | readFailed _ h =>
    obtain ⟨e, slot, n, -, hr, -⟩ := hc.replaying h
    refine .inl (nearer_of_rung (by simp [Exchange.errand, h]) (Nat.le_refl _) ?_)
    simp [Exchange.rung, h, hr.cache]
  | relayPartly h hw =>
    obtain ⟨e, slot, n, -, hr, -⟩ := hc.relaying h
    exact absurd hw (Client.write_ne_partly (by rw [Client.isCommitted, hr.head]; rfl))
  | relay h hw =>
    refine .inr ⟨by simp [Exchange.ahead, Exchange.errand, Exchange.chores, Exchange.rung, h],
      rfl, ?_⟩
    simp [toGo, h]
  | relayFailed h hw =>
    obtain ⟨e, slot, n, -, hr, -⟩ := hc.relaying h
    refine .inl (nearer_of_rung (by simp [Exchange.errand, h]) (Nat.le_refl _) ?_)
    simp [Exchange.rung, h, hr.cache]
  | decideFail h hf | openFail h hf | loseHead h hf =>
    refine .inl (nearer_of_rung ?_ ?_ ?_)
    · simp only [Exchange.errand, hf]
      rfl
    · simp [Exchange.chores, hf, Fetch.unwatch]
    · simp [Exchange.rung, h]
  | discard _ h hf | keep _ h hf =>
    obtain ⟨slot, previous, f', expiration, -, -, -, -, -, hcop, -⟩ := hc.fetching h
    refine .inl (nearer_of_rung (by simp [Exchange.errand, hf]) ?_ ?_)
    · simp [Exchange.chores, hcop, Copier.chores, Copying.chores]
    · simp [Exchange.rung, h, hf]
  | join _ h | close _ h | report h =>
    refine .inl (nearer_of_rung (by simp [Exchange.errand, h]) (Nat.le_refl _) ?_)
    simp [Exchange.rung, h]

end Turn

/-! ## And the world to its own -/

/-- What lies ahead of the exchanges of a world, and how far they are from it together. -/
def ahead (w : World) : Multiset (Errand × Nat × Nat) × Nat :=
  (Multiset.ofList (w.exchanges.map Exchange.ahead), (w.exchanges.map w.toGo).sum)

/-- A task of the world takes a step. -/
def Steps (front : Front) (w w' : World) : Prop :=
  ∃ (i : Nat) (actor : Actor), w.step front i actor = some w'

/-- The exchange of a number, and the others. -/
theorem exchanges_perm {w : World} {i : Nat} {x : Exchange} (hx : w.exchanges[i]? = some x) :
    w.exchanges.Perm (x :: w.exchanges.eraseIdx i) ∧
      ∀ x' : Exchange, (w.exchanges.set i x').Perm (x' :: w.exchanges.eraseIdx i) := by
  obtain ⟨hi, rfl⟩ := List.getElem?_eq_some_iff.1 hx
  exact ⟨(List.getElem_cons_eraseIdx_perm hi).symm, fun x' => List.set_perm_cons_eraseIdx hi x'⟩

/-- **Every step leaves less ahead.** -/
theorem Orderly.steps_lt {front : Front} {t : History} {w w' : World} (ho : Orderly front t w)
    (h : Steps front w w') :
    Prod.Lex (Relation.CutExpand Nearer) (· < ·) w'.ahead w.ahead := by
  obtain ⟨i, actor, h⟩ := h
  rcases happen_cases (a := .step i actor) h with ⟨j, actor', x, x', b, ha, hx, ht, rfl⟩ | hout
  · rw [Happening.step.injEq] at ha
    obtain ⟨rfl, rfl⟩ := ha
    obtain ⟨hperm, hperm'⟩ := exchanges_perm hx
    have hold : Multiset.ofList (w.exchanges.map Exchange.ahead) =
        {x.ahead} + Multiset.ofList ((w.exchanges.eraseIdx i).map Exchange.ahead) := by
      rw [Multiset.coe_eq_coe.2 (hperm.map _)]
      rfl
    have hnew : Multiset.ofList ((b.put i x').exchanges.map Exchange.ahead) =
        {x'.ahead} + Multiset.ofList ((w.exchanges.eraseIdx i).map Exchange.ahead) := by
      rw [put_exchanges, ht.exchanges, Multiset.coe_eq_coe.2 ((hperm' x').map _)]
      rfl
    have hnearer : Nearer x'.ahead x.ahead →
        Prod.Lex (Relation.CutExpand Nearer) (· < ·) (b.put i x').ahead w.ahead := by
      intro hless
      refine .left _ _ ?_
      rw [hold, hnew]
      exact Relation.cutExpand_single_add hless _
    cases actor with
    | front =>
      rcases nearer_front ho hx ht with hless | ⟨hsame, hbodies, hlt⟩
      · exact hnearer hless
      · -- the others are as far from their next stages as they were
        have hothers : ∀ y ∈ w.exchanges.eraseIdx i, (b.put i x').toGo y = w.toGo y := by
          intro y hy
          obtain ⟨j, hij, hj⟩ := List.mem_eraseIdx_iff_getElem?.1 hy
          refine toGo_congr hbodies fun v hv => ?_
          rw [Store.phaseOf, Store.phaseOf, put_store,
            ho.attended.visit_other hx ht.store hj hij hv]
        rw [ahead, ahead, hold, hnew, hsame]
        refine .right _ ?_
        rw [put_exchanges, ht.exchanges, ((hperm' x').map _).sum_eq, (hperm.map _).sum_eq,
          List.map_cons, List.map_cons, List.map_congr_left hothers, List.sum_cons, List.sum_cons]
        exact Nat.add_lt_add_right hlt _
    | origin =>
      cases ht with
      | origin hf hs => exact hnearer (nearer_origin hf hs)
    | copier => exact hnearer (nearer_copier ht)
  · exact absurd rfl (hout.noStep i actor)

/-! ## While things come from outside -/

/-- It comes from outside, and is no request: time passes, a gate opens, or a client takes a chunk
or goes away. -/
def Happening.isAside : Happening → Bool
  | .release _ | .tick _ | .take _ | .abandon _ => true
  | .step _ _ | .arrive _ _ _ => false

theorem Happening.tidy_of_isAside {a : Happening} (h : a.isAside = true) : Tidy a := by
  rintro request client access rfl
  simp [isAside] at h

theorem Relinked.errand {x y : Exchange} (h : Relinked x y) : y.errand = x.errand := by
  cases h with
  | own link hf hy | tee link hf hy =>
    simp only [hy, Exchange.errand, hf]
    rfl

theorem Relinked.ahead {x y : Exchange} (h : Relinked x y) : y.ahead = x.ahead := by
  have hchores : y.chores = x.chores := by
    rw [Exchange.chores, Exchange.chores, h.copier]
    cases hf : x.fetch with
    | none => rw [h.fetch_eq_none hf]
    | some f =>
      obtain ⟨link, hy⟩ := h.fetch_eq_some hf
      rw [hy]
      rfl
  have hrung : y.rung = x.rung := by
    have hnone : y.fetch = none ↔ x.fetch = none := by
      cases hf : x.fetch with
      | none => simp [h.fetch_eq_none hf]
      | some f =>
        obtain ⟨link, hy⟩ := h.fetch_eq_some hf
        simp [hy]
    simp only [Exchange.rung, h.stage, h.cache, hnone]
  rw [Exchange.ahead, Exchange.ahead, h.errand, hchores, hrung]

theorem Relinked.toGo {w w' : World} {x y : Exchange} (h : Relinked x y)
    (hs : w'.store = w.store) (hb : w'.bodies = w.bodies) : w'.toGo y = w.toGo x := by
  simp only [World.toGo, h.stage, hs, hb]

/-- What is the same of exchanges whose clients have other links, a happening that brings no request
leaves as it is. -/
theorem Outside.map_eq {w w' : World} {a : Happening} {β : Type} {g g' : Exchange → β}
    (hout : Outside w a w') (ha : a.isAside = true) (hg : ∀ x y, Relinked x y → g' y = g x) :
    w'.exchanges.map g' = w.exchanges.map g := by
  refine List.ext_getElem? fun j => ?_
  rw [List.getElem?_map, List.getElem?_map]
  cases hx : w.exchanges[j]? with
  | some x =>
    obtain ⟨y, hy, hr⟩ := hout.still j x hx
    rw [hy, Option.map_some, Option.map_some, hg x y hr]
  | none =>
    cases hy : w'.exchanges[j]? with
    | none => rfl
    | some y =>
      rcases hout.exchange j y hy with ⟨x, hx', -⟩ | ⟨request, client, access, rfl, -⟩
      · simp [hx] at hx'
      · simp [Happening.isAside] at ha

theorem Outside.ahead {w w' : World} {a : Happening} (hout : Outside w a w')
    (ha : a.isAside = true) : w'.ahead = w.ahead := by
  rw [World.ahead, World.ahead, hout.map_eq ha fun _ _ hr => hr.ahead,
    hout.map_eq ha fun _ _ hr => hr.toGo hout.store hout.bodies]

/-- A task of the world takes a step, after a while in which no request arrives. -/
def Proceeds (front : Front) (w w' : World) : Prop :=
  ∃ (t : History) (v : World), Run (World.happen front) w t v ∧
    (∀ p ∈ t, p.2.isAside = true) ∧ Steps front v w'

/-- The while leaves ahead what is ahead. -/
theorem Orderly.aside {front : Front} {t t' : History} {w v : World} (ho : Orderly front t w)
    (hrun : Run (World.happen front) w t' v) (haside : ∀ p ∈ t', p.2.isAside = true) :
    Orderly front (t ++ t') v ∧ v.ahead = w.ahead := by
  induction hrun with
  | start => exact ⟨by simpa using ho, rfl⟩
  | @next t' v v' a _ ha ih =>
    obtain ⟨ho', hsame⟩ := ih fun p hp => haside p (List.mem_append_left _ hp)
    have ha' : a.isAside = true :=
      haside (v, a) (List.mem_append_right _ (List.mem_singleton_self _))
    rcases happen_cases ha with ⟨i, actor, x, x', b, rfl, -⟩ | hout
    · simp [Happening.isAside] at ha'
    · rw [← List.append_assoc]
      exact ⟨ho'.outside hout (Happening.tidy_of_isAside ha'), (hout.ahead ha').trans hsame⟩

/-- **Exchanges do not go on for ever**, whatever else happens meanwhile but that requests arrive:
from a world in order there is no run with infinitely many steps. -/
theorem Orderly.terminates_meanwhile {front : Front} {t : History} {w : World}
    (ho : Orderly front t w) : Acc (fun w' w => Proceeds front w w') w := by
  have hacc : Acc (Prod.Lex (Relation.CutExpand Nearer) (· < ·)) w.ahead :=
    (wellFounded_nearer.cutExpand.prod_lex Nat.lt_wfRel.wf).apply _
  generalize hm : w.ahead = m at hacc
  induction hacc generalizing t w with
  | intro m _ ih =>
    subst hm
    refine ⟨_, fun w' h => ?_⟩
    obtain ⟨t', v, hrun, haside, h⟩ := h
    obtain ⟨ho', hsame⟩ := ho.aside hrun haside
    have hlt := ho'.steps_lt h
    rw [hsame] at hlt
    obtain ⟨i, actor, hstep⟩ := h
    have htidy : Tidy (.step i actor) := fun _ _ _ h => absurd h (by simp)
    exact ih _ hlt (ho'.happen (a := .step i actor) hstep htidy) rfl

/-- From a world in order there is no infinite run of steps. -/
theorem Orderly.terminates {front : Front} {t : History} {w : World} (ho : Orderly front t w) :
    Acc (fun w' w => Steps front w w') w :=
  Subrelation.accessible (fun h => ⟨[], _, .start, by simp, h⟩) ho.terminates_meanwhile

end World
end EdgeCache
