import EdgeCache.Proofs.Exchange.Record
import EdgeCache.Proofs.Runs
import Mathlib.Data.List.Flatten

/-!
# What is logged

Lines that record an access are written whatever the log shows otherwise.  `accesses_step` says what
a step adds to them: what an origin has logged itself, or else the line for the exchange, which the
front writes when it reports.  So a log consists of what the happenings of its run have recorded
(`accesses_of_run`), and the lines for one exchange are those of its steps in which its origin logs
nothing (`History.accessLines`).
-/

set_option autoImplicit false

namespace EdgeCache

/-! ## What is logged -/

/-- The lines that record an access. -/
def Log.accesses (lines : List Log.Line) : List Log.Line := lines.filter (·.level = .access)

namespace Log

theorem accesses_append (lines more : List Line) :
    accesses (lines ++ more) = accesses lines ++ accesses more := List.filter_append _ _

/-- Such a line is always written. -/
theorem accesses_extend (debug : Bool) (log lines : List Line) :
    accesses (extend debug log lines) = accesses log ++ accesses lines := by
  rw [extend, accesses_append, accesses, accesses, accesses, List.filter_filter]
  congr 1
  refine List.filter_congr fun l _ => ?_
  by_cases h : l.level = .access <;> simp [h, Line.written]

end Log

/-- What the origin of an exchange does beside writing in the next step of a task. -/
def Exchange.event? (gates : Gates) (x : Exchange) : Actor → Option Event
  | .front =>
    match x.stage with
    | .forwarding script => (script.step Client.writer gates x.own).bind (·.event)
    | _ => none
  | .origin => x.fetch.bind fun f => (f.step gates).bind (·.2.2)
  | .copier => none

/-- The line that the front of an exchange writes for the access in its next step. -/
def Exchange.accessLine (front : Front) (now : Instant) (x : Exchange) : Actor → List Log.Line
  | .front =>
    match x.stage, x.access with
    | .reporting outcome, some entry =>
      [⟨.access, (x.completeAccess now outcome entry).format front.accessFormat⟩]
    | _, _ => []
  | _ => []

theorem Exchange.accessLine_of_event {front : Front} {now : Instant} {gates : Gates} {actor : Actor}
    (x : Exchange) (h : (x.event? gates actor).isSome = true) :
    x.accessLine front now actor = [] := by
  cases actor with
  | front => cases hs : x.stage <;> simp [event?, accessLine, hs] at h ⊢
  | origin | copier => rfl

namespace World

/-- The accesses that are recorded. -/
def accesses (w : World) : List Log.Line := Log.accesses w.log

section Log

variable {front : Front} {w w' : World} {i visit : Nat} {x : Exchange}

@[simp] theorem accesses_put : (w.put i x).accesses = w.accesses := rfl

theorem accesses_note (lines : List Log.Line) :
    (w.note front lines).accesses = w.accesses ++ Log.accesses lines :=
  Log.accesses_extend _ _ _

theorem accesses_absorb (event : Option Event) :
    (w.absorb front event).accesses =
      w.accesses ++ Log.accesses (event.bind Event.line?).toList := by
  rcases event with _ | line | contact
  · exact (List.append_nil _).symm
  · exact accesses_note _
  · exact (List.append_nil _).symm

@[simp] theorem accesses_conclude (outcome : Outcome) :
    (w.conclude i x visit outcome).accesses = w.accesses := rfl

theorem accesses_enter : (w.enter front i x).accesses = w.accesses := by
  rw [enter]
  split <;> rfl

theorem accesses_replay (e : Entry) : (w.replay front i x visit e).accesses = w.accesses := by
  rw [replay]
  cases e.body <;> rfl

theorem accesses_ask : (w.ask front i x visit).accesses = w.accesses := by
  rw [ask]
  cases w.clock.add? front.settings.defaultWindow <;> rfl

theorem accesses_quiet {lines : List Log.Line} (h : Log.accesses lines = []) :
    (w.note front lines).accesses = w.accesses := by
  rw [accesses_note, h, List.append_nil]

theorem accesses_decide {f : Fetch} {draft : Entry} {head : Head} :
    (w.decide front i x f visit draft head).accesses = w.accesses := by
  rw [decide]
  cases front.policy x.request head w.clock with
  | error text => rfl
  | ok verdict =>
    cases hv : verdict.cacheable with
    | false =>
      simp only [hv, Bool.not_false, if_true, accesses_conclude]
      exact accesses_quiet rfl
    | true =>
      simp only [hv, Bool.not_true, Bool.false_eq_true, if_false]
      cases front.faults.opening w.sinks with
      | some text => rfl
      | none => exact accesses_quiet rfl

/-- The front records an access only when it reports, and lets the origin log something only when it
runs it itself. -/
theorem accesses_frontStep_of_quiet (h : w.frontStep front i = some w')
    (hx : w.exchanges[i]? = some x) (hforwarding : ∀ script, x.stage ≠ .forwarding script)
    (hreporting : ∀ outcome, x.stage ≠ .reporting outcome) : w'.accesses = w.accesses := by
  rw [frontStep] at h
  simp only [hx] at h
  cases hs : x.stage with
  | forwarding script => exact absurd hs (hforwarding script)
  | reporting outcome => exact absurd hs (hreporting outcome)
  | arrived =>
    simp only [hs, Option.some.injEq] at h
    exact h ▸ accesses_enter
  | visiting visit =>
    simp only [hs] at h
    split at h
    · split at h <;> obtain rfl := Option.some.inj h
      · exact accesses_replay _
      · exact accesses_ask
    · obtain rfl := Option.some.inj h
      exact accesses_ask
    · split at h
      · obtain rfl := Option.some.inj h
        exact accesses_quiet rfl
      · obtain ⟨store, -, rfl⟩ := Option.map_eq_some_iff.1 h
        rfl
  | replaying visit body reader =>
    simp only [hs] at h
    split at h
    · exact absurd h (by simp)
    all_goals obtain rfl := Option.some.inj h
    · rfl
    · rfl
    · rfl
    · exact accesses_quiet rfl
  | relaying visit body reader chunk =>
    simp only [hs] at h
    split at h
    · exact absurd h (by simp)
    all_goals
      obtain rfl := Option.some.inj h
      rfl
  | fetching visit draft =>
    simp only [hs] at h
    split at h
    · exact absurd h (by simp)
    · split at h
      · exact absurd h (by simp)
      · obtain rfl := Option.some.inj h
        exact accesses_decide
      · obtain rfl := Option.some.inj h
        rfl
  | joining result =>
    simp only [hs] at h
    split at h
    · obtain rfl := Option.some.inj h
      rfl
    · split at h
      · exact absurd h (by simp)
      · split at h
        · obtain rfl := Option.some.inj h
          refine accesses_quiet ?_
          rw [Fetch.report]
          split <;> rfl
        · exact absurd h (by simp)
  | closing result =>
    simp only [hs] at h
    split at h
    · exact absurd h (by simp)
    · obtain rfl := Option.some.inj h
      refine accesses_quiet ?_
      cases result <;> rfl
  | finished | died => simp [hs] at h

theorem accesses_copierStep (h : w.copierStep front i = some w') : w'.accesses = w.accesses := by
  rw [copierStep] at h
  split at h
  · exact absurd h (by simp)
  · split at h
    · split at h
      · obtain rfl := Option.some.inj h
        rfl
      · exact absurd h (by simp)
      · obtain rfl := Option.some.inj h
        rfl
    · split at h
      · obtain rfl := Option.some.inj h
        rfl
      · exact absurd h (by simp)
      · obtain rfl := Option.some.inj h
        rfl
    · split at h
      · obtain rfl := Option.some.inj h
        exact accesses_quiet rfl
      · obtain rfl := Option.some.inj h
        rfl
    · obtain rfl := Option.some.inj h
      refine accesses_quiet ?_
      split <;> rfl
    · exact absurd h (by simp)

/-- **What a step adds to the accesses** is what an origin logs itself, or else the line for the
exchange. -/
theorem accesses_step {actor : Actor} (h : w.step front i actor = some w')
    (hx : w.exchanges[i]? = some x) :
    w'.accesses = w.accesses ++
      (Log.accesses ((x.event? w.gates actor).bind Event.line?).toList ++
        x.accessLine front w.clock actor) := by
  have hquiet : x.event? w.gates actor = none → x.accessLine front w.clock actor = [] →
      w'.accesses = w.accesses → w'.accesses = w.accesses ++
        (Log.accesses ((x.event? w.gates actor).bind Event.line?).toList ++
          x.accessLine front w.clock actor) := by
    intro hevent hline hsame
    rw [hevent, hline, hsame]
    exact (List.append_nil _).symm
  cases actor with
  | front =>
    cases hs : x.stage with
    | forwarding script =>
      have hline : x.accessLine front w.clock .front = [] := by simp [Exchange.accessLine, hs]
      simp only [step, frontStep, hx, hs] at h
      split at h
      · obtain rfl := Option.some.inj h
        exact hquiet (by simp [Exchange.event?, hs, Script.step]) hline rfl
      · obtain rfl := Option.some.inj h
        exact hquiet (by simp [Exchange.event?, hs, Script.step]) hline rfl
      · split at h
        · exact absurd h (by simp)
        · next m hm =>
          obtain rfl := Option.some.inj h
          have hevent : x.event? w.gates .front = m.event := by
            simp only [Exchange.event?, hs, hm, Option.bind_some]
          rw [hevent, hline, List.append_nil, accesses_absorb]
          rfl
    | reporting outcome =>
      simp only [step, frontStep, hx, hs] at h
      obtain rfl := Option.some.inj h
      rw [accesses_put, accesses_note]
      simp only [Exchange.event?, Exchange.accessLine, hs]
      cases x.access <;> rfl
    | _ =>
      exact hquiet (by simp [Exchange.event?, hs]) (by simp [Exchange.accessLine, hs])
        (accesses_frontStep_of_quiet h hx (by simp [hs]) (by simp [hs]))
  | origin =>
    simp only [step, originStep, hx] at h
    split at h
    · exact absurd h (by simp)
    · next f hf =>
      split at h
      · exact absurd h (by simp)
      · next f' gates event hstep =>
        obtain rfl := Option.some.inj h
        have hevent : x.event? w.gates .origin = event := by
          simp only [Exchange.event?, hf, hstep, Option.bind_some]
        have hline : x.accessLine front w.clock .origin = [] := rfl
        rw [hevent, hline, List.append_nil, accesses_absorb]
        rfl
  | copier => exact hquiet rfl rfl (accesses_copierStep h)

/-- What comes from outside logs nothing. -/
theorem log_happen {a : Happening} (h : w.happen front a = some w')
    (ha : ∀ i actor, a ≠ .step i actor) : w'.log = w.log := by
  cases a with
  | step i actor => exact absurd rfl (ha i actor)
  | arrive | release =>
    obtain rfl := Option.some.inj h
    rfl
  | tick now =>
    rw [happen, Option.ite_none_right_eq_some, Option.some.injEq] at h
    obtain ⟨-, rfl⟩ := h
    rfl
  | take i =>
    obtain rfl := Option.some.inj h
    rw [take]
    split <;> rfl
  | abandon i =>
    obtain rfl := Option.some.inj h
    rw [abandon]
    split <;> rfl

end Log

end World

/-! ## The lines for an exchange -/

namespace History

open World

/-- What a happening adds to the accesses. -/
def recorded (front : Front) (p : World × Happening) : List Log.Line :=
  ((p.1.happen front p.2).getD p.1).accesses.drop p.1.accesses.length

/-- It is a step of the exchange in which its origin does nothing beside writing. -/
def serves (i : Nat) (p : World × Happening) : Bool :=
  match p.2 with
  | .step j actor => j = i && (p.1.exchanges[i]?).any fun x => (x.event? p.1.gates actor).isNone
  | _ => false

/-- The accesses that are recorded for an exchange: not those that its origin logs itself. -/
def accessLines (front : Front) (t : History) (i : Nat) : List Log.Line :=
  (t.filter (serves i)).flatMap (recorded front)

section

variable {front : Front} {t t' : History} {w w' : World} {a : Happening} {i : Nat} {x : Exchange}
  {actor : Actor}

theorem accessLines_append :
    accessLines front (t ++ t') i = t.accessLines front i ++ accessLines front t' i := by
  rw [accessLines, List.filter_append, List.flatMap_append]
  rfl

/-- What does not serve the exchange records nothing for it. -/
theorem accessLines_other (h : serves i (w, a) = false) :
    accessLines front (t ++ [(w, a)]) i = t.accessLines front i := by
  rw [accessLines_append, accessLines, accessLines, List.filter_cons_of_neg (by simp [h])]
  exact List.append_nil _

theorem accessLines_step_ne {j : Nat} (hij : j ≠ i) :
    accessLines front (t ++ [(w, .step i actor)]) j = t.accessLines front j :=
  accessLines_other (by simp [serves, Ne.symm hij])

theorem accessLines_outside (ha : ∀ i actor, a ≠ .step i actor) :
    accessLines front (t ++ [(w, a)]) i = t.accessLines front i := by
  refine accessLines_other ?_
  cases a with
  | step j actor => exact absurd rfl (ha j actor)
  | _ => rfl

/-- For an exchange that is still to come nothing has been recorded. -/
theorem accessLines_unborn {w₀ : World} (hrun : Run (World.happen front) w₀ t w)
    (hi : w.exchanges.length ≤ i) : t.accessLines front i = [] := by
  induction hrun with
  | start => rfl
  | @next t w w' a _ ha ih =>
    rcases happen_cases ha with ⟨j, actor, x, x', b, rfl, hx, ht, rfl⟩ | hout
    · rw [put_exchanges, ht.exchanges, List.length_set] at hi
      have hij : i ≠ j := by
        rintro rfl
        exact absurd (List.getElem?_eq_some_iff.1 hx).1 (Nat.not_lt.2 hi)
      rw [accessLines_step_ne hij, ih hi]
    · rw [accessLines_outside hout.noStep, ih (Nat.le_trans hout.length_le hi)]

/-- A happening adds to what is recorded, and takes nothing away. -/
theorem accesses_happen (h : w.happen front a = some w') :
    w'.accesses = w.accesses ++ recorded front (w, a) := by
  have hadds : ∀ more, w'.accesses = w.accesses ++ more →
      w'.accesses = w.accesses ++ recorded front (w, a) := by
    intro more hmore
    rw [recorded, h, Option.getD_some, hmore, List.drop_left]
  cases a with
  | step i actor =>
    cases hx : w.exchanges[i]? with
    | some x => exact hadds _ (accesses_step h hx)
    | none =>
      exfalso
      cases actor <;> simp [happen, step, frontStep, originStep, copierStep, hx] at h
  | _ => exact hadds [] (by rw [List.append_nil, accesses, log_happen h (by simp), accesses])

/-- **A step of an exchange adds its line**, if it writes it. -/
theorem accessLines_step (h : w.happen front (.step i actor) = some w')
    (hx : w.exchanges[i]? = some x) :
    accessLines front (t ++ [(w, .step i actor)]) i =
      t.accessLines front i ++ x.accessLine front w.clock actor := by
  cases hevent : x.event? w.gates actor with
  | some event =>
    rw [x.accessLine_of_event (by rw [hevent]; rfl), List.append_nil]
    exact accessLines_other (by simp [serves, hx, hevent])
  | none =>
    have hserves : serves i (w, .step i actor) = true := by simp [serves, hx, hevent]
    have hrecorded : recorded front (w, .step i actor) = x.accessLine front w.clock actor := by
      rw [recorded, h, Option.getD_some, accesses_step h hx, List.drop_left, hevent]
      rfl
    rw [accessLines_append, accessLines, accessLines, List.filter_cons_of_pos hserves,
      List.flatMap_cons, hrecorded]
    congr 1
    exact List.append_nil _

/-- **The log is what has been recorded.** -/
theorem accesses_of_run {w₀ : World} (hrun : Run (World.happen front) w₀ t w) :
    w.accesses = w₀.accesses ++ t.flatMap (recorded front) := by
  induction hrun with
  | start => exact (List.append_nil _).symm
  | @next t w w' a _ ha ih =>
    rw [accesses_happen ha, ih, List.flatMap_append, List.append_assoc]
    congr 2
    exact (List.append_nil _).symm

/-- So the lines for an exchange stand in the log, in their order. -/
theorem accessLines_sublist {w₀ : World} (hrun : Run (World.happen front) w₀ t w) :
    (t.accessLines front i).Sublist w.log := by
  refine List.Sublist.trans ?_ (List.filter_sublist (p := fun l => l.level = .access))
  show (t.accessLines front i).Sublist w.accesses
  rw [accesses_of_run hrun, accessLines]
  exact ((List.filter_sublist (p := serves i)).flatMap _).trans (List.sublist_append_right _ _)

end

end History
end EdgeCache
