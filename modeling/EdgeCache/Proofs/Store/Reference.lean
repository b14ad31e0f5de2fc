import EdgeCache.Proofs.Store.Progress
import EdgeCache.Proofs.Store.SingleFlight

/-!
# What a lookup comes to

A lookup is a visit of a store in which nothing else goes on, at one clock reading.  It takes a
dozen steps: two looks among the variants, at most one sweep, the producer's decision, perhaps the
way back to the slot, and the check whether the slot can be given up.  `Lookup.after` says in a few
lines what is stored in the end, and `Store.lookup_alone` that the steps come to just that, on
whichever of the paths they go.

The proof goes along the phases of the visit.  `Lookup.Stands` says for each of them what is stored
by then and what has been decided, and a move leads from one phase to the next (`Turn.stands_step`,
`Turn.stands_finish`).  A sweep comes upon no public entry, since the look before it, at the same
clock reading, would have found it.
-/

set_option autoImplicit false

namespace EdgeCache

/-- What a visit is made for, and when. -/
structure Lookup where
  key : Bytes
  /-- The entries that would do. -/
  accepts : Entry → Bool
  /-- What the clock says. -/
  now : Instant
  /-- How the producer decides on what it is handed. -/
  producer : Option Held → Outcome

namespace Lookup

variable (c : Lookup)

/-- The variants that have not expired, in their order. -/
def fresh (l : List Held) : List Held := l.filter fun h => !h.entry.expired c.now

/-- The first of them that would do. -/
def choice (l : List Held) : Option Held := (c.fresh l).find? fun h => c.accepts h.entry

/-- There is a choice, and it is public. -/
def Reuses (l : List Held) : Prop := ∃ h, c.choice l = some h ∧ h.entry.isPublic = true

/-- What the producer decides when it is handed the choice. -/
def outcome (l : List Held) : Outcome := c.producer (c.choice l)

/-- What is stored while the producer decides: everything if it has been handed a public entry, and
otherwise what has not expired. -/
def left (l : List Held) : List Held :=
  if (c.choice l).any (·.entry.isPublic) then l else c.fresh l

/-- What is stored after the lookup; if there is a new entry, it has this number. -/
def after (l : List Held) (id : Nat) : List Held :=
  match c.outcome l with
  | .replace e => ((c.left l).filter fun h => some h ≠ c.choice l) ++ [⟨id, e⟩]
  | .keep | .fail _ => c.left l

end Lookup

namespace Store

/-- Nothing goes on in the store. -/
structure Resting (s : Store) : Prop where
  sound : Sound s
  numbered : s.Numbered
  distinct : s.Distinct
  quiet : ∀ (i : Nat) (v : Visit), s.visits[i]? = some v → v.phase.isOver = true

theorem Resting.of_run {t : List (Store × Move)} {s : Store} (hrun : Run Store.move {} t s)
    (hover : ∀ (i : Nat) (v : Visit), s.visits[i]? = some v → v.phase.isOver = true) :
    s.Resting where
  sound := Sound.of_run hrun sound_empty
  numbered := Numbered.of_run hrun numbered_empty
  distinct := Distinct.of_run hrun sound_empty numbered_empty distinct_empty
  quiet := hover

/-- What the producer of a visit has been handed, and what it has decided, each time that it has. -/
def decisions (t : List (Store × Move)) (i : Nat) : List (Option Held × Outcome) :=
  t.filterMap fun q =>
    match q.2 with
    | .finish j outcome =>
      if j = i then (q.1.handed i).map fun previous => (previous, outcome) else none
    | _ => none

theorem decisions_step (t : List (Store × Move)) (s : Store) (now : Instant) (i : Nat) :
    decisions (t ++ [(s, .step now i)]) i = decisions t i := by
  simp [decisions]

theorem decisions_finish {t : List (Store × Move)} {s : Store} {i : Nat} {outcome : Outcome}
    {previous : Option Held} (h : s.handed i = some previous) :
    decisions (t ++ [(s, .finish i outcome)]) i = decisions t i ++ [(previous, outcome)] := by
  simp [decisions, h]

theorem handed_of_visit {s : Store} {i : Nat} {v : Visit} (hv : s.visits[i]? = some v) :
    s.handed i = v.phase.handed := by
  rw [handed, hv, Option.bind_some]

end Store

namespace Lookup

open Store

/-- A move of the visit `i`, which is made for the lookup. -/
inductive Moves (c : Lookup) (i : Nat) (s : Store) : Move → Prop
  | step : Moves c i s (.step c.now i)
  | decide {previous : Option Held} (h : s.handed i = some previous) :
      Moves c i s (.finish i (c.producer previous))

/-- The lookup has begun in the store `s` and come to the store `s'`, with nothing else going on. -/
structure Alone (c : Lookup) (s : Store) (t : List (Store × Move)) (s' : Store) : Prop where
  run : Run Store.move (s.begin c.key c.accepts).1 t s'
  moves : ∀ q ∈ t, c.Moves s.visits.length q.1 q.2

/-! ## The choice -/

variable {c : Lookup} {l : List Held} {held : Held}

theorem left_of_reuses (h : c.Reuses l) : c.left l = l := by
  obtain ⟨held, hchoice, hpublic⟩ := h
  simp [left, hchoice, hpublic]

theorem left_of_not_reuses (h : ¬ c.Reuses l) : c.left l = c.fresh l := by
  cases hchoice : c.choice l with
  | none => simp [left, hchoice]
  | some held =>
    have hprivate : held.entry.isPublic ≠ true := fun hpublic => h ⟨held, hchoice, hpublic⟩
    simp [left, hchoice, hprivate]

theorem mem_left_of_choice (h : c.choice l = some held) : held ∈ c.left l := by
  have hfresh : held ∈ c.fresh l := List.mem_of_find?_eq_some h
  by_cases hreuses : c.Reuses l
  · rw [left_of_reuses hreuses]
    exact (List.mem_filter.1 hfresh).1
  · rwa [left_of_not_reuses hreuses]

/-- A look among the variants finds the choice, if that is public. -/
theorem freshPublic_eq (c : Lookup) (l : List Held) :
    freshPublic c.accepts c.now l = (c.choice l).filter fun h => h.entry.isPublic := by
  have hlook : c.choice l = l.find? fun h => !h.entry.expired c.now && c.accepts h.entry := by
    rw [choice, fresh, List.find?_filter]
    congr 1
    funext h
    simp
  rw [freshPublic, hlook]
  cases l.find? fun h => !h.entry.expired c.now && c.accepts h.entry with
  | none => rfl
  | some h => rw [Option.filter_some]

theorem choice_of_freshPublic (h : freshPublic c.accepts c.now l = some held) :
    c.choice l = some held ∧ held.entry.isPublic = true := by
  rwa [freshPublic_eq, Option.filter_eq_some_iff] at h

theorem not_reuses_of_freshPublic (h : freshPublic c.accepts c.now l = none) : ¬ c.Reuses l := by
  rintro ⟨held, hchoice, hpublic⟩
  simp [freshPublic_eq, hchoice, hpublic] at h

theorem after_of_replace {e : Entry} (h : c.outcome l = .replace e)
    (hdistinct : (c.left l).Pairwise fun g h => g.id ≠ h.id) (id : Nat) :
    c.after l id = kept (c.choice l) (c.left l) ++ [⟨id, e⟩] := by
  rw [after, h, kept_eq_filter hdistinct fun _ => mem_left_of_choice]

theorem after_of_not_replace (h : ∀ e, c.outcome l ≠ .replace e) (id : Nat) :
    c.after l id = c.left l := by
  rw [after]
  cases ho : c.outcome l with
  | replace e => exact absurd ho (h e)
  | keep | fail => rfl

/-! ## Where the visit stands -/

/-- Nothing has been stored yet. -/
structure Looks (c : Lookup) (id : Nat) (ds : List (Option Held × Outcome)) (s : Store)
    (stored : List Held) (decided : List (Option Held × Outcome)) : Prop where
  variants : s.variantsOf c.key = stored
  nextId : s.nextId = id
  decisions : ds = decided

/-- All that the lookup stores has been stored. -/
structure Settles (c : Lookup) (l : List Held) (id : Nat) (ds : List (Option Held × Outcome))
    (s : Store) (r : VisitResult) : Prop where
  variants : s.variantsOf c.key = c.after l id
  decisions : ds = [(c.choice l, c.outcome l)]
  result : r = (c.outcome l).result

/-- What has come of the lookup when its visit is in a phase.  At first these variants were stored
and `id` was the next number; `ds` are the decisions by now. -/
def Stands (c : Lookup) (l : List Held) (id : Nat) (ds : List (Option Held × Outcome)) (s : Store) :
    Phase → Prop
  | .arriving | .finding | .found _ | .entering _ => c.Looks id ds s l []
  | .queueing _ read | .scanning _ read => read = c.now ∧ c.Looks id ds s l []
  | .claiming _ | .sweeping _ => ¬ c.Reuses l ∧ c.Looks id ds s l []
  | .producing _ previous => previous = c.choice l ∧ c.Looks id ds s (c.left l) []
  | .reusing _ held => c.choice l = some held ∧ c.Looks id ds s (c.left l) []
  | .returning _ held e | .swapping _ held e =>
    c.choice l = some held ∧ c.outcome l = .replace e ∧
      c.Looks id ds s (c.left l) [(c.choice l, c.outcome l)]
  | .leaving _ r | .checking _ r => c.Settles l id ds s r
  | .dropping _ r | .ended r =>
    c.Settles l id ds s r ∧ ¬ s.LeftBehind c.key
  | .lost => False

/-- It depends on nothing but the variants, the slot of the key and the next number. -/
theorem Stands.congr {id : Nat} {ds : List (Option Held × Outcome)} {s s' : Store} {p : Phase}
    (h : c.Stands l id ds s p) (hvariants : s'.variantsOf = s.variantsOf)
    (hslot : s'.slotOf = s.slotOf) (hnext : s'.nextId = s.nextId) : c.Stands l id ds s' p := by
  have hlooks {stored decided} (h : c.Looks id ds s stored decided) :
      c.Looks id ds s' stored decided :=
    ⟨hvariants ▸ h.variants, hnext ▸ h.nextId, h.decisions⟩
  have hsettles {r} (h : c.Settles l id ds s r) : c.Settles l id ds s' r :=
    ⟨hvariants ▸ h.variants, h.decisions, h.result⟩
  cases p with
  | arriving | finding | found | entering => exact hlooks h
  | queueing | scanning | claiming | sweeping | producing | reusing => exact ⟨h.1, hlooks h.2⟩
  | returning | swapping => exact ⟨h.1, h.2.1, hlooks h.2.2⟩
  | leaving | checking => exact hsettles h
  | dropping | ended =>
    refine ⟨hsettles h.1, ?_⟩
    rw [LeftBehind, hslot, hvariants]
    exact h.2
  | lost => exact h

section Turn

variable {id i : Nat} {t : List (Store × Move)} {s b : Store} {v : Visit} {p : Phase}

/-- What an entry is stored among, when it is stored in place of the choice. -/
theorem variantsOf_replaceIn_choice (hs : Sound s) (hd : s.Distinct) {slot : Nat} {e : Entry}
    (hslot : s.slotOf c.key = some slot) (hlooks : s.variantsOf c.key = c.left l)
    (ho : c.outcome l = .replace e) :
    (s.replaceIn slot (c.choice l) e).variantsOf c.key = c.after l s.nextId := by
  rw [after_of_replace ho (hlooks ▸ hd c.key), ← hlooks, variantsOf_replaceIn hs hslot, if_pos rfl]

/-- When the visit has checked its slot, the slot is not left behind: nobody else has a handle. -/
theorem stands_of_check {ds : List (Option Held × Outcome)} {slot : Nat} {r : VisitResult}
    (hs : Sound s) (hv : s.visits[i]? = some v) (hkey : v.key = c.key)
    (halone : ∀ (j : Nat) (w : Visit), j ≠ i → s.visits[j]? = some w → w.phase.isOver = true)
    (hp : v.phase = .checking slot r) (h : c.Settles l id ds s r) :
    c.Stands l id ds (s.afterCheck v.key slot) (.dropping slot r) := by
  refine ⟨⟨?_, h.decisions, h.result⟩, ?_⟩
  · rw [variantsOf_afterCheck]
    exact h.variants
  · rw [← hkey, hs.leftBehind_afterCheck hv hp]
    rintro ⟨-, j, w, hj, hw, hhandle⟩
    have hover := halone j w hj hw
    cases hph : w.phase <;> simp [hph, Phase.isOver] at hover <;>
      simp [hph, Phase.handle] at hhandle

/-- A step of the visit leads on. -/
theorem stands_of_step (hs : Sound s) (hd : s.Distinct) (hv : s.visits[i]? = some v)
    (hkey : v.key = c.key) (haccepts : v.accepts = c.accepts)
    (halone : ∀ (j : Nat) (w : Visit), j ≠ i → s.visits[j]? = some w → w.phase.isOver = true)
    (ht : Turn s i v (.step c.now i) p b) (h : c.Stands l id (decisions t i) s v.phase) :
    c.Stands l id (decisions (t ++ [(s, .step c.now i)]) i) b p := by
  rw [decisions_step]
  -- a visit that has got its slot has the slot of the key
  have hslot : ∀ {slot}, v.phase.bound = some slot → s.slotOf c.key = some slot :=
    fun hb => hkey ▸ hs.bound i v _ hv hb
  have hvariants : ∀ {slot}, v.phase.bound = some slot → s.variants slot = s.variantsOf c.key :=
    fun hb => (variantsOf_eq (hslot hb)).symm
  cases ht with
  | takeMap hp | leaveMap hp | takeRead hp | takeSlot hp | takeBack hp | takeMapAgain hp
  | drop hp =>
    rw [hp] at h
    exact h
  | find hp =>
    rw [hp] at h
    refine ⟨?_, ?_, h.decisions⟩
    · rw [variantsOf_ensureSlot]
      exact h.variants
    · rw [nextId_ensureSlot]
      exact h.nextId
  | readClock hp =>
    rw [hp] at h
    exact ⟨rfl, h⟩
  | @scanHit now read slot held hp hfind =>
    rw [hp] at h hvariants
    obtain ⟨rfl, hlooks⟩ := h
    rw [haccepts, hvariants rfl, hlooks.variants] at hfind
    obtain ⟨hchoice, hpublic⟩ := choice_of_freshPublic hfind
    refine ⟨hchoice, ?_⟩
    rwa [left_of_reuses ⟨held, hchoice, hpublic⟩]
  | @scanMiss now read slot hp hfind =>
    rw [hp] at h hvariants
    obtain ⟨rfl, hlooks⟩ := h
    rw [haccepts, hvariants rfl, hlooks.variants] at hfind
    exact ⟨not_reuses_of_freshPublic hfind, hlooks⟩
  | @sweepHit now slot held hp hfind hpublic =>
    rw [hp] at h hvariants
    obtain ⟨hprivate, hlooks⟩ := h
    rw [haccepts, hvariants rfl, hlooks.variants] at hfind
    exact absurd ⟨held, hfind, hpublic⟩ hprivate
  | @sweepMiss now slot previous hp hfind =>
    rw [hp] at h hvariants hslot
    obtain ⟨hprivate, hlooks⟩ := h
    rw [haccepts, hvariants rfl, hlooks.variants] at hfind
    refine ⟨hfind.symm, ?_, hlooks.nextId, hlooks.decisions⟩
    rw [variantsOf_setVariants hs (hslot rfl), if_pos rfl, hvariants rfl, hlooks.variants,
      left_of_not_reuses hprivate, fresh]
  | @swap now slot held e hp =>
    rw [hp] at h hslot
    obtain ⟨hchoice, ho, hlooks⟩ := h
    refine ⟨?_, hlooks.decisions, by rw [ho]; rfl⟩
    rw [← hchoice, variantsOf_replaceIn_choice hs hd (hslot rfl) hlooks.variants ho, hlooks.nextId]
  | @giveUp now slot r hp hgives =>
    rw [hp] at h
    have hb : s.afterCheck v.key slot = s.dropSlot v.key := if_pos hgives
    rw [← hb]
    exact stands_of_check hs hv hkey halone hp h
  | @keepSlot now slot r hp hkeeps =>
    rw [hp] at h
    have hb : s.afterCheck v.key slot = s := if_neg (by simp [hkeeps])
    rw [← hb]
    exact stands_of_check hs hv hkey halone hp h

/-- So does the decision of its producer. -/
theorem stands_of_finish (hs : Sound s) (hd : s.Distinct) (hv : s.visits[i]? = some v)
    (hkey : v.key = c.key) {previous : Option Held} {outcome : Outcome}
    (hhanded : s.handed i = some previous) (houtcome : outcome = c.producer previous)
    (ht : Turn s i v (.finish i outcome) p b)
    (hresult : ∀ slot r, p = .leaving slot r → r = outcome.result)
    (h : c.Stands l id (decisions t i) s v.phase) :
    c.Stands l id (decisions (t ++ [(s, .finish i outcome)]) i) b p := by
  rw [decisions_finish hhanded]
  rw [handed_of_visit hv] at hhanded
  cases ht with
  | @store slot previous' e hp =>
    rw [hp] at h hhanded
    obtain rfl : previous' = previous := Option.some.inj hhanded
    obtain ⟨rfl, hlooks⟩ := h
    have ho : c.outcome l = .replace e := houtcome.symm
    have hslot : s.slotOf c.key = some slot := hkey ▸ hs.bound i v slot hv (by rw [hp]; rfl)
    refine ⟨?_, ?_, by rw [ho]; rfl⟩
    · rw [variantsOf_replaceIn_choice hs hd hslot hlooks.variants ho, hlooks.nextId]
    · rw [hlooks.decisions, List.nil_append, houtcome, outcome]
  | @giveBack slot held e hp =>
    rw [hp] at h hhanded
    obtain rfl : some held = previous := Option.some.inj hhanded
    obtain ⟨hchoice, hlooks⟩ := h
    have ho : c.outcome l = .replace e := by rw [outcome, hchoice, houtcome]
    refine ⟨hchoice, ho, hlooks.variants, hlooks.nextId, ?_⟩
    rw [hlooks.decisions, List.nil_append, hchoice, ho]
  | @decline slot outcome r hp hr =>
    obtain ⟨hprevious, hlooks⟩ :
        previous = c.choice l ∧ c.Looks id (decisions t i) s (c.left l) [] := by
      rcases hp with ⟨previous', hp⟩ | ⟨held, hp⟩
      · rw [hp] at h hhanded
        exact ⟨(Option.some.inj hhanded).symm.trans h.1, h.2⟩
      · rw [hp] at h hhanded
        exact ⟨(Option.some.inj hhanded).symm.trans h.1.symm, h.2⟩
    have ho : outcome = c.outcome l := by rw [Lookup.outcome, houtcome, hprevious]
    refine ⟨?_, ?_, (hresult slot r rfl).trans (congrArg _ ho)⟩
    · rw [after_of_not_replace (ho ▸ hr)]
      exact hlooks.variants
    · rw [hlooks.decisions, List.nil_append, hprevious, ho]

end Turn

/-! ## From the beginning to the end -/

/-- How it stands with a lookup that has begun in the store `s₀`. -/
structure Proceeds (c : Lookup) (s₀ : Store) (t : List (Store × Move)) (s : Store) : Prop where
  sound : Sound s
  numbered : s.Numbered
  distinct : s.Distinct
  visit : ∃ v, s.visits[s₀.visits.length]? = some v ∧ v.key = c.key ∧ v.accepts = c.accepts ∧
    c.Stands (s₀.variantsOf c.key) s₀.nextId (decisions t s₀.visits.length) s v.phase
  others : ∀ (j : Nat) (w : Visit), j ≠ s₀.visits.length → s.visits[j]? = some w →
    w.phase.isOver = true
  apart : ∀ k, k ≠ c.key → s.variantsOf k = s₀.variantsOf k ∧ s.slotOf k = s₀.slotOf k

section Run

variable {s₀ s s' : Store} {t : List (Store × Move)} {m : Move}

theorem proceeds_begin (h : s₀.Resting) : c.Proceeds s₀ [] (s₀.begin c.key c.accepts).1 where
  sound := h.sound.begin c.key c.accepts
  numbered := h.numbered.move (m := .begin c.key c.accepts) rfl
  distinct := h.distinct
  visit := ⟨_, List.getElem?_concat_length, rfl, rfl, rfl, rfl, rfl⟩
  others j w hj hw := by
    rcases visit_begin_eq hw with hw | ⟨hnew, -⟩
    · exact h.quiet j w hw
    · exact absurd hnew hj
  apart _ _ := ⟨rfl, rfl⟩

theorem Proceeds.move (h : c.Proceeds s₀ t s) (hmoves : c.Moves s₀.visits.length s m)
    (hm : s.move m = some s') : c.Proceeds s₀ (t ++ [(s, m)]) s' := by
  obtain ⟨v, hv, hkey, haccepts, hstands⟩ := h.visit
  obtain ⟨u, p, b, hu, ht, hg, hnext⟩ : ∃ u p b, s.visits[s₀.visits.length]? = some u ∧
      Turn s s₀.visits.length u m p b ∧ Goes s s₀.visits.length u p b s' ∧
      c.Stands (s₀.variantsOf c.key) s₀.nextId (decisions (t ++ [(s, m)]) s₀.visits.length)
        b p := by
    cases hmoves with
    | step =>
      obtain ⟨u, p, b, hu, ht, hg⟩ := step_cases hm
      obtain rfl : v = u := Option.some.inj (hv.symm.trans hu)
      exact ⟨v, p, b, hu, ht, hg,
        stands_of_step h.sound h.distinct hv hkey haccepts h.others ht hstands⟩
    | decide hhanded =>
      obtain ⟨u, p, b, hu, ht, hg⟩ := finish_cases hm
      obtain rfl : v = u := Option.some.inj (hv.symm.trans hu)
      refine ⟨v, p, b, hu, ht, hg, stands_of_finish h.sound h.distinct hv hkey hhanded rfl ht ?_
        hstands⟩
      rintro slot r rfl
      obtain ⟨since, hv'⟩ := hg.visit hv
      exact result_of_finish hm hv' rfl
  obtain rfl : v = u := Option.some.inj (hv.symm.trans hu)
  obtain ⟨since, hv'⟩ := hg.visit hv
  refine ⟨h.sound.move hm, h.numbered.move hm, h.distinct.move h.sound h.numbered hm,
    ⟨_, hv', hkey, haccepts, hnext.congr hg.variantsOf hg.slotOf hg.nextId⟩, fun j w hj hw => ?_,
    fun k hk => ?_⟩
  · rw [hg.visit_ne hj] at hw
    exact h.others j w hj hw
  · have hk' : k ≠ v.key := hkey ▸ hk
    rw [hg.variantsOf, hg.slotOf, ht.variantsOf_ne h.sound hv hk', ht.slotOf_ne hk']
    exact h.apart k hk

theorem Alone.proceeds (h : s₀.Resting) (ha : c.Alone s₀ t s) : c.Proceeds s₀ t s := by
  obtain ⟨hrun, hmoves⟩ := ha
  induction hrun with
  | start => exact proceeds_begin h
  | @next t s s' m _ hm ih =>
    refine (ih fun q hq => hmoves q (List.mem_append_left _ hq)).move ?_ hm
    exact hmoves (s, m) (List.mem_append_right _ (List.mem_singleton_self _))

/-- As long as the visit is not over, the lookup can go on, and comes nearer to its end. -/
theorem Proceeds.advances (h : c.Proceeds s₀ t s) {v : Visit}
    (hv : s.visits[s₀.visits.length]? = some v) (hbusy : v.phase.isOver = false) :
    ∃ m s', c.Moves s₀.visits.length s m ∧ s.move m = some s' ∧
      ∀ v', s'.visits[s₀.visits.length]? = some v' → v'.phase.toGo < v.phase.toGo := by
  -- whoever is not over is the visit of the lookup
  have hown : ∀ {j w}, s.visits[j]? = some w → w.phase.isOver = false → j = s₀.visits.length := by
    intro j w hw hbusy
    by_contra hj
    simp [h.others j w hj hw] at hbusy
  have hnearer : ∀ {p b s'}, Goes s s₀.visits.length v p b s' → p.toGo < v.phase.toGo →
      ∀ v', s'.visits[s₀.visits.length]? = some v' → v'.phase.toGo < v.phase.toGo := by
    intro p b s' hg hlt v' hv'
    obtain ⟨since, hset⟩ := hg.visit hv
    rw [hset, Option.some.injEq] at hv'
    subst hv'
    exact hlt
  obtain ⟨j, s', hstep⟩ | ⟨j, u, previous, hu, hhanded, -⟩ := progress c.now hv hbusy
  · obtain ⟨w, p, b, hw, ht, hg⟩ := step_cases hstep
    obtain rfl := hown hw (busy_of_step hw hstep)
    obtain rfl : v = w := Option.some.inj (hv.symm.trans hw)
    exact ⟨_, s', .step, hstep, hnearer hg ht.toGo_lt⟩
  · have hubusy : u.phase.isOver = false := by
      cases hp : u.phase <;> simp [hp, Phase.handed] at hhanded <;> rfl
    obtain rfl := hown hu hubusy
    obtain rfl : v = u := Option.some.inj (hv.symm.trans hu)
    have hh : s.handed s₀.visits.length = some previous := (handed_of_visit hv).trans hhanded
    obtain ⟨s', hfinish⟩ := finish_isSome (c.producer previous) hh
    obtain ⟨w, p, b, hw, ht, hg⟩ := finish_cases hfinish
    obtain rfl : v = w := Option.some.inj (hv.symm.trans hw)
    exact ⟨_, s', .decide hh, hfinish, hnearer hg ht.toGo_lt_of_finish⟩

/-- **A lookup comes to an end.** -/
theorem Alone.exists_end (h : s₀.Resting) (ha : c.Alone s₀ t s) :
    ∃ t' s', c.Alone s₀ t' s' ∧ (s'.result s₀.visits.length).isSome := by
  have hp := ha.proceeds h
  obtain ⟨v, hv, -, -, hstands⟩ := hp.visit
  induction hn : v.phase.toGo using Nat.strongRecOn generalizing t s v with
  | _ n ih =>
    subst hn
    cases hbusy : v.phase.isOver with
    | false =>
      obtain ⟨m, s', hmoves, hm, hnearer⟩ := hp.advances hv hbusy
      have ha' : c.Alone s₀ (t ++ [(s, m)]) s' := by
        refine ⟨ha.run.next hm, fun q hq => ?_⟩
        obtain hq | hq := List.mem_append.1 hq
        · exact ha.moves q hq
        · obtain rfl := List.mem_singleton.1 hq
          exact hmoves
      obtain ⟨v', hv', -, -, hstands'⟩ := (ha'.proceeds h).visit
      exact ih _ (hnearer v' hv') ha' (ha'.proceeds h) v' hv' hstands' rfl
    | true =>
      refine ⟨t, s, ha, ?_⟩
      rw [result, hv, Option.bind_some]
      cases hph : v.phase with
      | ended r => rfl
      | lost => simp [hph, Stands] at hstands
      | _ => simp [hph, Phase.isOver] at hbusy

end Run

end Lookup

namespace Store

/-- **What a lookup comes to.**  In a store in which nothing goes on, with any variants under any
keys, a lookup by itself comes to an end.  However it goes, its producer is handed the choice and
nothing else; and when it has ended,

* the producer has been asked once, has been handed the choice, and what it decided is reported;
* the variants of the key are as `Lookup.after` says, and the key has a slot just if there are any;
* no other key has been touched, and nothing goes on in the store. -/
theorem lookup_alone (c : Lookup) {s₀ : Store} (h : s₀.Resting) :
    (∃ t s, c.Alone s₀ t s ∧ (s.result s₀.visits.length).isSome) ∧
    ∀ t s, c.Alone s₀ t s →
      (∀ previous, s.handed s₀.visits.length = some previous →
        previous = c.choice (s₀.variantsOf c.key)) ∧
      ∀ r, s.result s₀.visits.length = some r →
        decisions t s₀.visits.length =
          [(c.choice (s₀.variantsOf c.key), c.outcome (s₀.variantsOf c.key))] ∧
        r = (c.outcome (s₀.variantsOf c.key)).result ∧
        s.variantsOf c.key = c.after (s₀.variantsOf c.key) s₀.nextId ∧
        ((s.slotOf c.key).isSome ↔ s.variantsOf c.key ≠ []) ∧
        (∀ k, k ≠ c.key → s.variantsOf k = s₀.variantsOf k ∧ s.slotOf k = s₀.slotOf k) ∧
        s.Resting := by
  refine ⟨Lookup.Alone.exists_end h ⟨.start, by simp⟩, fun t s ha => ?_⟩
  have hp := ha.proceeds h
  obtain ⟨v, hv, -, -, hstands⟩ := hp.visit
  refine ⟨fun previous hhanded => ?_, fun r hr => ?_⟩
  · rw [handed_of_visit hv] at hhanded
    cases hph : v.phase with
    | producing slot previous' =>
      rw [hph] at hstands hhanded
      exact (Option.some.inj hhanded).symm.trans hstands.1
    | reusing slot held =>
      rw [hph] at hstands hhanded
      exact (Option.some.inj hhanded).symm.trans hstands.1.symm
    | _ => simp [hph, Phase.handed] at hhanded
  · rw [result, hv, Option.bind_some] at hr
    cases hph : v.phase with
    | ended r' =>
      rw [hph] at hstands hr
      obtain rfl : r' = r := Option.some.inj hr
      obtain ⟨hsettles, htidy⟩ := hstands
      refine ⟨hsettles.decisions, hsettles.result, hsettles.variants,
        not_leftBehind_iff.1 htidy, hp.apart,
        hp.sound, hp.numbered, hp.distinct, fun j w hw => ?_⟩
      by_cases hj : j = s₀.visits.length
      · subst hj
        obtain rfl : v = w := Option.some.inj (hv.symm.trans hw)
        rw [hph]
        rfl
      · exact hp.others j w hj hw
    | _ => simp [hph, Phase.result] at hr

/-- Three entries under one key, the first of which expires early, and one under another. -/
def filling : List Move :=
  storing 0 [] (plainEntry true 5) ++ storing 1 [] (plainEntry false 9) ++
    storing 2 [] (plainEntry true 9) ++ storing 3 [1] (plainEntry true 5)

/-- At 7, a lookup for private entries replaces the second; what has expired goes with it.  A lookup
for public ones fails on the third, and all stays as it was. -/
theorem lookup_alone_filled :
    ∃ t s₀, Run Store.move {} t s₀ ∧ s₀.Resting ∧ s₀.variantsOf [] =
        [⟨0, plainEntry true 5⟩, ⟨1, plainEntry false 9⟩, ⟨2, plainEntry true 9⟩] ∧
      (∃ t s,
        Lookup.Alone ⟨[], fun e => !e.isPublic, ⟨7, 0⟩, fun _ => .replace (plainEntry true 20)⟩
          s₀ t s ∧ s.result 4 = some (.ok ()) ∧
        s.variantsOf [] = [⟨2, plainEntry true 9⟩, ⟨4, plainEntry true 20⟩] ∧
        s.variantsOf [1] = [⟨3, plainEntry true 5⟩]) ∧
      ∃ t s,
        Lookup.Alone ⟨[], fun e => e.isPublic, ⟨7, 0⟩, fun _ => .fail .headersUnavailable⟩
          s₀ t s ∧
        s.result 4 = some (.error .headersUnavailable) ∧ s.variantsOf [] = s₀.variantsOf [] := by
  let r := (follow Store.move {} filling).get rfl
  have hrun : Run Store.move {} r.1 r.2 := run_of_follow (Option.some_get _).symm
  have hover : r.2.visits.all fun v => v.phase.isOver := rfl
  have hresting : r.2.Resting := .of_run hrun fun i v hv =>
    List.all_eq_true.1 hover v (List.mem_of_getElem? hv)
  refine ⟨r.1, r.2, hrun, hresting, rfl, ?_, ?_⟩
  · obtain ⟨⟨t, s, ha, hended⟩, hall⟩ := lookup_alone ⟨[], fun e => !e.isPublic, ⟨7, 0⟩,
      fun _ => .replace (plainEntry true 20)⟩ hresting
    obtain ⟨result, hresult⟩ := Option.isSome_iff_exists.1 hended
    obtain ⟨-, rfl, hvariants, -, hapart, -⟩ := (hall t s ha).2 result hresult
    exact ⟨t, s, ha, hresult, hvariants, (hapart [1] (by decide)).1⟩
  · obtain ⟨⟨t, s, ha, hended⟩, hall⟩ := lookup_alone ⟨[], fun e => e.isPublic, ⟨7, 0⟩,
      fun _ => .fail .headersUnavailable⟩ hresting
    obtain ⟨result, hresult⟩ := Option.isSome_iff_exists.1 hended
    obtain ⟨-, rfl, hvariants, -⟩ := (hall t s ha).2 result hresult
    exact ⟨t, s, ha, hresult, hvariants⟩

end Store
end EdgeCache
