import EdgeCache.Exchange.Fetch

/-!
# Fewer in line

Origins may wait at gates, in the order of their arrival, and a gate does not know for whom it is
released.  When some of those in line had not come, the others would have earlier places; and a
place that is let through is let through with all that are before it.

So what an origin does with others in line it also does without them (`Script.Ahead.step`,
`Fetch.Ahead.step`): it stands where it stood, but perhaps in an earlier place.
-/

set_option autoImplicit false

namespace EdgeCache

/-! ## Gates -/

namespace Gates

theorem find_cons (g : Gate) (gs : Gates) (name : String) :
    Gates.find (g :: gs) name = if g.name = name then g else Gates.find gs name := by
  by_cases h : g.name = name
  · simp [Gates.find, h]
  · simp [Gates.find, h]

theorem find_modify {f : Gate → Gate} (hf : ∀ g, (f g).name = g.name) (gs : Gates)
    (name other : String) :
    (modify f name gs).find other = if other = name then f (gs.find name) else gs.find other := by
  induction gs with
  | nil =>
    rw [modify, find_cons, hf]
    by_cases h : other = name
    · rw [if_pos h.symm, if_pos h]
      rfl
    · rw [if_neg (Ne.symm h), if_neg h]
  | cons g gs ih =>
    rw [modify]
    by_cases hg : g.name = name
    · rw [if_pos hg, find_cons, find_cons, find_cons, hf, hg, if_pos rfl]
      by_cases h : other = name
      · rw [if_pos h.symm, if_pos h]
      · rw [if_neg (Ne.symm h), if_neg h, if_neg (Ne.symm h)]
    · rw [if_neg hg, find_cons, ih, find_cons, find_cons, if_neg hg]
      by_cases h : other = name
      · rw [if_pos h, if_neg (h ▸ hg), if_pos h]
      · rw [if_neg h, if_neg h]

theorem find_release (gs : Gates) (name other : String) :
    (gs.release name).find other =
      if other = name then { gs.find name with releases := (gs.find name).releases + 1 }
      else gs.find other :=
  find_modify (f := fun g => { g with releases := g.releases + 1 }) (fun _ => rfl) gs name other

theorem find_arrive (gs : Gates) (name other : String) :
    (gs.arrive name).2.find other =
      if other = name then { gs.find name with tickets := (gs.find name).tickets + 1 }
      else gs.find other :=
  find_modify (f := fun g => { g with tickets := g.tickets + 1 }) (fun _ => rfl) gs name other

/-- The gates have been released as often, and no more have asked to pass. -/
structure Fewer (gs gs' : Gates) : Prop where
  releases : ∀ name, (gs'.find name).releases = (gs.find name).releases
  tickets : ∀ name, (gs'.find name).tickets ≤ (gs.find name).tickets

section Fewer

variable {gs gs' : Gates} {name : String}

theorem Fewer.refl (gs : Gates) : Fewer gs gs := ⟨fun _ => rfl, fun _ => Nat.le_refl _⟩

theorem Fewer.release (h : Fewer gs gs') (name : String) :
    Fewer (gs.release name) (gs'.release name) := by
  constructor
  · intro other
    rw [find_release, find_release]
    split
    · exact congrArg (· + 1) (h.releases name)
    · exact h.releases other
  · intro other
    rw [find_release, find_release]
    split
    · exact h.tickets name
    · exact h.tickets other

theorem Fewer.arrive (h : Fewer gs gs') (name : String) :
    Fewer (gs.arrive name).2 (gs'.arrive name).2 := by
  constructor
  · intro other
    rw [find_arrive, find_arrive]
    split
    · exact h.releases name
    · exact h.releases other
  · intro other
    rw [find_arrive, find_arrive]
    split
    · exact Nat.succ_le_succ (h.tickets name)
    · exact h.tickets other

/-- Others may come and ask to pass. -/
theorem Fewer.arrive_left (h : Fewer gs gs') (name : String) : Fewer (gs.arrive name).2 gs' := by
  constructor
  · intro other
    rw [find_arrive]
    split
    · next heq => exact heq ▸ h.releases name
    · exact h.releases other
  · intro other
    rw [find_arrive]
    split
    · next heq => exact Nat.le_succ_of_le (heq ▸ h.tickets name)
    · exact h.tickets other

/-- Whoever is let through is let through in an earlier place. -/
theorem Fewer.lets {n n' : Nat} (h : Fewer gs gs') (hn : n' ≤ n) (hlets : gs.lets name n = true) :
    gs'.lets name n' = true := by
  rw [Gates.lets, decide_eq_true_eq] at hlets ⊢
  rw [h.releases]
  exact Nat.lt_of_le_of_lt hn hlets

end Fewer
end Gates

/-! ## Scripts -/

/-- The same script, but that it waits in the same or an earlier place. -/
inductive Script.Ahead {α : Type} : Script α → Script α → Prop
  | refl (s : Script α) : Ahead s s
  | await {n n' : Nat} (gate : String) (rest : Script α) (h : n' ≤ n) :
      Ahead (.await gate (some n) rest) (.await gate (some n') rest)

theorem Script.Ahead.eq_done {α : Type} {s : Script α} {a : α} (h : Script.Ahead (.done a) s) :
    s = .done a := by
  cases h
  rfl

theorem Script.Ahead.eq_die {α : Type} {s : Script α} {message : String}
    (h : Script.Ahead (.die message) s) : s = .die message := by
  cases h
  rfl

/-- Where scripts stand that are alike. -/
structure Moved.Ahead {σ α : Type} (m m' : Moved σ α) : Prop where
  script : m.script.Ahead m'.script
  writer : m'.writer = m.writer
  gates : m.gates.Fewer m'.gates
  event : m'.event = m.event

theorem Moved.ahead {σ α : Type} {gs gs' : Gates} (h : gs.Fewer gs') (s : Script α) (w : σ)
    (e : Option Event) : Moved.Ahead ⟨s, w, gs, e⟩ ⟨s, w, gs', e⟩ :=
  ⟨.refl s, rfl, h, rfl⟩

section Step

variable {σ α : Type} {on : Writer σ} {gs gs' : Gates} {w : σ} {s s' : Script α} {m : Moved σ α}

/-- Who waits in a place that is let through can go on. -/
theorem Script.step_await {gate : String} {n n' : Nat} {rest : Script α} (hgs : gs.Fewer gs')
    (hn : n' ≤ n) (h : (Script.await gate (some n) rest).step on gs w = some m) :
    ∃ m', (Script.await gate (some n') rest).step on gs' w = some m' ∧ m.Ahead m' := by
  rw [Script.step, Option.ite_none_right_eq_some, Option.some.injEq] at h
  obtain ⟨hlets, rfl⟩ := h
  refine ⟨_, ?_, Moved.ahead hgs rest w none⟩
  rw [Script.step, if_pos (hgs.lets hn hlets)]

/-- **Without others in line a script does what it does with them.** -/
theorem Script.Ahead.step (hs : s.Ahead s') (hgs : gs.Fewer gs') (h : s.step on gs w = some m) :
    ∃ m', s'.step on gs' w = some m' ∧ m.Ahead m' := by
  cases hs with
  | await gate rest hn => exact step_await hgs hn h
  | refl =>
    cases s with
    | done | die => exact absurd h (by simp [Script.step])
    | edit | inspect | observe | commit | emit =>
      obtain rfl := Option.some.inj h
      exact ⟨_, rfl, Moved.ahead hgs _ _ _⟩
    | write chunk k =>
      rw [Script.step] at h ⊢
      split at h
      · exact absurd h (by simp)
      · obtain rfl := Option.some.inj h
        exact ⟨_, rfl, Moved.ahead hgs _ _ _⟩
      · obtain rfl := Option.some.inj h
        exact ⟨_, rfl, Moved.ahead hgs _ _ _⟩
    | await gate ticket rest =>
      cases ticket with
      | some n => exact step_await hgs (Nat.le_refl n) h
      | none =>
        obtain rfl := Option.some.inj h
        exact ⟨_, rfl, .await gate rest (hgs.tickets gate), rfl, hgs.arrive gate, rfl⟩

/-- What another script does adds at most to those in line. -/
theorem Script.fewer_of_step (hgs : gs.Fewer gs') (h : s.step on gs w = some m) :
    m.gates.Fewer gs' := by
  cases s with
  | done | die => exact absurd h (by simp [Script.step])
  | edit | inspect | observe | commit | emit =>
    obtain rfl := Option.some.inj h
    exact hgs
  | write chunk k =>
    rw [Script.step] at h
    split at h
    · exact absurd h (by simp)
    · obtain rfl := Option.some.inj h
      exact hgs
    · obtain rfl := Option.some.inj h
      exact hgs
  | await gate ticket rest =>
    cases ticket with
    | some n =>
      rw [Script.step, Option.ite_none_right_eq_some, Option.some.injEq] at h
      obtain ⟨-, rfl⟩ := h
      exact hgs
    | none =>
      obtain rfl := Option.some.inj h
      exact hgs.arrive_left gate

end Step

/-! ## Origins on a tee -/

/-- The same origin, but that it waits in the same or an earlier place. -/
structure Fetch.Ahead (f f' : Fetch) : Prop where
  tee : f'.tee = f.tee
  ending : f'.ending = f.ending
  script : f.script.Ahead f'.script

section Fetch

variable {f f' f₁ : Fetch} {gs gs' gs₁ : Gates} {event : Option Event}

theorem Fetch.Ahead.refl (f : Fetch) : f.Ahead f := ⟨rfl, rfl, .refl _⟩

/-- **Without others in line an origin does what it does with them.** -/
theorem Fetch.Ahead.step (hf : f.Ahead f') (hgs : gs.Fewer gs')
    (h : f.step gs = some (f₁, gs₁, event)) :
    ∃ f₁' gs₁', f'.step gs' = some (f₁', gs₁', event) ∧ f₁.Ahead f₁' ∧ gs₁.Fewer gs₁' := by
  obtain ⟨tee, script, ending⟩ := f
  obtain ⟨tee', script', ending'⟩ := f'
  obtain ⟨htee, hending, hscript⟩ := hf
  simp only at htee hending hscript
  subst htee hending
  cases ending' with
  | some _ => exact absurd h (by simp [Fetch.step])
  | none =>
    cases script with
    | done | die =>
      first
        | obtain rfl := hscript.eq_done
        | obtain rfl := hscript.eq_die
      simp only [Fetch.step, Option.some.injEq, Prod.mk.injEq] at h
      obtain ⟨rfl, rfl, rfl⟩ := h
      exact ⟨_, gs', rfl, .refl _, hgs⟩
    | _ =>
      simp only [Fetch.step] at h
      split at h
      · exact absurd h (by simp)
      · next m hm =>
        simp only [Option.some.injEq, Prod.mk.injEq] at h
        obtain ⟨rfl, rfl, rfl⟩ := h
        obtain ⟨m', hm', hmoved⟩ := hscript.step hgs hm
        refine ⟨{ tee := m'.writer, script := m'.script }, m'.gates, ?_,
          ⟨hmoved.writer, rfl, hmoved.script⟩, hmoved.gates⟩
        cases hscript <;> simp only [Fetch.step, hm', hmoved.event]

/-- What another origin does adds at most to those in line. -/
theorem Fetch.fewer_of_step (hgs : gs.Fewer gs') (h : f.step gs = some (f₁, gs₁, event)) :
    gs₁.Fewer gs' := by
  rw [Fetch.step] at h
  split at h
  · exact absurd h (by simp)
  · split at h
    · simp only [Option.some.injEq, Prod.mk.injEq] at h
      exact h.2.1 ▸ hgs
    · simp only [Option.some.injEq, Prod.mk.injEq] at h
      exact h.2.1 ▸ hgs
    · split at h
      · exact absurd h (by simp)
      · next m hm =>
        simp only [Option.some.injEq, Prod.mk.injEq] at h
        exact h.2.1 ▸ Script.fewer_of_step hgs hm

end Fetch

end EdgeCache
