/-!
# Runs

A system is a function that says what becomes of a state when something happens to it, or that it
cannot happen there.  A `Run` is a finite course of happenings.  It is recorded as the list of what
happened, each together with the state it happened in, so that what a run has done so far can be
read off the record as well as off the state it has led to.
-/

set_option autoImplicit false

namespace EdgeCache

/-- From the state `s` the happenings of the record lead to a state. -/
inductive Run {σ α : Type} (move : σ → α → Option σ) (s : σ) : List (σ × α) → σ → Prop
  | start : Run move s [] s
  | next {t : List (σ × α)} {s₁ s₂ : σ} {a : α} (h : Run move s t s₁) (ha : move s₁ a = some s₂) :
      Run move s (t ++ [(s₁, a)]) s₂

namespace Run

variable {σ α : Type} {move : σ → α → Option σ} {s s₁ s₂ : σ} {t t₁ t₂ : List (σ × α)}

/-- What holds at the start and is kept by everything that can happen holds after every run. -/
theorem invariant {P : σ → Prop} (hstep : ∀ {s a s'}, P s → move s a = some s' → P s')
    (h : Run move s t s₁) (h0 : P s) : P s₁ := by
  induction h with
  | start => exact h0
  | next _ ha ih => exact hstep ih ha

/-- Two runs, one after the other. -/
theorem trans (h₁ : Run move s t₁ s₁) (h₂ : Run move s₁ t₂ s₂) : Run move s (t₁ ++ t₂) s₂ := by
  induction h₂ with
  | start => simpa using h₁
  | next _ ha ih =>
    rw [← List.append_assoc]
    exact ih.next ha

theorem single {a : α} (ha : move s a = some s₁) : Run move s [(s, a)] s₁ := start.next ha

/-- What a happening makes true while it is allowed, and the others keep, holds after a run of
allowed ones. -/
theorem invariant_of {P : σ → Prop} {Q : σ → α → Prop}
    (hstep : ∀ {s a s'}, Q s a → P s → move s a = some s' → P s')
    (h : Run move s t s₁) (hQ : ∀ p ∈ t, Q p.1 p.2) (h0 : P s) : P s₁ := by
  induction h with
  | start => exact h0
  | @next t s₁ s₂ a _ ha ih =>
    refine hstep (hQ (s₁, a) ?_) (ih fun p hp => hQ p ?_) ha
    · exact List.mem_append_right _ (List.mem_singleton_self _)
    · exact List.mem_append_left _ hp

/-- What a happening of a run brings about, and everything that can happen keeps, holds at the end
of the run. -/
theorem since {P : List (σ × α) → σ → Prop} {p : σ × α} (h : Run move s t s₁) (hp : p ∈ t)
    (hstart : ∀ t₁ s₂, Run move s t₁ p.1 → move p.1 p.2 = some s₂ → P (t₁ ++ [p]) s₂)
    (hstep : ∀ t₁ s₂ a s₃, Run move s t₁ s₂ → p ∈ t₁ → P t₁ s₂ → move s₂ a = some s₃ →
      P (t₁ ++ [(s₂, a)]) s₃) : P t s₁ := by
  induction h with
  | start => simp at hp
  | @next t s₁ s₂ a h ha ih =>
    rcases List.mem_append.1 hp with hp | hp
    · exact hstep t s₁ a s₂ h hp (ih hp) ha
    · obtain rfl := List.mem_singleton.1 hp
      exact hstart t s₂ h ha

/-- A run up to one of its happenings, that happening, and the run from there. -/
theorem split (h : Run move s t s₁) {p : σ × α} (hp : p ∈ t) :
    ∃ t₁ t₂ s₂, t = t₁ ++ p :: t₂ ∧ Run move s t₁ p.1 ∧ move p.1 p.2 = some s₂ ∧
      Run move s₂ t₂ s₁ := by
  induction h with
  | start => simp at hp
  | @next t s₁ s₂ a h ha ih =>
    rcases List.mem_append.1 hp with hp | hp
    · obtain ⟨t₁, t₂, s₃, rfl, h₁, hm, h₂⟩ := ih hp
      exact ⟨t₁, t₂ ++ [(s₁, a)], s₃, by simp, h₁, hm, h₂.next ha⟩
    · obtain rfl := List.mem_singleton.1 hp
      exact ⟨t, [], s₂, rfl, h, ha, .start⟩

end Run

/-- Let things happen one after another: the record, and the state they lead to, unless one of them
cannot happen. -/
def follow {σ α : Type} (move : σ → α → Option σ) (s : σ) : List α → Option (List (σ × α) × σ)
  | [] => some ([], s)
  | a :: as =>
    (move s a).bind fun s₁ => (follow move s₁ as).map fun r => ((s, a) :: r.1, r.2)

/-- What is followed is a run, and its record is of what was to happen. -/
theorem follow_spec {σ α : Type} {move : σ → α → Option σ} {as : List α} :
    ∀ {s : σ} {r : List (σ × α) × σ}, follow move s as = some r →
      Run move s r.1 r.2 ∧ r.1.map (·.2) = as := by
  induction as with
  | nil =>
    intro s r h
    obtain rfl : ([], s) = r := Option.some.inj h
    exact ⟨.start, rfl⟩
  | cons a as ih =>
    intro s r h
    rw [follow, Option.bind_eq_some_iff] at h
    obtain ⟨s₁, ha, h⟩ := h
    obtain ⟨r', hr', rfl⟩ := Option.map_eq_some_iff.1 h
    obtain ⟨hrun, hrecord⟩ := ih hr'
    exact ⟨(Run.single ha).trans hrun, by rw [List.map_cons, hrecord]⟩

section Follow

variable {σ α : Type} {move : σ → α → Option σ} {s : σ} {as : List α} {r : List (σ × α) × σ}

theorem run_of_follow (h : follow move s as = some r) : Run move s r.1 r.2 := (follow_spec h).1

theorem map_snd_of_follow (h : follow move s as = some r) : r.1.map (·.2) = as := (follow_spec h).2

end Follow

end EdgeCache
