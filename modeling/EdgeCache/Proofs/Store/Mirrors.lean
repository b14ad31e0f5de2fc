import EdgeCache.Proofs.Store.Likeness

/-!
# A store, seen from one key

All keys share the map, the numbers that are given out, and the order in which visits wait.  A store
that has only seen the visits of one key is a mirror of the whole store (`Mirrors`): its visits are
those of the key, and everything about them is alike.

A move of a visit of the key can be made in the mirror as well, and leads to a mirror again
(`Mirrors.step`, `Mirrors.finish`).  The reason is that what a visit waits for is free in the mirror
if it is free in the store, since all that is in the way there is in the way here.  A move of
another visit does not show in the mirror (`Mirrors.turn_other`, `Mirrors.begin_other`): it never
touches a slot of the key.
-/

set_option autoImplicit false

namespace EdgeCache
namespace Store

/-- The store `s'` is what is seen of `s` by those that only know of the key. -/
structure Mirrors (k : Bytes) (L : Links) (s s' : Store) : Prop where
  visits : Matched L.visit s.visits.length s'.visits.length
  slots : Matched L.slot s.slots.length s'.slots.length
  entries : Matched L.entry s.nextId s'.nextId
  visit : ∀ {v v' : Nat}, L.visit v v' →
    ∃ u u', s.visits[v]? = some u ∧ s'.visits[v']? = some u' ∧ u.Alike k L u'
  /-- Visits are in the same order. -/
  order : ∀ {v v' z z' : Nat} {u u' y y' : Visit}, L.visit v v' → L.visit z z' →
    s.visits[v]? = some u → s'.visits[v']? = some u' → s.visits[z]? = some y →
    s'.visits[z']? = some y' → u.since ≤ y.since → u'.since ≤ y'.since
  /-- Every visit of the key is seen, -/
  every : ∀ {v : Nat} {u : Visit}, s.visits[v]? = some u → u.key = k → ∃ v', L.visit v v'
  /-- and no other. -/
  only : ∀ {v' : Nat} {u' : Visit}, s'.visits[v']? = some u' → ∃ v, L.visit v v'
  before : ∀ {v : Nat} {u : Visit}, s.visits[v]? = some u → u.since < s.nextPlace
  before' : ∀ {v : Nat} {u : Visit}, s'.visits[v]? = some u → u.since < s'.nextPlace
  map : Option.Rel L.slot (s.slotOf k) (s'.slotOf k)
  variants : ∀ {a a' : Nat}, L.slot a a' →
    List.Forall₂ (Held.Alike L) (s.variants a) (s'.variants a')
  /-- Other visits have no slot that is seen. -/
  handles : ∀ {v a : Nat} {u : Visit}, s.visits[v]? = some u → u.phase.handle = some a →
    a < s.slots.length ∧ (u.key ≠ k → ∀ a', ¬ L.slot a a')
  /-- No more have other keys. -/
  others : ∀ {κ : Bytes} {a : Nat}, κ ≠ k → s.slotOf κ = some a →
    a < s.slots.length ∧ ∀ a', ¬ L.slot a a'

theorem mirrors_empty (k : Bytes) : Mirrors k .none {} {} where
  visits := .none _ _
  slots := .none _ _
  entries := .none _ _
  visit := False.elim
  order := False.elim
  every h := by simp at h
  only h := by simp at h
  before h := by simp at h
  before' h := by simp at h
  map := .none
  variants := False.elim
  handles h := by simp at h
  others _ h := by simp [slotOf] at h

/-! ## What is in the way -/

section Guards

variable {k : Bytes} {L : Links} {s s' : Store} {v v' a a' : Nat} {u u' : Visit}

/-- Alike are the visits of numbers that are linked. -/
theorem Mirrors.alike (h : Mirrors k L s s') (hv : L.visit v v') (hu : s.visits[v]? = some u)
    (hu' : s'.visits[v']? = some u') : u.Alike k L u' := by
  obtain ⟨y, y', hy, hy', hal⟩ := h.visit hv
  obtain rfl := Option.some.inj (hu.symm.trans hy)
  obtain rfl := Option.some.inj (hu'.symm.trans hy')
  exact hal

/-- What no visit does, no visit does in the mirror. -/
theorem Mirrors.any_eq_false {f f' : Phase → Bool} (h : Mirrors k L s s')
    (hf : ∀ {p p' : Phase}, p.Alike L p' → f' p' = f p)
    (hnone : (s.visits.any fun u => f u.phase) = false) :
    (s'.visits.any fun u => f' u.phase) = false := by
  simp only [List.any_eq_false] at hnone ⊢
  intro y' hy'
  obtain ⟨z', hz'⟩ := List.getElem?_of_mem hy'
  obtain ⟨z, hz⟩ := h.only hz'
  obtain ⟨y, -, hy, -⟩ := h.visit hz
  rw [hf (h.alike hz hy hz').phase]
  exact hnone y (List.mem_of_getElem? hy)

/-- Who is first is so in the mirror. -/
theorem Mirrors.isFirst {wants wants' : Phase → Bool} (h : Mirrors k L s s')
    (hw : ∀ {p p' : Phase}, p.Alike L p' → wants' p' = wants p) (hv : L.visit v v')
    (hu : s.visits[v]? = some u) (hu' : s'.visits[v']? = some u')
    (hfirst : s.isFirst wants u.since = true) : s'.isFirst wants' u'.since = true := by
  simp only [Store.isFirst, List.all_eq_true, Bool.or_eq_true, Bool.not_eq_true',
    decide_eq_true_eq] at hfirst ⊢
  intro y' hy'
  obtain ⟨z', hz'⟩ := List.getElem?_of_mem hy'
  obtain ⟨z, hz⟩ := h.only hz'
  obtain ⟨y, -, hy, -⟩ := h.visit hz
  rw [hw (h.alike hz hy hz').phase]
  exact (hfirst y (List.mem_of_getElem? hy)).imp_right (h.order hv hz hu hu' hy hz')

theorem Mirrors.mapOpens (h : Mirrors k L s s') (hv : L.visit v v') (hu : s.visits[v]? = some u)
    (hu' : s'.visits[v']? = some u') (ho : s.mapOpens u.since = true) :
    s'.mapOpens u'.since = true := by
  simp only [Store.mapOpens, Bool.and_eq_true, Bool.not_eq_true'] at ho ⊢
  exact ⟨h.any_eq_false Phase.Alike.atMap ho.1, h.isFirst Phase.Alike.wantsMap hv hu hu' ho.2⟩

theorem Mirrors.readOpens (h : Mirrors k L s s') (hv : L.visit v v') (hu : s.visits[v]? = some u)
    (hu' : s'.visits[v']? = some u') (ha : L.slot a a') (ho : s.readOpens a u.since = true) :
    s'.readOpens a' u'.since = true := by
  simp only [Store.readOpens, Bool.and_eq_true, Bool.not_eq_true'] at ho ⊢
  exact ⟨h.any_eq_false (fun hp => hp.writing h.slots ha) ho.1,
    h.isFirst (fun hp => hp.wantsWrite h.slots ha) hv hu hu' ho.2⟩

theorem Mirrors.writeOpens (h : Mirrors k L s s') (hv : L.visit v v') (hu : s.visits[v]? = some u)
    (hu' : s'.visits[v']? = some u') (ha : L.slot a a') (ho : s.writeOpens a u.since = true) :
    s'.writeOpens a' u'.since = true := by
  simp only [Store.writeOpens, Bool.and_eq_true, Bool.not_eq_true'] at ho ⊢
  obtain ⟨⟨hfree, hunread⟩, hfirst⟩ := ho
  refine ⟨⟨h.any_eq_false (fun hp => hp.writing h.slots ha) hfree,
    h.any_eq_false (fun hp => hp.reading h.slots ha) hunread⟩, h.isFirst ?_ hv hu hu' hfirst⟩
  exact fun hp => by rw [hp.wantsRead h.slots ha, hp.wantsWrite h.slots ha]

/-- A visit with a slot that is seen is seen itself. -/
theorem Mirrors.seen (h : Mirrors k L s s') (hu : s.visits[v]? = some u)
    (hslot : u.phase.handle = some a) (ha : L.slot a a') : ∃ v', L.visit v v' := by
  by_cases hk : u.key = k
  · exact h.every hu hk
  · exact absurd ha ((h.handles hu hslot).2 hk a')

theorem Mirrors.slotTaken (h : Mirrors k L s s') (ha : L.slot a a') :
    s'.slotTaken a' = s.slotTaken a := by
  cases htaken : s.slotTaken a with
  | false => exact h.any_eq_false (fun hp => hp.writing h.slots ha) htaken
  | true =>
    obtain ⟨y, hy, hw⟩ := List.any_eq_true.1 htaken
    obtain ⟨z, hz⟩ := List.getElem?_of_mem hy
    obtain ⟨z', hzz⟩ := h.seen hz (Phase.handle_of_bound (Phase.bound_of_writing hw)) ha
    obtain ⟨-, y', -, hy', -⟩ := h.visit hzz
    refine List.any_eq_true.2 ⟨y', List.mem_of_getElem? hy', ?_⟩
    rw [(h.alike hzz hz hy').phase.writing h.slots ha, hw]

theorem Mirrors.handles_eq_one (h : Mirrors k L s s') (hv : L.visit v v')
    (hu : s.visits[v]? = some u) (hu' : s'.visits[v']? = some u') (ha : L.slot a a')
    (hslot : u.phase.handle = some a) (hslot' : u'.phase.handle = some a') :
    s.handles a = 1 ↔ s'.handles a' = 1 := by
  rw [handles_eq_one_iff hu hslot, handles_eq_one_iff hu' hslot']
  -- whoever has the one handle has the other
  have hhandle : ∀ {z z' : Nat} {y y' : Visit}, L.visit z z' → s.visits[z]? = some y →
      s'.visits[z']? = some y' → (y.phase.handle = some a ↔ y'.phase.handle = some a') := by
    intro z z' y y' hz hy hy'
    have hrel := (h.alike hz hy hy').phase.handle
    generalize y.phase.handle = b, y'.phase.handle = b' at hrel ⊢
    cases hrel with
    | none => simp
    | some hb => rw [Option.some.injEq, Option.some.injEq, h.slots.one hb ha]
  constructor
  · intro hnone z' y' hne hy' hbad
    obtain ⟨z, hz⟩ := h.only hy'
    obtain ⟨y, -, hy, -⟩ := h.visit hz
    exact hnone z y (fun he => hne ((h.visits.one hz hv).1 he)) hy ((hhandle hz hy hy').2 hbad)
  · intro hnone z y hne hy hbad
    obtain ⟨z', hz⟩ := h.seen hy hbad ha
    obtain ⟨-, y', -, hy', -⟩ := h.visit hz
    exact hnone z' y' (fun he => hne ((h.visits.one hz hv).2 he)) hy' ((hhandle hz hy hy').1 hbad)

/-- A slot is given up in the mirror when it is given up in the store. -/
theorem Mirrors.givesUp (h : Mirrors k L s s') (hv : L.visit v v') (hu : s.visits[v]? = some u)
    (hu' : s'.visits[v']? = some u') (ha : L.slot a a') (hslot : u.phase.handle = some a)
    (hslot' : u'.phase.handle = some a') : s'.givesUp k a' = s.givesUp k a := by
  have hmap : (s'.slotOf k == some a') = (s.slotOf k == some a) := by
    have hrel := h.map
    generalize s.slotOf k = b, s'.slotOf k = b' at hrel ⊢
    cases hrel with
    | none => rfl
    | some hb => exact beq_slot h.slots ha hb
  have hempty : (s'.variants a').isEmpty = (s.variants a).isEmpty := by
    have hrel := h.variants ha
    generalize s.variants a = l, s'.variants a' = l' at hrel ⊢
    cases hrel <;> rfl
  have hone : (s'.handles a' == 1) = (s.handles a == 1) := by
    rw [Bool.eq_iff_iff, beq_iff_eq, beq_iff_eq, h.handles_eq_one hv hu hu' ha hslot hslot']
  rw [Store.givesUp, Store.givesUp, hmap, hempty, hone, h.slotTaken ha]

end Guards

/-! ## Changes that are seen -/

section Changes

/-- A visit after a change is the one that was changed, or was so before. -/
theorem visit_set_cases {s : Store} {v z : Nat} {y₀ y : Visit}
    (hy : (s.visits.set v y₀)[z]? = some y) : (z = v ∧ y = y₀) ∨ s.visits[z]? = some y := by
  by_cases hz : z = v
  · subst hz
    rw [List.getElem?_set_self', Option.map_eq_map, Option.map_eq_some_iff] at hy
    obtain ⟨-, -, rfl⟩ := hy
    exact .inl ⟨rfl, rfl⟩
  · exact .inr ((List.getElem?_set_ne (Ne.symm hz)).symm.trans hy)

variable {k : Bytes} {L : Links} {s s' : Store} {v v' a a' : Nat} {u u' : Visit} {p p' : Phase}

/-- When two visits that are linked change, others that are linked are what they were. -/
theorem Mirrors.set_cases {y₀ y₀' y y' : Visit} {z z' : Nat} (h : Mirrors k L s s')
    (hv : L.visit v v') (hz : L.visit z z') (hy : (s.visits.set v y₀)[z]? = some y)
    (hy' : (s'.visits.set v' y₀')[z']? = some y') :
    (z = v ∧ z' = v' ∧ y = y₀ ∧ y' = y₀') ∨
      (z ≠ v ∧ z' ≠ v' ∧ s.visits[z]? = some y ∧ s'.visits[z']? = some y') := by
  obtain ⟨hlt, hlt'⟩ := h.visits.lt hv
  by_cases hne : z = v
  · have hne' := (h.visits.one hz hv).1 hne
    subst hne hne'
    rw [List.getElem?_set_self hlt, Option.some.injEq] at hy
    rw [List.getElem?_set_self hlt', Option.some.injEq] at hy'
    exact .inl ⟨rfl, rfl, hy.symm, hy'.symm⟩
  · have hne' : z' ≠ v' := fun he => hne ((h.visits.one hz hv).2 he)
    rw [List.getElem?_set_ne (Ne.symm hne)] at hy
    rw [List.getElem?_set_ne (Ne.symm hne')] at hy'
    exact .inr ⟨hne, hne', hy, hy'⟩

/-- A visit goes to a phase, in its old place or in the next one. -/
theorem Mirrors.setVisit {n n' m m' : Nat} (h : Mirrors k L s s') (hv : L.visit v v')
    (hu : s.visits[v]? = some u) (hu' : s'.visits[v']? = some u') (hp : p.Alike L p')
    (hplace : (n = u.since ∧ m = s.nextPlace ∧ n' = u'.since ∧ m' = s'.nextPlace) ∨
      (n = s.nextPlace ∧ m = s.nextPlace + 1 ∧ n' = s'.nextPlace ∧ m' = s'.nextPlace + 1)) :
    Mirrors k L
      { s.setVisit v { u with phase := p, since := n } with nextPlace := m }
      { s'.setVisit v' { u' with phase := p', since := n' } with nextPlace := m' } := by
  have hal := h.alike hv hu hu'
  constructor
  case visits => simpa only [Store.setVisit, List.length_set] using h.visits
  case slots => exact h.slots
  case entries => exact h.entries
  case map => exact h.map
  case variants => exact h.variants
  case others => exact h.others
  case visit =>
    intro z z' hz
    obtain ⟨hlt, hlt'⟩ := h.visits.lt hz
    have hy := List.getElem?_eq_getElem (l := s.visits.set v { u with phase := p, since := n })
      (i := z) (by rwa [List.length_set])
    have hy' := List.getElem?_eq_getElem
      (l := s'.visits.set v' { u' with phase := p', since := n' }) (i := z')
      (by rwa [List.length_set])
    refine ⟨_, _, hy, hy', ?_⟩
    rcases h.set_cases hv hz hy hy' with ⟨-, -, he, he'⟩ | ⟨-, -, hy, hy'⟩
    · rw [he, he']
      exact { hal with phase := hp }
    · exact h.alike hz hy hy'
  case order =>
    intro z₁ z₁' z₂ z₂' y₁ y₁' y₂ y₂' h₁ h₂ hy₁ hy₁' hy₂ hy₂' hle
    rcases h.set_cases hv h₁ hy₁ hy₁' with ⟨rfl, rfl, rfl, rfl⟩ | ⟨-, -, hz₁, hz₁'⟩ <;>
      rcases h.set_cases hv h₂ hy₂ hy₂' with ⟨rfl, rfl, rfl, rfl⟩ | ⟨-, -, hz₂, hz₂'⟩
    · exact Nat.le_refl _
    · show n' ≤ y₂'.since
      rcases hplace with ⟨rfl, -, rfl, -⟩ | ⟨rfl, -⟩
      · exact h.order h₁ h₂ hu hu' hz₂ hz₂' hle
      · exact absurd (h.before hz₂) (Nat.not_lt.2 hle)
    · show y₁'.since ≤ n'
      rcases hplace with ⟨rfl, -, rfl, -⟩ | ⟨-, -, rfl, -⟩
      · exact h.order h₁ h₂ hz₁ hz₁' hu hu' hle
      · exact Nat.le_of_lt (h.before' hz₁')
    · exact h.order h₁ h₂ hz₁ hz₁' hz₂ hz₂' hle
  case every =>
    intro z y hy hk
    rcases visit_set_cases hy with ⟨rfl, -⟩ | hy
    · exact ⟨v', hv⟩
    · exact h.every hy hk
  case only =>
    intro z' y' hy'
    rcases visit_set_cases hy' with ⟨rfl, -⟩ | hy'
    · exact ⟨v, hv⟩
    · exact h.only hy'
  case before =>
    intro z y hy
    have hlt := h.before hu
    rcases visit_set_cases hy with ⟨-, rfl⟩ | hy
    · show n < m
      omega
    · have := h.before hy
      show y.since < m
      omega
  case before' =>
    intro z' y' hy'
    have hlt := h.before' hu'
    rcases visit_set_cases hy' with ⟨-, rfl⟩ | hy'
    · show n' < m'
      omega
    · have := h.before' hy'
      show y'.since < m'
      omega
  case handles =>
    intro z b y hy hb
    rcases visit_set_cases hy with ⟨-, rfl⟩ | hy
    · refine ⟨?_, fun hk => absurd hal.key hk⟩
      obtain ⟨b', hb'⟩ := hp.slot_of_handle hb
      exact (h.slots.lt hb').1
    · exact h.handles hy hb

theorem Mirrors.moveTo (h : Mirrors k L s s') (hv : L.visit v v') (hu : s.visits[v]? = some u)
    (hu' : s'.visits[v']? = some u') (hp : p.Alike L p') :
    Mirrors k L (s.moveTo v u p) (s'.moveTo v' u' p') :=
  h.setVisit hv hu hu' hp (.inl ⟨rfl, rfl, rfl, rfl⟩)

theorem Mirrors.waitIn (h : Mirrors k L s s') (hv : L.visit v v') (hu : s.visits[v]? = some u)
    (hu' : s'.visits[v']? = some u') (hp : p.Alike L p') :
    Mirrors k L (s.waitIn v u p) (s'.waitIn v' u' p') :=
  h.setVisit hv hu hu' hp (.inr ⟨rfl, rfl, rfl, rfl⟩)

/-- The variants in a slot change. -/
theorem Mirrors.setVariants {l l' : List Held} (h : Mirrors k L s s') (ha : L.slot a a')
    (hl : List.Forall₂ (Held.Alike L) l l') :
    Mirrors k L (s.setVariants a l) (s'.setVariants a' l') := by
  obtain ⟨hlt, hlt'⟩ := h.slots.lt ha
  refine { h with
    slots := by simpa only [Store.setVariants, List.length_set] using h.slots
    variants := fun {b b'} hb => ?_
    handles := fun hu hslot => by
      simpa only [Store.setVariants, List.length_set] using h.handles hu hslot
    others := fun hk hs => by
      simpa only [Store.setVariants, List.length_set] using h.others hk hs }
  rw [variants_setVariants s hlt, variants_setVariants s' hlt']
  by_cases hba : b = a
  · rw [if_pos hba, if_pos ((h.slots.one hb ha).1 hba)]
    exact hl
  · rw [if_neg hba, if_neg fun he => hba ((h.slots.one hb ha).2 he)]
    exact h.variants hb

/-- A number for an entry is given out. -/
theorem Mirrors.number (h : Mirrors k L s s') :
    Mirrors k (L.alsoEntry s.nextId s'.nextId) { s with nextId := s.nextId + 1 }
      { s' with nextId := s'.nextId + 1 } := by
  have hL : L.Within (L.alsoEntry s.nextId s'.nextId) := L.within_alsoEntry _ _
  refine { h with entries := h.entries.also, visit := fun hv => ?_, variants := fun ha => ?_ }
  · obtain ⟨u, u', hu, hu', hal⟩ := h.visit hv
    exact ⟨u, u', hu, hu', hal.mono hL⟩
  · exact (h.variants ha).imp fun _ _ hh => hh.mono hL

/-- An entry is put into a slot. -/
theorem Mirrors.replaceIn {previous previous' : Option Held} {e e' : Entry} (h : Mirrors k L s s')
    (ha : L.slot a a') (hp : Option.Rel (Held.Alike L) previous previous') (he : e.Alike L e') :
    Mirrors k (L.alsoEntry s.nextId s'.nextId) (s.replaceIn a previous e)
      (s'.replaceIn a' previous' e') := by
  have hL : L.Within (L.alsoEntry s.nextId s'.nextId) := L.within_alsoEntry _ _
  refine h.number.setVariants ha (List.rel_append ?_ (.cons ⟨.inr ⟨rfl, rfl⟩, he.mono hL⟩ .nil))
  exact (rel_kept h.entries hp (h.variants ha)).imp fun _ _ hh => hh.mono hL

/-- A slot is made for the key. -/
theorem Mirrors.addSlot (h : Mirrors k L s s') (hs : s.slotOf k = none)
    (hs' : s'.slotOf k = none) :
    Mirrors k (L.alsoSlot s.slots.length s'.slots.length)
      { s with map := s.map ++ [(k, s.slots.length)], slots := s.slots ++ [[]] }
      { s' with map := s'.map ++ [(k, s'.slots.length)], slots := s'.slots ++ [[]] } := by
  have hL : L.Within (L.alsoSlot s.slots.length s'.slots.length) := L.within_alsoSlot _ _
  -- what the map and the slots are now
  have hmap : ∀ (t : Store) (κ : Bytes), t.slotOf k = none → Store.slotOf
      { t with map := t.map ++ [(k, t.slots.length)], slots := t.slots ++ [[]] } κ =
        if κ = k then some t.slots.length else t.slotOf κ := by
    intro t κ ht
    have hslot := slotOf_ensureSlot t k κ
    rw [Store.ensureSlot, ht] at hslot
    exact hslot
  have hslots : ∀ (t : Store), t.slotOf k = none → Store.variants
      { t with map := t.map ++ [(k, t.slots.length)], slots := t.slots ++ [[]] } =
        t.variants := by
    intro t ht
    have hvar := variants_ensureSlot t k
    rw [Store.ensureSlot, ht] at hvar
    exact hvar
  -- a slot that was there and not seen is not the new one
  have hunseen : ∀ {b : Nat}, (b < s.slots.length ∧ ∀ b', ¬ L.slot b b') →
      b < (s.slots ++ [[]]).length ∧
        ∀ b', ¬ (L.alsoSlot s.slots.length s'.slots.length).slot b b' := by
    rintro b ⟨hlt, hno⟩
    refine ⟨by simpa using Nat.lt_succ_of_lt hlt, ?_⟩
    rintro b' (hb | ⟨rfl, -⟩)
    · exact hno b' hb
    · exact absurd hlt (Nat.lt_irrefl _)
  refine { h with
    slots := ?_, visit := fun hv => ?_, map := ?_, variants := fun {b b'} hb => ?_
    handles := fun hu hslot => ?_, others := fun {κ b} hk hb => ?_ }
  · rw [List.length_append, List.length_append]
    exact h.slots.also
  · obtain ⟨u, u', hu, hu', hal⟩ := h.visit hv
    exact ⟨u, u', hu, hu', hal.mono hL⟩
  · rw [hmap s k hs, hmap s' k hs', if_pos rfl, if_pos rfl]
    exact .some (.inr ⟨rfl, rfl⟩)
  · rw [hslots s hs, hslots s' hs']
    rcases hb with hb | ⟨rfl, rfl⟩
    · exact (h.variants hb).imp fun _ _ hh => hh.mono hL
    · simp [Store.variants]
  · obtain ⟨hlt, hno⟩ := h.handles hu hslot
    exact ⟨by simpa using Nat.lt_succ_of_lt hlt, fun hk => (hunseen ⟨hlt, hno hk⟩).2⟩
  · rw [hmap s κ hs, if_neg hk] at hb
    exact hunseen (h.others hk hb)

/-- The slot of the key is made where there is none. -/
theorem Mirrors.ensureSlot (h : Mirrors k L s s') :
    ∃ σ : Nat → Nat → Prop, (∀ {b b'}, L.slot b b' → σ b b') ∧
      σ (s.ensureSlot k).2 (s'.ensureSlot k).2 ∧
      Mirrors k { L with slot := σ } (s.ensureSlot k).1 (s'.ensureSlot k).1 := by
  have hrel := h.map
  rw [Store.ensureSlot, Store.ensureSlot]
  generalize hs : s.slotOf k = b, hs' : s'.slotOf k = b' at hrel
  cases hrel with
  | some hb => exact ⟨L.slot, id, hb, h⟩
  | none =>
    exact ⟨(L.alsoSlot s.slots.length s'.slots.length).slot, .inl, .inr ⟨rfl, rfl⟩,
      h.addSlot hs hs'⟩

/-- The slot of the key is given up. -/
theorem Mirrors.dropSlot (h : Mirrors k L s s') : Mirrors k L (s.dropSlot k) (s'.dropSlot k) := by
  refine { h with map := ?_, others := fun {κ a} hk hs => ?_ }
  · rw [slotOf_dropSlot, slotOf_dropSlot, if_pos rfl, if_pos rfl]
    exact .none
  · rw [slotOf_dropSlot, if_neg hk] at hs
    exact h.others hk hs

/-- Two more bodies stand for each other. -/
theorem Mirrors.alsoBody (h : Mirrors k L s s') (id id' : Nat) :
    Mirrors k (L.alsoBody id id') s s' := by
  have hL : L.Within (L.alsoBody id id') := L.within_alsoBody _ _
  refine { h with visit := fun hv => ?_, variants := fun ha => ?_ }
  · obtain ⟨u, u', hu, hu', hal⟩ := h.visit hv
    exact ⟨u, u', hu, hu', hal.mono hL⟩
  · exact (h.variants ha).imp fun _ _ hh => hh.mono hL

/-- A visit of the key begins. -/
theorem Mirrors.begin {accepts : Entry → Bool} (h : Mirrors k L s s') (hb : Blindfold accepts) :
    Mirrors k (L.alsoVisit s.visits.length s'.visits.length) (s.begin k accepts).1
      (s'.begin k accepts).1 := by
  have hL : L.Within (L.alsoVisit s.visits.length s'.visits.length) := L.within_alsoVisit _ _
  have hnew : ∀ t : Store, (t.begin k accepts).1.visits[t.visits.length]? =
      some { key := k, accepts, since := t.nextPlace } := fun t => by simp [Store.begin]
  have hold : ∀ {t : Store} {z : Nat} {y : Visit}, t.visits[z]? = some y →
      (t.begin k accepts).1.visits[z]? = some y := fun hy =>
    (begin_visit_old (List.getElem?_eq_some_iff.1 hy).1).trans hy
  constructor
  case visits =>
    simp only [Store.begin, List.length_append, List.length_singleton]
    exact h.visits.also
  case slots => exact h.slots
  case entries => exact h.entries
  case map => exact h.map
  case variants => exact fun ha => (h.variants ha).imp fun _ _ hh => hh.mono hL
  case others => exact h.others
  case visit =>
    rintro z z' (hz | ⟨rfl, rfl⟩)
    · obtain ⟨y, y', hy, hy', hal⟩ := h.visit hz
      exact ⟨y, y', hold hy, hold hy', hal.mono hL⟩
    · exact ⟨_, _, hnew s, hnew s', rfl, rfl, rfl, hb, .arriving⟩
  case order =>
    rintro z₁ z₁' z₂ z₂' y₁ y₁' y₂ y₂' (h₁ | ⟨rfl, rfl⟩) (h₂ | ⟨rfl, rfl⟩) hy₁ hy₁' hy₂ hy₂' hle
    · obtain ⟨x₁, x₁', hx₁, hx₁', -⟩ := h.visit h₁
      obtain ⟨x₂, x₂', hx₂, hx₂', -⟩ := h.visit h₂
      obtain rfl := Option.some.inj ((hold hx₁).symm.trans hy₁)
      obtain rfl := Option.some.inj ((hold hx₁').symm.trans hy₁')
      obtain rfl := Option.some.inj ((hold hx₂).symm.trans hy₂)
      obtain rfl := Option.some.inj ((hold hx₂').symm.trans hy₂')
      exact h.order h₁ h₂ hx₁ hx₁' hx₂ hx₂' hle
    · obtain ⟨x₁, x₁', hx₁, hx₁', -⟩ := h.visit h₁
      obtain rfl := Option.some.inj ((hold hx₁').symm.trans hy₁')
      obtain rfl := Option.some.inj ((hnew s').symm.trans hy₂')
      exact Nat.le_of_lt (h.before' hx₁')
    · obtain ⟨x₂, x₂', hx₂, hx₂', -⟩ := h.visit h₂
      obtain rfl := Option.some.inj ((hold hx₂).symm.trans hy₂)
      obtain rfl := Option.some.inj ((hnew s).symm.trans hy₁)
      exact absurd (h.before hx₂) (Nat.not_lt.2 hle)
    · obtain rfl := Option.some.inj ((hnew s').symm.trans hy₁')
      obtain rfl := Option.some.inj ((hnew s').symm.trans hy₂')
      exact Nat.le_refl _
  case every =>
    intro z y hy hk
    rcases visit_begin_eq hy with hy | ⟨rfl, -⟩
    · obtain ⟨z', hz⟩ := h.every hy hk
      exact ⟨z', .inl hz⟩
    · exact ⟨_, .inr ⟨rfl, rfl⟩⟩
  case only =>
    intro z' y' hy'
    rcases visit_begin_eq hy' with hy' | ⟨rfl, -⟩
    · obtain ⟨z, hz⟩ := h.only hy'
      exact ⟨z, .inl hz⟩
    · exact ⟨_, .inr ⟨rfl, rfl⟩⟩
  case before =>
    intro z y hy
    rcases visit_begin_eq hy with hy | ⟨-, rfl⟩
    · exact Nat.lt_succ_of_lt (h.before hy)
    · exact Nat.lt_succ_self _
  case before' =>
    intro z y hy
    rcases visit_begin_eq hy with hy | ⟨-, rfl⟩
    · exact Nat.lt_succ_of_lt (h.before' hy)
    · exact Nat.lt_succ_self _
  case handles =>
    intro z b y hy hb
    rcases visit_begin_eq hy with hy | ⟨-, rfl⟩
    · exact h.handles hy hb
    · simp [Phase.handle] at hb

end Changes

/-! ## Moves that are seen -/

section Moves

variable {k : Bytes} {L : Links} {s s' : Store} {v v' : Nat}

/-- What the producer is handed is seen, -/
theorem Mirrors.handed (h : Mirrors k L s s') (hv : L.visit v v') :
    Option.Rel (Option.Rel (Held.Alike L)) (s.handed v) (s'.handed v') := by
  obtain ⟨u, u', hu, hu', hal⟩ := h.visit hv
  rw [Store.handed, Store.handed, hu, hu']
  exact hal.phase.handed

/-- and how a visit ends. -/
theorem Mirrors.result (h : Mirrors k L s s') (hv : L.visit v v') : s'.result v' = s.result v := by
  obtain ⟨u, u', hu, hu', hal⟩ := h.visit hv
  rw [Store.result, Store.result, hu, hu']
  exact hal.phase.result

theorem Mirrors.lose (h : Mirrors k L s s') (hv : L.visit v v') :
    Mirrors k L (s.lose v) (s'.lose v') := by
  obtain ⟨u, u', hu, hu', -⟩ := h.visit hv
  rw [Store.lose, Store.lose, hu, hu']
  exact h.moveTo hv hu hu' .lost

/-- **A decision can be made in the mirror as well.** -/
theorem Mirrors.finish {o o' : Outcome} (h : Mirrors k L s s') (hv : L.visit v v')
    (ho : Outcome.Alike L o o') :
    ∃ ε : Nat → Nat → Prop, (∀ {b b'}, L.entry b b' → ε b b') ∧
      Mirrors k { L with entry := ε } ((s.finish v o).getD s) ((s'.finish v' o').getD s') := by
  obtain ⟨u, u', hu, hu', hal⟩ := h.visit hv
  rw [Store.finish, Store.finish, hu, hu']
  have hph := hal.phase
  generalize hp : u.phase = p, hp' : u'.phase = p' at hph
  cases hph with
  | producing hs hprev =>
    cases ho with
    | replace he =>
      refine ⟨(L.alsoEntry s.nextId s'.nextId).entry, .inl, ?_⟩
      simp only [hp, hp', Option.getD_some]
      exact (h.replaceIn hs hprev he).waitIn hv hu hu'
        ((Phase.Alike.leaving hs _).mono (L.within_alsoEntry _ _))
    | keep | fail =>
      refine ⟨L.entry, id, ?_⟩
      simp only [hp, hp', Option.getD_some]
      exact h.waitIn hv hu hu' (.leaving hs _)
  | reusing hs hprev =>
    refine ⟨L.entry, id, ?_⟩
    cases ho with
    | replace he =>
      simp only [hp, hp', Option.getD_some]
      exact h.waitIn hv hu hu' (.returning hs hprev he)
    | keep | fail =>
      simp only [hp, hp', Option.getD_some]
      exact h.waitIn hv hu hu' (.leaving hs _)
  | _ =>
    refine ⟨L.entry, id, ?_⟩
    simp only [hp, hp', Option.getD_none]
    exact h

/-- **A step can be taken in the mirror as well.** -/
theorem Mirrors.step {s₁ : Store} {now : Instant} (h : Mirrors k L s s') (hv : L.visit v v')
    (hstep : s.step now v = some s₁) :
    ∃ (σ ε : Nat → Nat → Prop) (s₁' : Store), (∀ {b b'}, L.slot b b' → σ b b') ∧
      (∀ {b b'}, L.entry b b' → ε b b') ∧ s'.step now v' = some s₁' ∧
      Mirrors k { L with slot := σ, entry := ε } s₁ s₁' := by
  obtain ⟨u, u', hu, hu', hal⟩ := h.visit hv
  obtain ⟨hkey, hkey', haccepts, hblind, hph⟩ := hal
  -- a step that changes nothing but the phase
  have hsame : ∀ {t t' : Store}, Mirrors k L t t' → s'.step now v' = some t' → t = s₁ →
      ∃ (σ ε : Nat → Nat → Prop) (s₁' : Store), (∀ {b b'}, L.slot b b' → σ b b') ∧
        (∀ {b b'}, L.entry b b' → ε b b') ∧ s'.step now v' = some s₁' ∧
        Mirrors k { L with slot := σ, entry := ε } s₁ s₁' := by
    rintro t t' ht hstep' rfl
    exact ⟨L.slot, L.entry, t', id, id, hstep', ht⟩
  have hstep' : s'.step now v' = s'.step now v' := rfl
  conv_rhs at hstep' => rw [Store.step, hu']
  rw [Store.step, hu] at hstep
  generalize hp : u.phase = p, hp' : u'.phase = p' at hph
  cases hph with
  | arriving =>
    simp only [hp, Option.ite_none_right_eq_some, Option.some.injEq] at hstep
    refine hsame (h.moveTo hv hu hu' .finding) ?_ hstep.2
    simp only [hstep', hp', h.mapOpens hv hu hu' hstep.1, if_true]
  | finding =>
    simp only [hp, hkey, Option.some.injEq] at hstep
    obtain ⟨σ, hσ, hslot, hm⟩ := h.ensureSlot
    refine ⟨σ, L.entry, (s'.ensureSlot k).1.moveTo v' u' (.found (s'.ensureSlot k).2), hσ, id,
      by simp only [hstep', hp', hkey'], ?_⟩
    subst hstep
    have hvis := visits_ensureSlot s k
    have hvis' := visits_ensureSlot s' k
    exact hm.moveTo hv (hvis ▸ hu) (hvis' ▸ hu') (.found hslot)
  | found hs =>
    simp only [hp, Option.some.injEq] at hstep
    exact hsame (h.moveTo hv hu hu' (.entering hs)) (by simp only [hstep', hp']) hstep
  | entering hs =>
    simp only [hp, Option.some.injEq] at hstep
    exact hsame (h.waitIn hv hu hu' (.queueing hs now)) (by simp only [hstep', hp']) hstep
  | queueing hs read =>
    simp only [hp, Option.ite_none_right_eq_some, Option.some.injEq] at hstep
    refine hsame (h.moveTo hv hu hu' (.scanning hs read)) ?_ hstep.2
    simp only [hstep', hp', h.readOpens hv hu hu' hs hstep.1, if_true]
  | @scanning a a' hs read =>
    have hfound := rel_freshPublic hblind (h.variants hs) read
    simp only [hp] at hstep
    simp only [hp', haccepts] at hstep'
    generalize freshPublic u.accepts read (s.variants a) = found,
      freshPublic u.accepts read (s'.variants a') = found' at hfound hstep hstep'
    cases hfound with
    | none =>
      exact hsame (h.waitIn hv hu hu' (.claiming hs)) (by simp only [hstep'])
        (Option.some.inj hstep)
    | some hh =>
      exact hsame (h.moveTo hv hu hu' (.reusing hs hh)) (by simp only [hstep'])
        (Option.some.inj hstep)
  | claiming hs =>
    simp only [hp, Option.ite_none_right_eq_some, Option.some.injEq] at hstep
    refine hsame (h.moveTo hv hu hu' (.sweeping hs)) ?_ hstep.2
    simp only [hstep', hp', h.writeOpens hv hu hu' hs hstep.1, if_true]
  | @sweeping a a' hs =>
    have hfresh := rel_unexpired (h.variants hs) now
    have hfound := rel_accepted hblind hfresh
    have hswept := h.setVariants hs hfresh
    simp only [hp] at hstep
    simp only [hp', haccepts] at hstep'
    generalize ((s.variants a).filter fun h => !h.entry.expired now).find? _ = found,
      ((s'.variants a').filter fun h => !h.entry.expired now).find? _ = found'
      at hfound hstep hstep'
    cases hfound with
    | none =>
      exact hsame (hswept.moveTo hv hu hu' (.producing hs .none)) (by simp only [hstep'])
        (Option.some.inj hstep)
    | @some g g' hh =>
      simp only [hh.entry.isPublic] at hstep'
      cases hpublic : g.entry.isPublic with
      | true =>
        simp only [hpublic, if_true] at hstep hstep'
        exact hsame (hswept.moveTo hv hu hu' (.reusing hs hh)) hstep' (Option.some.inj hstep)
      | false =>
        simp only [hpublic, Bool.false_eq_true, if_false] at hstep hstep'
        exact hsame (hswept.moveTo hv hu hu' (.producing hs (.some hh))) hstep'
          (Option.some.inj hstep)
  | returning hs hh he =>
    simp only [hp, Option.ite_none_right_eq_some, Option.some.injEq] at hstep
    refine hsame (h.moveTo hv hu hu' (.swapping hs hh he)) ?_ hstep.2
    simp only [hstep', hp', h.writeOpens hv hu hu' hs hstep.1, if_true]
  | @swapping a a' g g' e e' hs hh he =>
    simp only [hp, Option.some.injEq] at hstep
    refine ⟨L.slot, (L.alsoEntry s.nextId s'.nextId).entry,
      (s'.replaceIn a' (some g') e').waitIn v' u' (.leaving a' (.ok ())), id, .inl,
      by simp only [hstep', hp'], ?_⟩
    subst hstep
    exact (h.replaceIn hs (.some hh) he).waitIn hv hu hu'
      ((Phase.Alike.leaving hs _).mono (L.within_alsoEntry _ _))
  | leaving hs r =>
    simp only [hp, Option.ite_none_right_eq_some, Option.some.injEq] at hstep
    refine hsame (h.moveTo hv hu hu' (.checking hs r)) ?_ hstep.2
    simp only [hstep', hp', h.mapOpens hv hu hu' hstep.1, if_true]
  | @checking a a' hs r =>
    have hgives := h.givesUp hv hu hu' hs (by rw [hp]; rfl) (by rw [hp']; rfl)
    simp only [hp, hkey, Option.some.injEq] at hstep
    simp only [hp', hkey', hgives] at hstep'
    refine hsame ?_ hstep' hstep
    cases s.givesUp k a with
    | true => exact h.dropSlot.moveTo hv hu hu' (.dropping hs r)
    | false => exact h.moveTo hv hu hu' (.dropping hs r)
  | dropping hs r =>
    simp only [hp, Option.some.injEq] at hstep
    exact hsame (h.moveTo hv hu hu' (.ended r)) (by simp only [hstep', hp']) hstep
  | producing | reusing | ended | lost => simp [hp] at hstep

end Moves

/-! ## Moves that are not seen -/

section Others

variable {k : Bytes} {L : Links} {s s' b s₁ : Store} {i a : Nat} {v : Visit} {m : Move} {p : Phase}

/-- Nobody begins to wait in a turn but the visit itself. -/
theorem Turn.nextPlace (ht : Turn s i v m p b) : b.nextPlace = s.nextPlace := by
  cases ht with
  | find =>
    rw [ensureSlot]
    cases s.slotOf v.key <;> rfl
  | _ => rfl

/-- A turn changes no slot but that of the visit. -/
theorem Turn.variants_ne (ht : Turn s i v m p b)
    (hlt : ∀ slot, v.phase.handle = some slot → slot < s.slots.length)
    (ha : v.phase.handle ≠ some a) : b.variants a = s.variants a := by
  have hset : ∀ {slot : Nat} (l : List Held), v.phase.handle = some slot →
      (s.setVariants slot l).variants a = s.variants a := by
    intro slot l hslot
    rw [variants_setVariants s (hlt slot hslot), if_neg]
    rintro rfl
    exact ha hslot
  cases ht with
  | find => rw [variants_ensureSlot]
  | sweepHit h | sweepMiss h | swap h | store h => exact hset _ (by rw [h, Phase.handle])
  | _ => rfl

/-- A handle that a visit has after a turn it had before, or it has just got it from the map. -/
theorem Turn.handle_cases (ht : Turn s i v m p b) (ha : p.handle = some a) :
    v.phase.handle = some a ∨ b.slotOf v.key = some a := by
  cases ht with
  | find =>
    rw [slotOf_ensureSlot, if_pos rfl]
    exact .inr ha
  | decline h => rcases h with ⟨_, h⟩ | ⟨_, h⟩ <;> simp_all [Phase.handle]
  | _ => simp_all [Phase.handle]

/-- **A turn of another visit is not seen.** -/
theorem Mirrors.turn_other (h : Mirrors k L s s') (hv : s.visits[i]? = some v) (hk : v.key ≠ k)
    (ht : Turn s i v m p b) (hg : Goes s i v p b s₁) : Mirrors k L s₁ s' := by
  have hlength : s₁.visits.length = s.visits.length := by
    obtain ⟨since, hvisits⟩ := hg.visits
    rw [hvisits, List.length_set]
  have hslots : s.slots.length ≤ s₁.slots.length := by
    rw [hg.slots]
    exact ht.slots_length
  have hne : ∀ {z z' : Nat}, L.visit z z' → z ≠ i := by
    rintro z z' hz rfl
    obtain ⟨u, u', hu, -, hal⟩ := h.visit hz
    obtain rfl := Option.some.inj (hv.symm.trans hu)
    exact hk hal.key
  have hother : ∀ {κ : Bytes} {a : Nat}, κ ≠ k → s₁.slotOf κ = some a →
      a < s₁.slots.length ∧ ∀ a', ¬ L.slot a a' := by
    intro κ a hκ ha
    rw [hg.slotOf] at ha
    rcases ht.slotOf_back ha with ha | ⟨rfl, hlt, -⟩
    · obtain ⟨hlt, hno⟩ := h.others hκ ha
      exact ⟨Nat.lt_of_lt_of_le hlt hslots, hno⟩
    · rw [hg.slots]
      exact ⟨hlt, fun a' ha' => absurd (h.slots.lt ha').1 (Nat.lt_irrefl _)⟩
  constructor
  case visits => exact h.visits.grow (Nat.le_of_eq hlength.symm) (Nat.le_refl _)
  case slots => exact h.slots.grow hslots (Nat.le_refl _)
  case entries => exact h.entries.grow (hg.nextId ▸ ht.nextId_le) (Nat.le_refl _)
  case only => exact h.only
  case before' => exact h.before'
  case others => exact hother
  case visit =>
    intro z z' hz
    rw [hg.visit_ne (hne hz)]
    exact h.visit hz
  case order =>
    intro z₁ z₁' z₂ z₂' y₁ y₁' y₂ y₂' h₁ h₂ hy₁ hy₁' hy₂ hy₂' hle
    rw [hg.visit_ne (hne h₁)] at hy₁
    rw [hg.visit_ne (hne h₂)] at hy₂
    exact h.order h₁ h₂ hy₁ hy₁' hy₂ hy₂' hle
  case every =>
    intro z y hy hkey
    rcases hg.visit_cases hv hy with ⟨-, hkey', -⟩ | ⟨-, hy⟩
    · exact absurd (hkey'.symm.trans hkey) hk
    · exact h.every hy hkey
  case before =>
    intro z y hy
    have hplace : s.nextPlace ≤ s₁.nextPlace := ht.nextPlace ▸ hg.nextPlace
    rcases hg.visit_cases hv hy with ⟨rfl, -⟩ | ⟨-, hy'⟩
    · rcases hg.place y hy with hsince | hlt
      · exact hsince ▸ Nat.lt_of_lt_of_le (h.before hv) hplace
      · exact hlt
    · exact Nat.lt_of_lt_of_le (h.before hy') hplace
  case map =>
    rw [hg.slotOf, ht.slotOf_ne (Ne.symm hk)]
    exact h.map
  case variants =>
    intro a a' ha
    have hlt : ∀ slot, v.phase.handle = some slot → slot < s.slots.length :=
      fun slot hslot => (h.handles hv hslot).1
    rw [hg.variants, ht.variants_ne hlt fun hslot => (h.handles hv hslot).2 hk a' ha]
    exact h.variants ha
  case handles =>
    intro z a y hy ha
    rcases hg.visit_cases hv hy with ⟨-, hkey, -, rfl⟩ | ⟨-, hy⟩
    · rcases ht.handle_cases ha with hold | hmap
      · obtain ⟨hlt, hno⟩ := h.handles hv hold
        exact ⟨Nat.lt_of_lt_of_le hlt hslots, fun _ => hno hk⟩
      · obtain ⟨hlt, hno⟩ := hother hk (by rw [hg.slotOf, hmap])
        exact ⟨hlt, fun _ => hno⟩
    · obtain ⟨hlt, hno⟩ := h.handles hy ha
      exact ⟨Nat.lt_of_lt_of_le hlt hslots, hno⟩

/-- Nor is it seen when a visit of another key begins. -/
theorem Mirrors.begin_other {key : Bytes} {accepts : Entry → Bool} (h : Mirrors k L s s')
    (hk : key ≠ k) : Mirrors k L (s.begin key accepts).1 s' := by
  have hold : ∀ {z z' : Nat}, L.visit z z' → (s.begin key accepts).1.visits[z]? = s.visits[z]? :=
    fun hz => begin_visit_old (h.visits.lt hz).1
  refine { h with
    visits := ?_, visit := fun hz => ?_, order := fun h₁ h₂ hy₁ hy₁' hy₂ hy₂' => ?_
    every := fun hy hkey => ?_, before := fun hy => ?_, handles := fun hy ha => ?_ }
  · exact h.visits.grow (by simp [Store.begin]) (Nat.le_refl _)
  · rw [hold hz]
    exact h.visit hz
  · exact h.order h₁ h₂ (hold h₁ ▸ hy₁) hy₁' (hold h₂ ▸ hy₂) hy₂'
  · rcases visit_begin_cases hy with hy | ⟨hkey', -⟩
    · exact h.every hy hkey
    · exact absurd (hkey'.symm.trans hkey) hk
  · rcases visit_begin_eq hy with hy | ⟨-, rfl⟩
    · exact Nat.lt_succ_of_lt (h.before hy)
    · exact Nat.lt_succ_self _
  · rcases visit_begin_cases hy with hy | ⟨-, -, hp⟩
    · exact h.handles hy ha
    · simp [hp, Phase.handle] at ha

end Others

end Store
end EdgeCache
