import EdgeCache.Proofs.Store.Moves
import Mathlib.Data.List.Perm.Basic

/-!
# Slots and locks

What holds of the map, the slots and the phases in every state of a store, whatever its visits do
and in whatever order: `Sound`.  Its clauses are

* **slots**: a visit that has got a slot and not yet given it up (`Phase.bound`) has the slot of its
  key in the map, and two keys never share a slot;
* **the map** is worked on by one visit at a time;
* **a slot** that one visit has for itself is neither read nor had by another.

A slot is taken out of the map only when the visit that does so is the only one with a handle of it,
and since a visit of the same key that is bound has, by the first clause, a handle of that very
slot, there is none.  This is where the first clause could break, and it is all there is to the
argument.
-/

set_option autoImplicit false

namespace EdgeCache
namespace Store

/-- The slot that the visit has got and not yet given up. -/
def Phase.bound : Phase → Option Nat
  | .dropping _ _ => none
  | p => p.handle

theorem Phase.handle_of_bound {p : Phase} {slot : Nat} (h : p.bound = some slot) :
    p.handle = some slot := by
  cases p <;> simp_all [Phase.bound, Phase.handle]

theorem Phase.bound_of_writing {p : Phase} {slot : Nat} (h : p.writing slot = true) :
    p.bound = some slot := by
  cases p <;> simp_all [Phase.bound, Phase.handle, Phase.writing]

/-! ## What a move leaves as it was -/

section Goes

variable {s b s' : Store} {i j : Nat} {v w : Visit} {p : Phase}

theorem Goes.slotOf (h : Goes s i v p b s') : s'.slotOf = b.slotOf := by
  funext k
  simp only [Store.slotOf, h.map]

theorem Goes.variants (h : Goes s i v p b s') : s'.variants = b.variants := by
  funext k
  simp only [Store.variants, h.slots]

theorem Goes.visit (h : Goes s i v p b s') (hv : s.visits[i]? = some v) :
    ∃ since, s'.visits[i]? = some { v with phase := p, since } := by
  obtain ⟨since, hs⟩ := h.visits
  have hi : i < s.visits.length := (List.getElem?_eq_some_iff.1 hv).1
  exact ⟨since, by rw [hs, List.getElem?_set_self hi]⟩

theorem Goes.visit_ne (h : Goes s i v p b s') (hij : j ≠ i) : s'.visits[j]? = s.visits[j]? := by
  obtain ⟨since, hs⟩ := h.visits
  rw [hs, List.getElem?_set_ne (Ne.symm hij)]

/-- A visit after the move is the one that moved, in its new phase, or another one as it was. -/
theorem Goes.visit_cases (h : Goes s i v p b s') (hv : s.visits[i]? = some v)
    (hw : s'.visits[j]? = some w) :
    (j = i ∧ w.key = v.key ∧ w.accepts = v.accepts ∧ w.phase = p) ∨
      (j ≠ i ∧ s.visits[j]? = some w) := by
  by_cases hj : j = i
  · subst hj
    obtain ⟨since, hs⟩ := h.visit hv
    rw [hs, Option.some.injEq] at hw
    subst hw
    exact .inl ⟨rfl, rfl, rfl, rfl⟩
  · exact .inr ⟨hj, by rw [← h.visit_ne hj]; exact hw⟩

end Goes

theorem begin_visit_old {s : Store} {key : Bytes} {accepts : Entry → Bool} {j : Nat}
    (hj : j < s.visits.length) : (s.begin key accepts).1.visits[j]? = s.visits[j]? :=
  List.getElem?_append_left hj

/-- After a visit has begun, a visit was there before, or it is the new one. -/
theorem visit_begin_eq {s : Store} {key : Bytes} {accepts : Entry → Bool} {j : Nat} {w : Visit}
    (hw : (s.begin key accepts).1.visits[j]? = some w) :
    s.visits[j]? = some w ∨
      (j = s.visits.length ∧ w = { key, accepts, since := s.nextPlace }) := by
  rcases Nat.lt_or_ge j s.visits.length with hj | hj
  · exact .inl ((begin_visit_old hj).symm.trans hw)
  · simp only [begin] at hw
    rw [List.getElem?_append_right hj, List.getElem?_singleton] at hw
    split at hw
    · next hnew => exact .inr ⟨by omega, (Option.some.inj hw).symm⟩
    · exact absurd hw (by simp)

theorem visit_begin_cases {s : Store} {key : Bytes} {accepts : Entry → Bool} {j : Nat} {w : Visit}
    (hw : (s.begin key accepts).1.visits[j]? = some w) :
    s.visits[j]? = some w ∨ (w.key = key ∧ w.accepts = accepts ∧ w.phase = .arriving) := by
  rcases visit_begin_eq hw with hw | ⟨-, rfl⟩
  · exact .inl hw
  · exact .inr ⟨rfl, rfl, rfl⟩

/-! ## How phases follow each other -/

section Turn

variable {s b : Store} {i slot : Nat} {v : Visit} {m : Move} {p : Phase}

theorem Turn.atMap (h : Turn s i v m p b) (hp : p.atMap = true) :
    v.phase.atMap = true ∨ s.mapTaken = false := by
  cases h <;> simp_all [Phase.atMap]

theorem Turn.writing (h : Turn s i v m p b) (hp : p.writing slot = true) :
    v.phase.writing slot = true ∨ (s.slotTaken slot = false ∧ s.slotRead slot = false) := by
  cases h <;> simp_all [Phase.writing]

theorem Turn.reading (h : Turn s i v m p b) (hp : p.reading slot = true) :
    v.phase.reading slot = true ∨ s.slotTaken slot = false := by
  cases h <;> simp_all [Phase.reading]

/-- A visit that is bound after a move was so before, or has just got its slot. -/
theorem Turn.bound (h : Turn s i v m p b) (hp : p.bound = some slot) :
    v.phase.bound = some slot ∨
      (slot = (s.ensureSlot v.key).2 ∧ b = (s.ensureSlot v.key).1) := by
  cases h with
  | find h =>
    simp only [Phase.bound, Phase.handle, Option.some.injEq] at hp
    exact .inr ⟨hp.symm, rfl⟩
  | decline h _ =>
    rcases h with ⟨_, h⟩ | ⟨_, h⟩ <;> simp_all [Phase.bound, Phase.handle]
  | _ => simp_all [Phase.bound, Phase.handle]

/-- The map changes in two ways only. -/
theorem Turn.slotOf (h : Turn s i v m p b) :
    b.slotOf = s.slotOf ∨ (v.phase = .finding ∧ b = (s.ensureSlot v.key).1) ∨
      ∃ slot r, v.phase = .checking slot r ∧ s.givesUp v.key slot = true ∧
        b = s.dropSlot v.key := by
  cases h with
  | find h => exact .inr (.inl ⟨h, rfl⟩)
  | giveUp h hgives => exact .inr (.inr ⟨_, _, h, hgives, rfl⟩)
  | _ => exact .inl rfl

/-- The slots of other keys are left alone. -/
theorem Turn.slotOf_ne {k : Bytes} (h : Turn s i v m p b) (hk : k ≠ v.key) :
    b.slotOf k = s.slotOf k := by
  rcases h.slotOf with hb | ⟨-, rfl⟩ | ⟨slot, r, -, -, rfl⟩
  · rw [hb]
  · rw [slotOf_ensureSlot, if_neg hk]
  · rw [slotOf_dropSlot, if_neg hk]

theorem Turn.slots_length (h : Turn s i v m p b) : s.slots.length ≤ b.slots.length := by
  cases h with
  | find h =>
    rw [ensureSlot]
    cases s.slotOf v.key <;> simp
  | sweepHit => simp [setVariants]
  | sweepMiss => simp [setVariants]
  | swap => simp [replaceIn, setVariants]
  | store => simp [replaceIn, setVariants]
  | _ => exact Nat.le_refl _

end Turn

/-! ## The invariant -/

/-- What holds of slots and locks in every state. -/
structure Sound (s : Store) : Prop where
  /-- A bound visit has the slot of its key in the map. -/
  bound : ∀ (i : Nat) (v : Visit) (slot : Nat), s.visits[i]? = some v →
    v.phase.bound = some slot → s.slotOf v.key = some slot
  /-- Two keys have two slots. -/
  inj : ∀ (k k' : Bytes) (slot : Nat), s.slotOf k = some slot → s.slotOf k' = some slot → k = k'
  /-- A slot in the map is one there has been. -/
  lt : ∀ (k : Bytes) (slot : Nat), s.slotOf k = some slot → slot < s.slots.length
  /-- One visit at a time works on the map. -/
  map : ∀ (i j : Nat) (v w : Visit), s.visits[i]? = some v → s.visits[j]? = some w →
    v.phase.atMap = true → w.phase.atMap = true → i = j
  /-- A visit that has a slot for itself is alone with it. -/
  lock : ∀ (i j : Nat) (v w : Visit) (slot : Nat), s.visits[i]? = some v → s.visits[j]? = some w →
    v.phase.writing slot = true → (w.phase.writing slot = true ∨ w.phase.reading slot = true) →
    i = j

theorem mapTaken_eq_false {s : Store} (h : s.mapTaken = false) {i : Nat} {v : Visit}
    (hv : s.visits[i]? = some v) : v.phase.atMap = false := by
  simp only [mapTaken, List.any_eq_false] at h
  simpa using h v (List.mem_of_getElem? hv)

theorem slotTaken_eq_false {s : Store} {slot : Nat} (h : s.slotTaken slot = false) {i : Nat}
    {v : Visit} (hv : s.visits[i]? = some v) : v.phase.writing slot = false := by
  simp only [slotTaken, List.any_eq_false] at h
  simpa using h v (List.mem_of_getElem? hv)

theorem slotRead_eq_false {s : Store} {slot : Nat} (h : s.slotRead slot = false) {i : Nat}
    {v : Visit} (hv : s.visits[i]? = some v) : v.phase.reading slot = false := by
  simp only [slotRead, List.any_eq_false] at h
  simpa using h v (List.mem_of_getElem? hv)

/-- A visit with a handle is the only one exactly if no other has it. -/
theorem handles_eq_one_iff {s : Store} {i slot : Nat} {v : Visit} (hv : s.visits[i]? = some v)
    (hslot : v.phase.handle = some slot) :
    s.handles slot = 1 ↔
      ∀ (j : Nat) (w : Visit), j ≠ i → s.visits[j]? = some w → w.phase.handle ≠ some slot := by
  obtain ⟨hlt, rfl⟩ := List.getElem?_eq_some_iff.1 hv
  have hperm := List.getElem_cons_eraseIdx_perm hlt
  rw [handles, ← hperm.countP_eq, List.countP_cons_of_pos (by simpa using hslot),
    Nat.add_eq_right, List.countP_eq_zero]
  constructor
  · intro hnone j w hj hw
    simpa using hnone w (List.mem_eraseIdx_iff_getElem?.2 ⟨j, hj, hw⟩)
  · intro hnone w hw
    obtain ⟨j, hj, hw⟩ := List.mem_eraseIdx_iff_getElem?.1 hw
    simpa using hnone j w hj hw

/-- Of a slot that is given up nobody else has a handle. -/
theorem handle_ne_of_givesUp {s : Store} {key : Bytes} {slot i j : Nat} {v w : Visit}
    (h : s.givesUp key slot = true) (hv : s.visits[i]? = some v)
    (hslot : v.phase.handle = some slot) (hw : s.visits[j]? = some w) (hij : j ≠ i) :
    w.phase.handle ≠ some slot := by
  have hone : s.handles slot = 1 := by
    simp only [givesUp, Bool.and_eq_true, beq_iff_eq] at h
    exact h.1.1.1
  exact (handles_eq_one_iff hv hslot).1 hone j w hij hw

theorem variants_of_givesUp {s : Store} {key : Bytes} {slot : Nat}
    (h : s.givesUp key slot = true) : s.variants slot = [] := by
  simp only [givesUp, Bool.and_eq_true, List.isEmpty_iff] at h
  exact h.2

theorem slotOf_of_givesUp {s : Store} {key : Bytes} {slot : Nat}
    (h : s.givesUp key slot = true) : s.slotOf key = some slot := by
  simp only [givesUp, Bool.and_eq_true, beq_iff_eq] at h
  exact h.1.1.2

theorem sound_empty : Sound {} := by
  constructor <;> simp [slotOf]

/-- **When a slot is given up.**  A visit that checks its slot gives it up exactly if the slot holds
nothing and no other visit has a handle of it. -/
theorem Sound.givesUp_iff {s : Store} {i slot : Nat} {v : Visit} {r : VisitResult} (hs : Sound s)
    (hv : s.visits[i]? = some v) (hp : v.phase = .checking slot r) :
    s.givesUp v.key slot = true ↔ s.variants slot = [] ∧
      ∀ (j : Nat) (w : Visit), j ≠ i → s.visits[j]? = some w → w.phase.handle ≠ some slot := by
  have hhandle : v.phase.handle = some slot := by rw [hp]; rfl
  have hslot : s.slotOf v.key = some slot := hs.bound i v slot hv (by rw [hp]; rfl)
  rw [← handles_eq_one_iff hv hhandle]
  constructor
  · intro h
    refine ⟨variants_of_givesUp h, ?_⟩
    rw [handles_eq_one_iff hv hhandle]
    exact fun j w hj hw => handle_ne_of_givesUp h hv hhandle hw hj
  · rintro ⟨hempty, hone⟩
    -- whoever has the slot to itself has a handle, but the visit itself only checks
    have htaken : s.slotTaken slot = false := by
      refine List.any_eq_false.2 fun w hw => ?_
      obtain ⟨j, hj⟩ := List.getElem?_of_mem hw
      by_cases hij : j = i
      · subst hij
        obtain rfl := Option.some.inj (hv.symm.trans hj)
        simp [hp, Phase.writing]
      · intro hwriting
        exact (handles_eq_one_iff hv hhandle).1 hone j w hij hj
          (Phase.handle_of_bound (Phase.bound_of_writing hwriting))
    simp [givesUp, hone, hslot, htaken, hempty]

/-! ### One move keeps it -/

section Step

variable {s b s' : Store} {i : Nat} {v : Visit} {m : Move} {p : Phase}

/-- What a key's slot is after a move, unless the move has taken it out. -/
theorem Turn.slotOf_eq (h : Turn s i v m p b) {k : Bytes} {slot : Nat}
    (hk : s.slotOf k = some slot) :
    b.slotOf k = some slot ∨
      (k = v.key ∧ (∃ r, v.phase = .checking slot r) ∧ s.givesUp v.key slot = true) := by
  rcases h.slotOf with hb | ⟨-, hb⟩ | ⟨slot', r, hp, hgives, hb⟩
  · exact .inl (by rw [hb, hk])
  · rw [hb, slotOf_ensureSlot]
    by_cases hkv : k = v.key
    · subst hkv
      rw [if_pos rfl, ensureSlot, hk]
      exact .inl rfl
    · rw [if_neg hkv, hk]
      exact .inl rfl
  · rw [hb, slotOf_dropSlot]
    by_cases hkv : k = v.key
    · subst hkv
      have hs : slot' = slot := Option.some.inj ((slotOf_of_givesUp hgives).symm.trans hk)
      subst hs
      exact .inr ⟨rfl, ⟨r, hp⟩, hgives⟩
    · rw [if_neg hkv, hk]
      exact .inl rfl

/-- A slot that a key has after a move it had before, or it is new and there has been none like
it. -/
theorem Turn.slotOf_back (h : Turn s i v m p b) {k : Bytes} {slot : Nat}
    (hk : b.slotOf k = some slot) :
    s.slotOf k = some slot ∨ (slot = s.slots.length ∧ slot < b.slots.length ∧ k = v.key) := by
  rcases h.slotOf with hb | ⟨-, hb⟩ | ⟨slot', r, hp, hgives, hb⟩
  · exact .inl (by rw [← hb, hk])
  · subst hb
    rw [slotOf_ensureSlot] at hk
    by_cases hkv : k = v.key
    · subst hkv
      rw [if_pos rfl, Option.some.injEq] at hk
      rw [ensureSlot] at hk ⊢
      cases hs : s.slotOf v.key with
      | some slot' =>
        rw [hs] at hk
        exact .inl (by rw [← hk])
      | none =>
        rw [hs] at hk
        exact .inr ⟨hk.symm, by simp [← hk], rfl⟩
    · rw [if_neg hkv] at hk
      exact .inl hk
  · subst hb
    rw [slotOf_dropSlot] at hk
    by_cases hkv : k = v.key
    · simp [hkv] at hk
    · rw [if_neg hkv] at hk
      exact .inl hk

theorem Sound.turn (hs : Sound s) (hv : s.visits[i]? = some v) (ht : Turn s i v m p b)
    (hg : Goes s i v p b s') : Sound s' where
  bound j w slot hw hslot := by
    rw [hg.slotOf]
    rcases hg.visit_cases hv hw with ⟨rfl, hkey, -, hp⟩ | ⟨hij, hw⟩
    · rw [hkey]
      rw [hp] at hslot
      rcases ht.bound hslot with hb | ⟨rfl, rfl⟩
      · rcases ht.slotOf_eq (hs.bound j v slot hv hb) with h | ⟨-, ⟨r, hr⟩, hgives⟩
        · exact h
        · -- the visit that gives the slot up is not bound any more
          cases ht <;> simp_all [Phase.bound, Phase.handle]
      · rw [slotOf_ensureSlot, if_pos rfl]
    · rcases ht.slotOf_eq (hs.bound j w slot hw hslot) with h | ⟨hkey, ⟨r, hr⟩, hgives⟩
      · exact h
      · refine absurd (Phase.handle_of_bound hslot) (handle_ne_of_givesUp hgives hv ?_ hw hij)
        rw [hr, Phase.handle]
  inj k k' slot hk hk' := by
    rw [hg.slotOf] at hk hk'
    rcases ht.slotOf_back hk with h | ⟨h, -, rfl⟩ <;>
      rcases ht.slotOf_back hk' with h' | ⟨h', -, rfl⟩
    · exact hs.inj k k' slot h h'
    · have := hs.lt k slot h
      omega
    · have := hs.lt k' slot h'
      omega
    · rfl
  lt k slot hk := by
    rw [hg.slotOf] at hk
    rw [hg.slots]
    rcases ht.slotOf_back hk with h | ⟨-, h, -⟩
    · exact Nat.lt_of_lt_of_le (hs.lt k slot h) ht.slots_length
    · exact h
  map j k w x hw hx hwm hxm := by
    rcases hg.visit_cases hv hw with ⟨rfl, -, -, hp⟩ | ⟨hj, hw'⟩ <;>
      rcases hg.visit_cases hv hx with ⟨rfl, -, -, hp'⟩ | ⟨hk, hx'⟩
    · rfl
    · rcases ht.atMap (hp ▸ hwm) with h | h
      · exact hs.map _ _ _ _ hv hx' h hxm
      · simp [mapTaken_eq_false h hx'] at hxm
    · rcases ht.atMap (hp' ▸ hxm) with h | h
      · exact hs.map _ _ _ _ hw' hv hwm h
      · simp [mapTaken_eq_false h hw'] at hwm
    · exact hs.map _ _ _ _ hw' hx' hwm hxm
  lock j k w x slot hw hx hwl hxl := by
    rcases hg.visit_cases hv hw with ⟨rfl, -, -, hp⟩ | ⟨hj, hw'⟩ <;>
      rcases hg.visit_cases hv hx with ⟨rfl, -, -, hp'⟩ | ⟨hk, hx'⟩
    · rfl
    · rcases ht.writing (hp ▸ hwl) with h | ⟨h, h'⟩
      · exact hs.lock _ _ _ _ slot hv hx' h hxl
      · simp [slotTaken_eq_false h hx', slotRead_eq_false h' hx'] at hxl
    · rw [hp'] at hxl
      rcases hxl with hxl | hxl
      · rcases ht.writing hxl with h | ⟨h, -⟩
        · exact hs.lock _ _ _ _ slot hw' hv hwl (.inl h)
        · simp [slotTaken_eq_false h hw'] at hwl
      · rcases ht.reading hxl with h | h
        · exact hs.lock _ _ _ _ slot hw' hv hwl (.inr h)
        · simp [slotTaken_eq_false h hw'] at hwl
    · exact hs.lock _ _ _ _ slot hw' hx' hwl hxl

theorem Sound.begin (hs : Sound s) (key : Bytes) (accepts : Entry → Bool) :
    Sound (s.begin key accepts).1 where
  bound j w slot hw hslot := by
    rcases visit_begin_cases hw with hw | ⟨-, -, hp⟩
    · exact hs.bound j w slot hw hslot
    · simp [hp, Phase.bound, Phase.handle] at hslot
  inj := hs.inj
  lt := hs.lt
  map j k w x hw hx hwm hxm := by
    rcases visit_begin_cases hw with hw | ⟨-, -, hp⟩
    · rcases visit_begin_cases hx with hx | ⟨-, -, hp⟩
      · exact hs.map j k w x hw hx hwm hxm
      · simp [hp, Phase.atMap] at hxm
    · simp [hp, Phase.atMap] at hwm
  lock j k w x slot hw hx hwl hxl := by
    rcases visit_begin_cases hw with hw | ⟨-, -, hp⟩
    · rcases visit_begin_cases hx with hx | ⟨-, -, hp⟩
      · exact hs.lock j k w x slot hw hx hwl hxl
      · simp [hp, Phase.writing, Phase.reading] at hxl
    · simp [hp, Phase.writing] at hwl

theorem Sound.move (hs : Sound s) (h : s.move m = some s') : Sound s' := by
  rcases move_cases h with ⟨key, accepts, -, rfl⟩ | ⟨-, -, rfl⟩ | ⟨i, v, p, b, hv, ht, hg⟩
  · exact hs.begin key accepts
  · exact hs
  · exact hs.turn hv ht hg

end Step

/-- **Slots and locks are sound in every state** that any number of visits lead to. -/
theorem Sound.of_run {s₀ s : Store} {t : List (Store × Move)} (hrun : Run Store.move s₀ t s)
    (h₀ : Sound s₀) : Sound s :=
  hrun.invariant Sound.move h₀

end Store
end EdgeCache
