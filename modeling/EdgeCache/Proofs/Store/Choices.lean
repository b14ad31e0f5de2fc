import EdgeCache.Proofs.Store.SingleFlight

/-!
# Building in a slot

A producer that may build an entry has its slot to itself, so that the variants of its key stay as
they are while it runs: what it was handed is the first of them that would do, at its end as at its
beginning (`Fitting`).  What it builds stands beside all the others from then on.

An entry that has been stored is not changed: as long as anybody knows an entry of its number, it is
this one (`Pinned`).
-/

set_option autoImplicit false

namespace EdgeCache
namespace Store

/-- Producers that may build an entry have been handed the first variant that would do, and only
they build. -/
structure Fitting (s : Store) : Prop where
  first : ∀ (i : Nat) (v : Visit) (slot : Nat) (previous : Option Held), s.visits[i]? = some v →
    v.phase = .producing slot previous →
    (s.variantsOf v.key).find? (fun h => v.accepts h.entry) = previous
  pending : ∀ (i : Nat) (v : Visit), s.visits[i]? = some v → v.phase.pending = none

theorem fitting_empty : Fitting {} := by
  constructor <;> simp

section Move

variable {s s' b : Store} {i : Nat} {v : Visit} {m : Move} {p : Phase}

/-- What is stored is stored by a visit that has a slot to itself. -/
theorem Stores.writing {previous : Option Held} {e : Entry} (h : Stores i v previous e m) :
    ∃ slot, v.phase.writing slot = true := by
  cases h with
  | @producing slot hp => exact ⟨slot, by simp [hp, Phase.writing]⟩
  | @swapping _ slot _ hp => exact ⟨slot, by simp [hp, Phase.writing]⟩

/-- What is stored by one that builds is what its producer has decided. -/
theorem Fitting.stores (hf : s.Fitting) (hv : s.visits[i]? = some v) {previous : Option Held}
    {e : Entry} (h : Stores i v previous e m) :
    m = .finish i (.replace e) ∧
      (s.variantsOf v.key).find? (fun h => v.accepts h.entry) = previous := by
  cases h with
  | producing hp => exact ⟨rfl, hf.first i v _ previous hv hp⟩
  | swapping hp =>
    have hnone := hf.pending i v hv
    simp [hp, Phase.pending] at hnone

/-- While a visit has the slot of its key to itself, no other visit changes the variants. -/
theorem Turn.variantsOf_of_writing (ht : Turn s i v m p b) (hs : Sound s)
    (hv : s.visits[i]? = some v) {j slot : Nat} {w : Visit} (hw : s.visits[j]? = some w)
    (hwriting : w.phase.writing slot = true) (hij : j ≠ i) :
    b.variantsOf w.key = s.variantsOf w.key := by
  have halone : ∀ slot', v.phase.writing slot' = true → v.key ≠ w.key := by
    intro slot' hv' hkey
    have hslot := hs.bound i v slot' hv (Phase.bound_of_writing hv')
    rw [hkey, hs.bound j w slot hw (Phase.bound_of_writing hwriting), Option.some.injEq] at hslot
    subst hslot
    exact hij (hs.lock j i w v slot hw hv hwriting (.inl hv'))
  rcases ht.variantsOf_cases hs hv w.key with hb | ⟨now, slot', -, hp, hkey, -⟩ |
    ⟨previous, e, hstores, hkey, -⟩
  · exact hb
  · exact absurd hkey (halone slot' (by simp [hp, Phase.writing]))
  · obtain ⟨slot', hw'⟩ := hstores.writing
    exact absurd hkey (halone slot' hw')

/-- Moves keep this, if only producers that may build something decide to store it. -/
theorem Fitting.move (hf : s.Fitting) (hs : Sound s) (h : s.move m = some s')
    (hbuild : ∀ (i : Nat) (e : Entry) (v : Visit), m = .finish i (.replace e) →
      s.visits[i]? = some v → ∃ slot previous, v.phase = .producing slot previous) :
    s'.Fitting := by
  rcases move_cases h with ⟨key, accepts, -, rfl⟩ | ⟨-, -, rfl⟩ | ⟨i, v, p, b, hv, ht, hg⟩
  · refine ⟨fun j w slot previous hw hp => ?_, fun j w hw => ?_⟩
    · rcases visit_begin_cases hw with hw | ⟨-, -, hp'⟩
      · exact hf.first j w slot previous hw hp
      · simp [hp'] at hp
    · rcases visit_begin_cases hw with hw | ⟨-, -, hp'⟩
      · exact hf.pending j w hw
      · rw [hp']
        rfl
  · exact hf
  · refine ⟨fun j w slot previous hw hp => ?_, fun j w hw => ?_⟩
    · rw [hg.variantsOf]
      rcases hg.visit_cases hv hw with ⟨-, hkey, hacc, hp'⟩ | ⟨hij, hw⟩
      · -- the visit has just swept its slot and looked
        rw [hkey, hacc]
        cases ht with
        | @sweepMiss now slot' previous' hsweep hfind =>
          obtain ⟨rfl, rfl⟩ := Phase.producing.inj (hp'.symm.trans hp)
          have hslot := hs.bound i v slot' hv (by simp [hsweep, Phase.bound, Phase.handle])
          rw [variantsOf_setVariants hs hslot, if_pos rfl, hfind]
        | _ => simp [hp'] at hp
      · have hwriting : w.phase.writing slot = true := by simp [hp, Phase.writing]
        rw [ht.variantsOf_of_writing hs hv hw hwriting hij]
        exact hf.first j w slot previous hw hp
    · rcases hg.visit_cases hv hw with ⟨-, -, -, hp'⟩ | ⟨-, hw⟩
      · rw [hp']
        cases hpending : p.pending with
        | none => rfl
        | some e =>
          rcases ht.pending_cases hpending with hold | rfl
          · simp [hf.pending i v hv] at hold
          · obtain ⟨slot, previous, hproducing⟩ := hbuild i e v rfl hv
            cases ht with
            | store => simp [Phase.pending] at hpending
            | giveBack hp => simp [hproducing] at hp
            | decline _ hr => exact absurd rfl (hr e)
      · exact hf.pending j w hw

end Move

/-! ## Entries stay as they are -/

/-- Whoever knows an entry of this number knows this one, and the number is not given again. -/
structure Pinned (held : Held) (s : Store) : Prop where
  lt : held.id < s.nextId
  eq : ∀ h, s.Knows h → h.id = held.id → h = held

theorem Pinned.move {s s' : Store} {held : Held} {m : Move} (hp : s.Pinned held)
    (h : s.move m = some s') : s'.Pinned held := by
  rcases move_cases h with ⟨key, accepts, -, rfl⟩ | ⟨-, -, rfl⟩ | ⟨i, v, p, b, hv, ht, hg⟩
  · exact ⟨hp.lt, fun h hh => hp.eq h (knows_begin hh)⟩
  · exact hp
  · refine ⟨?_, fun h hh hid => ?_⟩
    · rw [hg.nextId]
      exact Nat.lt_of_lt_of_le hp.lt ht.nextId_le
    · rcases ht.knows_cases hg hv hh with hh | ⟨_, _, _, rfl, _⟩
      · exact hp.eq h hh hid
      · exact absurd hid (Nat.ne_of_gt hp.lt)

theorem Numbered.pinned {s : Store} {key : Bytes} {held : Held} (hn : s.Numbered)
    (hh : held ∈ s.variantsOf key) : s.Pinned held where
  lt := hn.lt held (stored_iff.2 hh).knows
  eq h hknows hid := hn.inj h held hknows (stored_iff.2 hh).knows hid

end Store
end EdgeCache
