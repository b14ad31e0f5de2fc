import EdgeCache.Proofs.Store.Contents

/-!
# Freshness at the time of selection

A visit looks for an entry under a lock: first together with other readers, then, if that has not
led to a public entry, alone.  Either lock may have to be waited for, and the clock goes on
meanwhile.  This file relates the entry that a visit has been handed to the clock at the moment when
the lock was granted under which the entry was found.

The record of a run tells when a visit read the clock and when it was let in (`moments`).  The phase
of a visit says which of these moments there have been, and for an entry that has been handed out,
at which of them it was fresh (`Phase.Timed`).

The two looks differ.  A visit that is alone reads the clock when it has the slot, so what it finds
is fresh at the moment it was let in.  A visit that reads with others has read the clock *before* it
began to wait.  What it finds was fresh then, but its lifetime may have ended by the time the visit
is let in, and this is the only way in which an expired entry is handed out (`handed_fresh_iff`).
It happens: `expired_handed_after_wait`.
-/

set_option autoImplicit false

namespace EdgeCache
namespace Store

/-! ## Moments -/

/-- What a visit does at a moment that matters for the freshness of what it finds. -/
inductive Moment where
  /-- It reads the clock, before it waits. -/
  | reads
  /-- It is let in, to read the slot with others. -/
  | shares
  /-- It is let in and has the slot for itself. -/
  | owns
deriving DecidableEq

/-- What the next step of a visit in this phase does. -/
def Phase.moment : Phase → Option Moment
  | .entering _ => some .reads
  | .queueing _ _ => some .shares
  | .claiming _ => some .owns
  | _ => none

/-- The clock reading of a move. -/
def Move.clock? : Move → Option Instant
  | .step now _ => some now
  | _ => none

/-- What a visit does by a move, and when. -/
def momentOf (i : Nat) (p : Store × Move) : Option (Moment × Instant) :=
  match p.2 with
  | .step now j =>
    if j = i then ((p.1.visits[i]?).bind fun v => v.phase.moment).map fun m => (m, now) else none
  | _ => none

/-- The moments of a visit in the record of a run. -/
def moments (t : List (Store × Move)) (i : Nat) : List (Moment × Instant) :=
  t.filterMap (momentOf i)

/-- The clock readings in the record of a run. -/
def clocks (t : List (Store × Move)) : List Instant := t.filterMap fun p => p.2.clock?

/-- The clock never goes back. -/
def InOrder (t : List (Store × Move)) : Prop :=
  (clocks t).Pairwise fun a b => a.le b = true

instance : DecidablePred InOrder := fun t =>
  inferInstanceAs (Decidable ((clocks t).Pairwise fun a b => a.le b = true))

section Record

variable {t : List (Store × Move)} {s : Store} {i : Nat}

theorem InOrder.init {p : Store × Move} (h : InOrder (t ++ [p])) : InOrder t := by
  rw [InOrder, clocks, List.filterMap_append] at h
  exact (List.pairwise_append.1 h).1

/-- A move is made at the clock of every moment before it, or later. -/
theorem InOrder.le {now now' : Instant} {j : Nat} {m : Moment}
    (h : InOrder (t ++ [(s, .step now j)])) (hm : (m, now') ∈ moments t i) :
    now'.le now = true := by
  rw [InOrder, clocks, List.filterMap_append] at h
  refine (List.pairwise_append.1 h).2.2 now' ?_ now (by simp [Move.clock?])
  obtain ⟨p, hp, hmoment⟩ := List.mem_filterMap.1 hm
  refine List.mem_filterMap.2 ⟨p, hp, ?_⟩
  rw [momentOf] at hmoment
  split at hmoment
  · next hstep =>
    split at hmoment
    · obtain ⟨m', -, heq⟩ := Option.map_eq_some_iff.1 hmoment
      rw [hstep, Move.clock?, (Prod.mk.inj heq).2]
    · exact absurd hmoment (by simp)
  · exact absurd hmoment (by simp)

theorem moments_append (p : Store × Move) :
    moments (t ++ [p]) i = moments t i ++ (momentOf i p).toList := by
  rw [moments, List.filterMap_append, ← moments]
  cases h : momentOf i p <;> simp [h]

theorem momentOf_step {now : Instant} {v : Visit} (hv : s.visits[i]? = some v) :
    momentOf i (s, .step now i) = v.phase.moment.map fun m => (m, now) := by
  simp [momentOf, hv]

/-- Only a visit's own steps are among its moments. -/
theorem Turn.momentOf_ne {b : Store} {j : Nat} {v : Visit} {m : Move} {p : Phase}
    (ht : Turn s i v m p b) (hj : j ≠ i) : momentOf j (s, m) = none := by
  cases ht <;> simp [momentOf, Ne.symm hj]

end Record

/-! ## What the phases say about the moments -/

/-- The moments that a visit has had when it is in this phase, up to the time when it is handed
something, and when a public entry that it is handed was fresh. -/
def Phase.Timed (l : List (Moment × Instant)) : Phase → Prop
  | .arriving | .finding | .found _ | .entering _ => l = []
  | .queueing _ read => l = [(.reads, read)]
  | .scanning _ read => ∃ shared, l = [(.reads, read), (.shares, shared)] ∧ read.le shared = true
  | .claiming _ => ∃ read shared, l = [(.reads, read), (.shares, shared)] ∧ read.le shared = true
  | .sweeping _ => ∃ read shared owned,
      l = [(.reads, read), (.shares, shared), (.owns, owned)] ∧ read.le owned = true
  | .reusing _ h =>
      (∃ read shared, l = [(.reads, read), (.shares, shared)] ∧ read.le shared = true ∧
        h.entry.expired read = false) ∨
      (∃ read shared owned, l = [(.reads, read), (.shares, shared), (.owns, owned)] ∧
        read.le owned = true ∧ h.entry.expired owned = false)
  | _ => True

/-- The moments of every visit are as its phase says, and those to come have had none. -/
structure Timed (t : List (Store × Move)) (s : Store) : Prop where
  phase : ∀ (i : Nat) (v : Visit), s.visits[i]? = some v → v.phase.Timed (moments t i)
  ahead : ∀ i, s.visits[i]? = none → moments t i = []

theorem timed_empty : Timed [] {} := by
  constructor <;> simp [moments]

section Step

variable {t : List (Store × Move)} {s s' b : Store} {i : Nat} {v : Visit} {m : Move} {p : Phase}

/-- A turn adds to the moments of its visit what the next phase says. -/
theorem Turn.timed (ht : Turn s i v m p b) (hv : s.visits[i]? = some v)
    (hclock : InOrder (t ++ [(s, m)])) (h : v.phase.Timed (moments t i)) :
    p.Timed (moments (t ++ [(s, m)]) i) := by
  have hmoments {now : Instant} (hm : m = .step now i) : moments (t ++ [(s, m)]) i =
      moments t i ++ (v.phase.moment.map fun k => (k, now)).toList := by
    rw [moments_append, hm, momentOf_step hv]
  cases ht with
  | takeMap hp | find hp | leaveMap hp | readClock hp =>
    rw [hp] at h hmoments
    rw [hmoments rfl, show moments t i = [] from h]
    rfl
  | @takeRead now read slot hp =>
    rw [hp] at h hmoments
    have hread : moments t i = [(.reads, read)] := h
    refine ⟨now, ?_, hclock.le (i := i) (m := .reads) (by simp [hread])⟩
    rw [hmoments rfl, hread]
    rfl
  | scanHit hp hfind =>
    rw [hp] at h hmoments
    obtain ⟨shared, hl, hle⟩ := h
    obtain ⟨-, -, -, hfresh⟩ := freshPublic_eq_some hfind
    refine .inl ⟨_, shared, ?_, hle, hfresh⟩
    rw [hmoments rfl, hl]
    rfl
  | scanMiss hp =>
    rw [hp] at h hmoments
    obtain ⟨shared, hl, hle⟩ := h
    refine ⟨_, shared, ?_, hle⟩
    rw [hmoments rfl, hl]
    rfl
  | @takeSlot now slot hp =>
    rw [hp] at h hmoments
    obtain ⟨read, shared, hl, -⟩ := h
    refine ⟨read, shared, now, ?_, hclock.le (i := i) (m := .reads) (by simp [hl])⟩
    rw [hmoments rfl, hl]
    rfl
  | @sweepHit now slot held hp hfind =>
    rw [hp] at h hmoments
    obtain ⟨read, shared, owned, hl, hle⟩ := h
    have hmem := List.mem_of_find?_eq_some hfind
    have hfresh : held.entry.expired now = false := by simpa using (List.mem_filter.1 hmem).2
    have hlater : owned.le now = true := hclock.le (i := i) (m := .owns) (by simp [hl])
    refine .inr ⟨read, shared, owned, ?_, hle, fresh_of_le hlater hfresh⟩
    rw [hmoments rfl, hl]
    rfl
  | _ => trivial

/-- A turn leaves the moments of the other visits as they are. -/
theorem Turn.moments_ne (ht : Turn s i v m p b) {j : Nat} (hj : j ≠ i) :
    moments (t ++ [(s, m)]) j = moments t j := by
  rw [moments_append, ht.momentOf_ne hj, Option.toList_none, List.append_nil]

theorem Timed.move (h : Timed t s) (hclock : InOrder (t ++ [(s, m)])) (hm : s.move m = some s') :
    Timed (t ++ [(s, m)]) s' := by
  rcases move_cases hm with ⟨key, accepts, rfl, rfl⟩ | ⟨k, rfl, rfl⟩ | ⟨i, v, p, b, hv, ht, hg⟩
  · have hmoments (j : Nat) : moments (t ++ [(s, .begin key accepts)]) j = moments t j := by
      simp [moments_append, momentOf]
    refine ⟨fun j w hw => ?_, fun j hj => ?_⟩
    · rw [hmoments]
      rcases Nat.lt_or_ge j s.visits.length with hlt | hge
      · rw [begin, List.getElem?_append_left hlt] at hw
        exact h.phase j w hw
      · -- only the visit that has just begun
        have hnone : s.visits[j]? = none := List.getElem?_eq_none hge
        rcases visit_begin_cases hw with hw | ⟨-, -, hp⟩
        · simp [hnone] at hw
        · rw [hp]
          exact h.ahead j hnone
    · rw [hmoments]
      rw [List.getElem?_eq_none_iff, begin, List.length_append] at hj
      exact h.ahead j (List.getElem?_eq_none (Nat.le_of_add_right_le hj))
  · -- no such visit
    have hmoments (j : Nat) : moments (t ++ [(s', .lose k)]) j = moments t j := by
      simp [moments_append, momentOf]
    exact ⟨fun j w hw => hmoments j ▸ h.phase j w hw, fun j hj => hmoments j ▸ h.ahead j hj⟩
  · refine ⟨fun j w hw => ?_, fun j hj => ?_⟩
    · rcases hg.visit_cases hv hw with ⟨rfl, -, -, hp⟩ | ⟨hij, hw⟩
      · rw [hp]
        exact ht.timed hv hclock (h.phase j v hv)
      · rw [ht.moments_ne hij]
        exact h.phase j w hw
    · have hij : j ≠ i := by
        rintro rfl
        obtain ⟨since, hs⟩ := hg.visit hv
        simp [hs] at hj
      rw [ht.moments_ne hij]
      exact h.ahead j (by rwa [hg.visit_ne hij] at hj)

end Step

theorem Timed.of_run {t : List (Store × Move)} {s : Store} (hrun : Run Store.move {} t s)
    (hclock : InOrder t) : Timed t s := by
  induction hrun with
  | start => exact timed_empty
  | next _ hm ih => exact (ih hclock.init).move hclock hm

/-! ## What is handed out -/

/-- What a producer is handed, if it is public, is handed out with no lock held. -/
theorem Offering.reusing {s : Store} {i : Nat} {held : Held} (ho : s.Offering)
    (hh : s.handed i = some (some held)) (hpublic : held.entry.isPublic = true) :
    ∃ v slot, s.visits[i]? = some v ∧ v.phase = .reusing slot held := by
  obtain ⟨v, hv, hhanded⟩ := Option.bind_eq_some_iff.1 hh
  cases hp : v.phase with
  | producing slot previous =>
    rw [hp, Phase.handed, Option.some.injEq] at hhanded
    have hoffers := ho i v hv
    rw [hp, hhanded] at hoffers
    simp [Phase.Offers, hpublic] at hoffers
  | reusing slot held' =>
    rw [hp, Phase.handed, Option.some.injEq, Option.some.injEq] at hhanded
    exact ⟨v, slot, hv, hhanded ▸ hp⟩
  | _ => simp [hp, Phase.handed] at hhanded

/-- The entry's lifetime ends after the first of two instants, and not after the second. -/
def EndsBetween (e : Entry) (a b : Instant) : Prop :=
  e.expired a = false ∧ e.expired b = true

/-- **When an expired entry is handed out.**  A public entry that a producer is handed, in any run
in which the clock does not go back, was fresh when its visit read the clock, before it waited for
anything.  When the lock was granted under which the entry was found, it was expired just in one
case: the visit read the slot with others, and the lifetime ended while it waited for that. -/
theorem handed_fresh_iff {t : List (Store × Move)} {s : Store} {i : Nat} {held : Held}
    (hrun : Run Store.move {} t s) (hclock : InOrder t) (hh : s.handed i = some (some held))
    (hpublic : held.entry.isPublic = true) :
    ∃ read lock granted, (moments t i).head? = some (.reads, read) ∧
      (moments t i).getLast? = some (lock, granted) ∧ (lock = .shares ∨ lock = .owns) ∧
      read.le granted = true ∧ held.entry.expired read = false ∧
      (held.entry.expired granted = false ↔
        ¬ (lock = .shares ∧ EndsBetween held.entry read granted)) := by
  have ho : s.Offering := Offering.of_run hrun (by simp [Offering])
  obtain ⟨v, slot, hv, hp⟩ := ho.reusing hh hpublic
  have htimed := (Timed.of_run hrun hclock).phase i v hv
  rw [hp] at htimed
  rcases htimed with ⟨read, shared, hl, hle, hfresh⟩ | ⟨read, shared, owned, hl, hle, hfresh⟩
  · refine ⟨read, .shares, shared, by simp [hl], by simp [hl], .inl rfl, hle, hfresh, ?_⟩
    simp [EndsBetween, hfresh]
  · refine ⟨read, .owns, owned, by simp [hl], by simp [hl], .inr rfl, hle,
      fresh_of_le hle hfresh, ?_⟩
    simp [hfresh]

/-- A public entry whose lifetime ends at 5. -/
def shortLived : Entry :=
  { isPublic := true, expiration := ⟨5, 0⟩, requestHeaders := {}, head := ⟨.ok, {}⟩, body := none }

/-- Two visits of one key; the first builds an entry while the second, which has read the clock at
1, waits to read the slot.  The entry is stored, and the second is let in. -/
def waitsToRead (granted : Instant) : List Move :=
  [.begin [] fun _ => true, .begin [] fun _ => true] ++
    List.replicate 8 (.step ⟨0, 0⟩ 0) ++ List.replicate 4 (.step ⟨1, 0⟩ 1) ++
    [.finish 0 (.replace shortLived)] ++ List.replicate 2 (.step granted 1)

/-- Let in at 4, the second visit is handed the entry while it is fresh. -/
theorem handed_fresh_iff_waitsToRead :
    ∃ t s, Run Store.move {} t s ∧ InOrder t ∧ s.handed 1 = some (some ⟨0, shortLived⟩) ∧
      shortLived.isPublic = true ∧ moments t 1 = [(.reads, ⟨1, 0⟩), (.shares, ⟨4, 0⟩)] ∧
      shortLived.expired ⟨4, 0⟩ = false ∧ ¬ EndsBetween shortLived ⟨1, 0⟩ ⟨4, 0⟩ := by
  let r := (follow Store.move {} (waitsToRead ⟨4, 0⟩)).get rfl
  have hrun : Run Store.move {} r.1 r.2 := run_of_follow (Option.some_get _).symm
  have hclock : InOrder r.1 := by decide
  have hmoments : moments r.1 1 = [(.reads, ⟨1, 0⟩), (.shares, ⟨4, 0⟩)] := rfl
  have hhanded : r.2.handed 1 = some (some ⟨0, shortLived⟩) := rfl
  obtain ⟨read, lock, granted, hfirst, hlast, -, -, -, hiff⟩ :=
    handed_fresh_iff hrun hclock hhanded rfl
  rw [hmoments] at hfirst hlast
  obtain ⟨-, rfl⟩ := Prod.mk.inj (Option.some.inj hfirst)
  obtain ⟨rfl, rfl⟩ := Prod.mk.inj (Option.some.inj hlast)
  have hfresh : shortLived.expired ⟨4, 0⟩ = false := rfl
  exact ⟨r.1, r.2, hrun, hclock, hhanded, rfl, hmoments, hfresh, fun h => hiff.1 hfresh ⟨rfl, h⟩⟩

/-- **An expired entry is handed out.**  Let in at 9, the second visit is handed the entry all the
same, since it goes by the clock it read at 1. -/
theorem expired_handed_after_wait :
    ∃ t s, Run Store.move {} t s ∧ InOrder t ∧ s.handed 1 = some (some ⟨0, shortLived⟩) ∧
      shortLived.isPublic = true ∧ (moments t 1).getLast? = some (.shares, ⟨9, 0⟩) ∧
      shortLived.expired ⟨9, 0⟩ = true := by
  let r := (follow Store.move {} (waitsToRead ⟨9, 0⟩)).get rfl
  have hrun : Run Store.move {} r.1 r.2 := run_of_follow (Option.some_get _).symm
  exact ⟨r.1, r.2, hrun, by decide, rfl, rfl, rfl, rfl⟩

end Store
end EdgeCache
