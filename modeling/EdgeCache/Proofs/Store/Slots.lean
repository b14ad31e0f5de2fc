import EdgeCache.Proofs.Store.Contents
import EdgeCache.Proofs.Store.Progress

/-!
# Slots that are left behind

A visit that is done takes the slot of its key out of the map if it is empty and nobody else has a
handle of it.  It looks for that while it has the map, but drops its own handle only after it has
left the map.  So two visits may each find the handle of the other: the second checks the slot
before the first, which has left the map already, drops its handle.  Both keep the slot for the sake
of somebody who will not check it again (`Lingers`), and if that was the last check, an empty slot
stays in the map until the key is visited anew.

`Store.slot_kept_iff` says that this is the only way.  The invariant behind it (`slot_explained`) is
about keys that no visit is bound to: for the time being, whether their slot is left behind has been
settled by the last check.
-/

set_option autoImplicit false

namespace EdgeCache
namespace Store

/-- By the move a task is gone in the middle of its visit. -/
def Move.loses : Move → Bool
  | .lose _ => true
  | _ => false

/-- By the move a visit checks whether the slot of the key can be given up. -/
def Checks (s : Store) (key : Bytes) (m : Move) : Prop :=
  ∃ (now : Instant) (i : Nat) (v : Visit) (slot : Nat) (r : VisitResult), m = .step now i ∧
    s.visits[i]? = some v ∧ v.key = key ∧ v.phase = .checking slot r

/-- By the move a visit checks the slot of the key, which is empty, while another visit has left the
map and still has a handle of the slot. -/
def Lingers (s : Store) (key : Bytes) (m : Move) : Prop :=
  ∃ (now : Instant) (i : Nat) (v : Visit) (slot : Nat) (r : VisitResult), m = .step now i ∧
    s.visits[i]? = some v ∧ v.key = key ∧ v.phase = .checking slot r ∧ s.variants slot = [] ∧
    ∃ (j : Nat) (w : Visit) (r' : VisitResult), j ≠ i ∧ s.visits[j]? = some w ∧
      w.phase = .dropping slot r'

/-- It was so at the last check of the slot of the key. -/
def LingeredLast (t : List (Store × Move)) (key : Bytes) : Prop :=
  ∃ t₁ q t₂, t = t₁ ++ q :: t₂ ∧ Lingers q.1 key q.2 ∧ ∀ q' ∈ t₂, ¬ Checks q'.1 key q'.2

/-- A visit has got the slot of the key, and has not checked it yet. -/
def Occupied (s : Store) (key : Bytes) : Prop :=
  ∃ (i : Nat) (v : Visit) (slot : Nat), s.visits[i]? = some v ∧ v.key = key ∧
    v.phase.bound = some slot

section Record

variable {t : List (Store × Move)} {s : Store} {m : Move} {key : Bytes}

theorem Lingers.checks (h : Lingers s key m) : Checks s key m := by
  obtain ⟨now, i, v, slot, r, hm, hv, hkey, hp, -⟩ := h
  exact ⟨now, i, v, slot, r, hm, hv, hkey, hp⟩

/-- What stands in a record with one more move is the new move, or it stood there before. -/
theorem eq_or_of_append_singleton {α : Type} {l l₁ l₂ : List α} {a c : α}
    (h : l ++ [c] = l₁ ++ a :: l₂) :
    (a = c ∧ l₂ = []) ∨ ∃ l₃, l₂ = l₃ ++ [c] ∧ l = l₁ ++ a :: l₃ := by
  rcases List.eq_nil_or_concat l₂ with rfl | ⟨l₃, c', rfl⟩
  · have hlast := (List.append_inj' h rfl).2
    exact .inl ⟨(List.cons.inj hlast).1.symm, rfl⟩
  · rw [List.concat_eq_append, ← List.cons_append, ← List.append_assoc] at h
    obtain ⟨hinit, hlast⟩ := List.append_inj' h rfl
    exact .inr ⟨l₃, by rw [List.concat_eq_append, hlast], hinit⟩

theorem lingeredLast_append_of_checks (h : Checks s key m) :
    LingeredLast (t ++ [(s, m)]) key ↔ Lingers s key m := by
  constructor
  · rintro ⟨t₁, q, t₂, heq, hlingers, hlast⟩
    rcases eq_or_of_append_singleton heq with ⟨rfl, -⟩ | ⟨t₃, rfl, -⟩
    · exact hlingers
    · exact absurd h (hlast _ (List.mem_append_right _ (List.mem_singleton_self _)))
  · intro hlingers
    exact ⟨t, (s, m), [], rfl, hlingers, by simp⟩

theorem lingeredLast_append_of_not_checks (h : ¬ Checks s key m) :
    LingeredLast (t ++ [(s, m)]) key ↔ LingeredLast t key := by
  constructor
  · rintro ⟨t₁, q, t₂, heq, hlingers, hlast⟩
    rcases eq_or_of_append_singleton heq with ⟨rfl, -⟩ | ⟨t₃, rfl, rfl⟩
    · exact absurd hlingers.checks h
    · exact ⟨t₁, q, t₃, rfl, hlingers, fun q' hq' => hlast q' (List.mem_append_left _ hq')⟩
  · rintro ⟨t₁, q, t₂, rfl, hlingers, hlast⟩
    refine ⟨t₁, q, t₂ ++ [(s, m)], by simp, hlingers, fun q' hq' => ?_⟩
    obtain hq' | hq' := List.mem_append.1 hq'
    · exact hlast q' hq'
    · obtain rfl := List.mem_singleton.1 hq'
      exact h

end Record

theorem not_lingeredLast_nil (key : Bytes) : ¬ LingeredLast [] key := by
  rintro ⟨t₁, q, t₂, heq, -⟩
  simp at heq

/-! ## What a turn does to a slot -/

section Turn

variable {s s' b : Store} {i : Nat} {v : Visit} {m : Move} {p : Phase} {key : Bytes}

theorem Phase.bound_or_dropping {slot : Nat} (h : p.handle = some slot) :
    p.bound = some slot ∨ ∃ r, p = .dropping slot r := by
  cases p with
  | dropping slot' r =>
    obtain rfl : slot' = slot := Option.some.inj h
    exact .inr ⟨r, rfl⟩
  | _ => exact .inl h

/-- After a turn the visit is bound, or its task is gone, or it was not bound before and has not
touched anything, or it has checked its slot. -/
theorem Turn.bound_cases (ht : Turn s i v m p b) :
    (∃ slot, p.bound = some slot) ∨ m = .lose i ∨
      (b = s ∧ v.phase.bound = none) ∨
      ∃ now slot r, m = .step now i ∧ v.phase = .checking slot r ∧ p = .dropping slot r ∧
        b = s.afterCheck v.key slot := by
  cases ht with
  | takeMap h | drop h => exact .inr (.inr (.inl ⟨rfl, by rw [h]; rfl⟩))
  | @giveUp now slot r h hgives =>
    exact .inr (.inr (.inr ⟨now, slot, r, rfl, h, rfl, (if_pos hgives).symm⟩))
  | @keepSlot now slot r h hkeeps =>
    exact .inr (.inr (.inr ⟨now, slot, r, rfl, h, rfl, (if_neg (by simp [hkeeps])).symm⟩))
  | lose => exact .inr (.inl rfl)
  | _ => exact .inl ⟨_, rfl⟩

/-- A move of a visit that does not check the slot of the key does not check it. -/
theorem not_checks (ht : Turn s i v m p b) (hv : s.visits[i]? = some v)
    (hno : v.key = key → ∀ slot r, v.phase ≠ .checking slot r) : ¬ Checks s key m := by
  rintro ⟨now, j, w, slot, r, rfl, hw, hkey, hp⟩
  obtain rfl : j = i := by cases ht <;> rfl
  obtain rfl : v = w := Option.some.inj (hv.symm.trans hw)
  exact hno hkey slot r hp

/-- Another visit that is bound stays so. -/
theorem Occupied.turn (ho : s.Occupied key) (hv : s.visits[i]? = some v) (hg : Goes s i v p b s')
    (hother : v.key = key → v.phase.bound = none) : s'.Occupied key := by
  obtain ⟨j, w, slot, hw, hkey, hbound⟩ := ho
  have hj : j ≠ i := by
    rintro rfl
    obtain rfl : v = w := Option.some.inj (hv.symm.trans hw)
    simp [hother hkey] at hbound
  exact ⟨j, w, slot, by rw [hg.visit_ne hj, hw], hkey, hbound⟩

/-- If no other visit is bound to the key after a check, the slot is left behind just if it was
empty and a visit that had left the map still had a handle. -/
theorem leftBehind_of_check {now : Instant} {slot : Nat} {r : VisitResult} (hs : Sound s)
    (hv : s.visits[i]? = some v) (hp : v.phase = .checking slot r)
    (hg : Goes s i v (.dropping slot r) (s.afterCheck v.key slot) s')
    (hfree : ¬ s'.Occupied v.key) :
    s'.LeftBehind v.key ↔ Lingers s v.key (.step now i) := by
  have hslot : s.slotOf v.key = some slot := hs.bound i v slot hv (by rw [hp]; rfl)
  have hsame : s'.LeftBehind v.key ↔ (s.afterCheck v.key slot).LeftBehind v.key := by
    rw [LeftBehind, LeftBehind, hg.slotOf, hg.variantsOf]
  rw [hsame, hs.leftBehind_afterCheck hv hp]
  constructor
  · rintro ⟨hempty, j, w, hj, hw, hhandle⟩
    rcases Phase.bound_or_dropping hhandle with hbound | ⟨r', hdropping⟩
    · -- a visit that is bound to the slot is one of the key
      have hkey : w.key = v.key := hs.inj _ _ slot (hs.bound j w slot hw hbound) hslot
      exact absurd ⟨j, w, slot, by rw [hg.visit_ne hj, hw], hkey, hbound⟩ hfree
    · exact ⟨now, i, v, slot, r, rfl, hv, rfl, hp, hempty, j, w, r', hj, hw, hdropping⟩
  · rintro ⟨now', i', u, slot', r'', hm, hu, -, hp', hempty, j, w, r', hj, hw, hdropping⟩
    obtain ⟨rfl, rfl⟩ := Move.step.inj hm
    obtain rfl : v = u := Option.some.inj (hv.symm.trans hu)
    obtain ⟨rfl, rfl⟩ := Phase.checking.inj (hp.symm.trans hp')
    exact ⟨hempty, j, w, hj, hw, by rw [hdropping]; rfl⟩

end Turn

/-! ## Along a run -/

/-- **The last check tells.**  As long as no task is gone in the middle of its visit, a key that no
visit is bound to has an empty slot just if its slot was kept at the last check for a handle that
was about to be dropped. -/
theorem slot_explained {t : List (Store × Move)} {s : Store} (hrun : Run Store.move {} t s)
    (hkept : ∀ q ∈ t, q.2.loses = false) (key : Bytes) :
    s.Occupied key ∨ (s.LeftBehind key ↔ LingeredLast t key) := by
  induction hrun with
  | start =>
    refine .inr (iff_of_false ?_ (not_lingeredLast_nil key))
    rintro ⟨hsome, -⟩
    cases hsome
  | @next t s s' m hrun hm ih =>
    have hs : Sound s := Sound.of_run hrun sound_empty
    have hbefore := ih fun q hq => hkept q (List.mem_append_left _ hq)
    have hstays : m.loses = false := hkept (s, m) (List.mem_append_right _ (by simp))
    rcases move_cases hm with ⟨k, accepts, rfl, rfl⟩ | ⟨i, rfl, -⟩ | ⟨i, v, p, b, hv, ht, hg⟩
    · have hno : ¬ Checks s key (.begin k accepts) := by
        rintro ⟨_, _, _, _, _, hm, -⟩
        cases hm
      rw [lingeredLast_append_of_not_checks hno]
      refine hbefore.imp_left ?_
      rintro ⟨j, w, slot, hw, hkey, hbound⟩
      have hj : j < s.visits.length := (List.getElem?_eq_some_iff.1 hw).1
      exact ⟨j, w, slot, by rw [begin_visit_old hj, hw], hkey, hbound⟩
    · cases hstays
    · by_cases hkey : v.key = key
      · subst hkey
        rcases ht.bound_cases with ⟨slot, hbound⟩ | rfl | ⟨rfl, hunbound⟩ |
          ⟨now, slot, r, rfl, hp, rfl, rfl⟩
        · obtain ⟨since, hv'⟩ := hg.visit hv
          exact .inl ⟨i, _, slot, hv', rfl, hbound⟩
        · cases hstays
        · have hno : ¬ Checks b v.key m :=
            not_checks ht hv fun _ slot r hp => by simp [hp, Phase.bound, Phase.handle] at hunbound
          rw [lingeredLast_append_of_not_checks hno, LeftBehind, hg.slotOf, hg.variantsOf]
          exact hbefore.imp_left fun ho => ho.turn hv hg fun _ => hunbound
        · by_cases ho : s'.Occupied v.key
          · exact .inl ho
          · rw [lingeredLast_append_of_checks ⟨now, i, v, slot, r, rfl, hv, rfl, hp⟩]
            exact .inr (leftBehind_of_check hs hv hp hg ho)
      · -- a visit of another key
        have hno : ¬ Checks s key m := not_checks ht hv fun h => absurd h hkey
        rw [lingeredLast_append_of_not_checks hno, LeftBehind, hg.slotOf, hg.variantsOf,
          ht.slotOf_ne (Ne.symm hkey), ht.variantsOf_ne hs hv (Ne.symm hkey)]
        exact hbefore.imp_left fun ho => ho.turn hv hg fun h => absurd h hkey

/-- **When a slot is left behind.**  Let any number of visits have come to their ends, in any order
of their steps and with no task gone before.  A key has a slot just if there is something in it,
unless at the last check of the slot, when it was empty, another visit had left the map and not yet
dropped its handle. -/
theorem slot_kept_iff {t : List (Store × Move)} {s : Store} (hrun : Run Store.move {} t s)
    (hkept : ∀ q ∈ t, q.2.loses = false)
    (hover : ∀ (i : Nat) (v : Visit), s.visits[i]? = some v → v.phase.isOver = true) (key : Bytes) :
    ((s.slotOf key).isSome ↔ s.variantsOf key ≠ []) ↔ ¬ LingeredLast t key := by
  have hfree : ¬ s.Occupied key := by
    rintro ⟨i, v, slot, hv, -, hbound⟩
    have hend := hover i v hv
    cases hp : v.phase <;> simp [hp, Phase.isOver] at hend <;>
      simp [hp, Phase.bound, Phase.handle] at hbound
  rw [← (slot_explained hrun hkept key).resolve_left hfree, not_leftBehind_iff]

/-- Two visits of one key whose producers keep what is there, which is nothing.  The first has
checked the slot when the second comes to do so; `more` are the moves from there. -/
def leavingTogether (more : List Move) : List Move :=
  [.begin [] fun _ => true, .begin [] fun _ => true] ++ List.replicate 8 (.step ⟨0, 0⟩ 0) ++
    List.replicate 4 (.step ⟨0, 0⟩ 1) ++ [.finish 0 .keep] ++ List.replicate 4 (.step ⟨0, 0⟩ 1) ++
    [.finish 1 .keep] ++ List.replicate 2 (.step ⟨0, 0⟩ 0) ++ more

/-- If the first drops its handle and then the second checks the slot, the slot is given up.  If it
is the other way round, the slot is left behind. -/
theorem slot_kept_iff_leavingTogether :
    (∃ t s, Run Store.move {} t s ∧ ¬ LingeredLast t [] ∧ s.slotOf [] = none) ∧
      ∃ t s, Run Store.move {} t s ∧ LingeredLast t [] ∧ s.slotOf [] = some 0 := by
  constructor
  · let r := (follow Store.move {} (leavingTogether (.step ⟨0, 0⟩ 0 ::
      List.replicate 3 (.step ⟨0, 0⟩ 1)))).get rfl
    have hrun : Run Store.move {} r.1 r.2 := run_of_follow (Option.some_get _).symm
    have hkept : r.1.all fun q => !q.2.loses := rfl
    have hover : r.2.visits.all fun v => v.phase.isOver := rfl
    have hiff := slot_kept_iff hrun (by simpa using hkept)
      (fun i v hv => List.all_eq_true.1 hover v (List.mem_of_getElem? hv)) []
    exact ⟨r.1, r.2, hrun, hiff.1 (by decide), rfl⟩
  · let r := (follow Store.move {} (leavingTogether (List.replicate 3 (.step ⟨0, 0⟩ 1) ++
      [.step ⟨0, 0⟩ 0]))).get rfl
    have hrun : Run Store.move {} r.1 r.2 := run_of_follow (Option.some_get _).symm
    have hkept : r.1.all fun q => !q.2.loses := rfl
    have hover : r.2.visits.all fun v => v.phase.isOver := rfl
    have hiff := slot_kept_iff hrun (by simpa using hkept)
      (fun i v hv => List.all_eq_true.1 hover v (List.mem_of_getElem? hv)) []
    refine ⟨r.1, r.2, hrun, ?_, rfl⟩
    by_contra hno
    exact absurd (hiff.2 hno) (by decide)

/-- **An empty slot is left behind.**  Both visits have come to their ends, no task was gone before,
and the key has a slot with nothing in it. -/
theorem slot_left_behind :
    ∃ t s, Run Store.move {} t s ∧ (∀ q ∈ t, q.2.loses = false) ∧
      (∀ (i : Nat) (v : Visit), s.visits[i]? = some v → v.phase.isOver = true) ∧
      s.visits.length = 2 ∧ s.slotOf [] = some 0 ∧ s.variants 0 = [] := by
  let r := (follow Store.move {} (leavingTogether (List.replicate 3 (.step ⟨0, 0⟩ 1) ++
    [.step ⟨0, 0⟩ 0]))).get rfl
  have hrun : Run Store.move {} r.1 r.2 := run_of_follow (Option.some_get _).symm
  have hkept : r.1.all fun q => !q.2.loses := rfl
  have hover : r.2.visits.all fun v => v.phase.isOver := rfl
  exact ⟨r.1, r.2, hrun, by simpa using hkept,
    fun i v hv => List.all_eq_true.1 hover v (List.mem_of_getElem? hv), rfl, rfl, rfl⟩

end Store
end EdgeCache
