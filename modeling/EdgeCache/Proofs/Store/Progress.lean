import EdgeCache.Proofs.Store.Locks

/-!
# Visits come to an end

No visit waits in vain: as long as one is not over, some visit can take a step, or it is waiting for
a producer that runs (`progress`).  The reason is the order in which those that wait are let in:
what a visit that is not at work waits for is free, or somebody at work has it; and if it is free,
then the first of those who want it gets it.

And no visit goes on for ever: every step brings it nearer to its end (`Turn.toGo_lt`).
-/

set_option autoImplicit false

namespace EdgeCache
namespace Store

namespace Phase

/-- The visit takes no more steps. -/
def isOver : Phase → Bool
  | .ended _ | .lost => true
  | _ => false

/-- How many steps the visit still takes, the producer's decision counted as one. -/
def toGo : Phase → Nat
  | .arriving => 16
  | .finding => 15
  | .found _ => 14
  | .entering _ => 13
  | .queueing _ _ => 12
  | .scanning _ _ => 11
  | .claiming _ => 10
  | .sweeping _ => 9
  | .producing _ _ | .reusing _ _ => 8
  | .returning _ _ _ => 7
  | .swapping _ _ _ => 6
  | .leaving _ _ => 5
  | .checking _ _ => 4
  | .dropping _ _ => 3
  | .ended _ => 2
  | .lost => 1

end Phase

/-! ## Every step counts -/

/-- **A step brings a visit nearer to its end.** -/
theorem Turn.toGo_lt {s b : Store} {i : Nat} {v : Visit} {now : Instant} {p : Phase}
    (ht : Turn s i v (.step now i) p b) : p.toGo < v.phase.toGo := by
  cases ht with
  | takeMap h | find h | leaveMap h | readClock h | takeRead h | scanHit h | scanMiss h | takeSlot h
  | sweepHit h | sweepMiss h | takeBack h | swap h | takeMapAgain h | giveUp h | keepSlot h
  | drop h => simp [h, Phase.toGo]

/-- So does the decision of its producer. -/
theorem Turn.toGo_lt_of_finish {s b : Store} {i : Nat} {v : Visit} {outcome : Outcome} {p : Phase}
    (ht : Turn s i v (.finish i outcome) p b) : p.toGo < v.phase.toGo := by
  cases ht with
  | store h | giveBack h => simp [h, Phase.toGo]
  | decline h _ => rcases h with ⟨_, h⟩ | ⟨_, h⟩ <;> simp [h, Phase.toGo]

/-- What has come to its end takes no more steps. -/
theorem busy_of_step {s s' : Store} {i : Nat} {v : Visit} {now : Instant}
    (hv : s.visits[i]? = some v) (h : s.step now i = some s') : v.phase.isOver = false := by
  rw [step] at h
  rw [hv] at h
  cases hp : v.phase with
  | ended | lost => simp [hp] at h
  | _ => rfl

/-! ## Who can take a step -/

section Steps

variable {s : Store} {now : Instant} {i slot : Nat} {v : Visit}

/-- What holds of some visit holds of one that began to wait before all others of which it holds. -/
theorem exists_first (wants : Phase → Bool) (hv : s.visits[i]? = some v)
    (hw : wants v.phase = true) :
    ∃ (j : Nat) (u : Visit), s.visits[j]? = some u ∧ wants u.phase = true ∧
      s.isFirst wants u.since = true := by
  let places := (s.visits.filter fun u => wants u.phase).map (·.since)
  have hmem : v.since ∈ places :=
    List.mem_map_of_mem (List.mem_filter.2 ⟨List.mem_of_getElem? hv, hw⟩)
  obtain ⟨least, hleast⟩ : ∃ least, places.min? = some least := by
    cases hmin : places.min? with
    | none => simp [List.min?_eq_none_iff.1 hmin] at hmem
    | some least => exact ⟨least, rfl⟩
  obtain ⟨hmem', hle⟩ := List.min?_eq_some_iff.1 hleast
  obtain ⟨u, hu, rfl⟩ := List.mem_map.1 hmem'
  obtain ⟨huv, huw⟩ := List.mem_filter.1 hu
  obtain ⟨j, hj⟩ := List.getElem?_of_mem huv
  refine ⟨j, u, hj, huw, ?_⟩
  simp only [isFirst, List.all_eq_true, Bool.or_eq_true, Bool.not_eq_true', decide_eq_true_eq]
  intro z hz
  cases hzw : wants z.phase with
  | false => exact .inl rfl
  | true => exact .inr (hle _ (List.mem_map_of_mem (List.mem_filter.2 ⟨hz, hzw⟩)))

theorem isFirst_mono {wants wants' : Phase → Bool} {place : Nat} (h : s.isFirst wants place = true)
    (hw : ∀ p, wants' p = true → wants p = true) : s.isFirst wants' place = true := by
  simp only [isFirst, List.all_eq_true, Bool.or_eq_true, Bool.not_eq_true',
    decide_eq_true_eq] at h ⊢
  intro z hz
  rcases h z hz with hno | hle
  · refine .inl ?_
    cases hzw : wants' z.phase with
    | false => rfl
    | true => simp [hw _ hzw] at hno
  · exact .inr hle

/-- The visit waits for nothing but its producer. -/
def Phase.atWork : Phase → Bool
  | .finding | .found _ | .entering _ | .scanning _ _ | .sweeping _ | .swapping _ _ _
  | .checking _ _ | .dropping _ _ => true
  | _ => false

theorem step_of_atWork (hv : s.visits[i]? = some v) (h : v.phase.atWork = true) :
    ∃ s', s.step now i = some s' := by
  rw [step]
  rw [hv]
  cases hp : v.phase with
  | scanning slot read =>
    simp only [hp]
    split <;> exact ⟨_, rfl⟩
  | sweeping slot =>
    simp only [hp]
    split
    · split <;> exact ⟨_, rfl⟩
    · exact ⟨_, rfl⟩
  | finding | found | entering | swapping | checking | dropping =>
    simp only [hp]
    exact ⟨_, rfl⟩
  | _ => simp [hp, Phase.atWork] at h

theorem step_of_mapOpens (hv : s.visits[i]? = some v) (hw : v.phase.wantsMap = true)
    (h : s.mapOpens v.since = true) : ∃ s', s.step now i = some s' := by
  rw [step]
  rw [hv]
  cases hp : v.phase with
  | arriving | leaving =>
    simp only [hp, h, if_true]
    exact ⟨_, rfl⟩
  | _ => simp [hp, Phase.wantsMap] at hw

theorem step_of_readOpens (hv : s.visits[i]? = some v) (hw : v.phase.wantsRead slot = true)
    (h : s.readOpens slot v.since = true) : ∃ s', s.step now i = some s' := by
  rw [step]
  rw [hv]
  cases hp : v.phase with
  | queueing slot' read =>
    obtain rfl : slot' = slot := by simpa [hp, Phase.wantsRead] using hw
    simp only [hp, h, if_true]
    exact ⟨_, rfl⟩
  | _ => simp [hp, Phase.wantsRead] at hw

theorem step_of_writeOpens (hv : s.visits[i]? = some v) (hw : v.phase.wantsWrite slot = true)
    (h : s.writeOpens slot v.since = true) : ∃ s', s.step now i = some s' := by
  rw [step]
  rw [hv]
  cases hp : v.phase with
  | claiming slot' =>
    obtain rfl : slot' = slot := by simpa [hp, Phase.wantsWrite] using hw
    simp only [hp, h, if_true]
    exact ⟨_, rfl⟩
  | returning slot' held e =>
    obtain rfl : slot' = slot := by simpa [hp, Phase.wantsWrite] using hw
    simp only [hp, h, if_true]
    exact ⟨_, rfl⟩
  | _ => simp [hp, Phase.wantsWrite] at hw

/-- A producer that runs can decide. -/
theorem finish_isSome {s : Store} {i : Nat} {previous : Option Held} (outcome : Outcome)
    (h : s.handed i = some previous) : ∃ s', s.finish i outcome = some s' := by
  obtain ⟨v, hv, hp⟩ := Option.bind_eq_some_iff.1 h
  rw [finish]
  rw [hv]
  cases hph : v.phase with
  | producing slot previous' => cases outcome <;> simp [hph]
  | reusing slot held => cases outcome <;> simp [hph]
  | _ => simp [hph, Phase.handed] at hp

/-- If the map is wanted, somebody can take a step. -/
theorem step_of_wantsMap (hv : s.visits[i]? = some v) (hw : v.phase.wantsMap = true) :
    ∃ (j : Nat) (s' : Store), s.step now j = some s' := by
  cases htaken : s.mapTaken with
  | true =>
    obtain ⟨u, hu, hum⟩ := List.any_eq_true.1 htaken
    obtain ⟨j, hj⟩ := List.getElem?_of_mem hu
    refine ⟨j, step_of_atWork hj ?_⟩
    cases hp : u.phase <;> simp [hp, Phase.atMap] at hum <;> rfl
  | false =>
    obtain ⟨j, u, hj, hu, hfirst⟩ := exists_first Phase.wantsMap hv hw
    exact ⟨j, step_of_mapOpens hj hu (by rw [mapOpens, htaken, hfirst]; rfl)⟩

/-- If a slot is wanted, somebody can take a step, or a producer runs that has it. -/
theorem step_of_wantsSlot (hv : s.visits[i]? = some v)
    (hw : (v.phase.wantsRead slot || v.phase.wantsWrite slot) = true) :
    (∃ (j : Nat) (s' : Store), s.step now j = some s') ∨
      ∃ (j : Nat) (u : Visit) (previous : Option Held), s.visits[j]? = some u ∧
        u.phase = .producing slot previous := by
  cases htaken : s.slotTaken slot with
  | true =>
    obtain ⟨u, hu, huw⟩ := List.any_eq_true.1 htaken
    obtain ⟨j, hj⟩ := List.getElem?_of_mem hu
    cases hp : u.phase with
    | producing slot' previous =>
      obtain rfl : slot' = slot := by simpa [hp, Phase.writing] using huw
      exact .inr ⟨j, u, previous, hj, hp⟩
    | sweeping | swapping => exact .inl ⟨j, step_of_atWork hj (by rw [hp]; rfl)⟩
    | _ => simp [hp, Phase.writing] at huw
  | false =>
    refine .inl ?_
    cases hread : s.slotRead slot with
    | true =>
      obtain ⟨u, hu, hur⟩ := List.any_eq_true.1 hread
      obtain ⟨j, hj⟩ := List.getElem?_of_mem hu
      cases hp : u.phase with
      | scanning => exact ⟨j, step_of_atWork hj (by rw [hp]; rfl)⟩
      | _ => simp [hp, Phase.reading] at hur
    | false =>
      obtain ⟨j, u, hj, hu, hfirst⟩ :=
        exists_first (fun p => p.wantsRead slot || p.wantsWrite slot) hv hw
      cases huw : u.phase.wantsWrite slot with
      | true =>
        exact ⟨j, step_of_writeOpens hj huw (by rw [writeOpens, htaken, hread, hfirst]; rfl)⟩
      | false =>
        have hur : u.phase.wantsRead slot = true := by simpa [huw] using hu
        have hfirst' : s.isFirst (Phase.wantsWrite slot) u.since = true :=
          isFirst_mono hfirst fun p hp => by simp [hp]
        exact ⟨j, step_of_readOpens hj hur (by rw [readOpens, htaken, hfirst']; rfl)⟩

/-- **No visit waits in vain.**  While a visit is not over, some visit can take a step, or a
producer runs: the visit's own, or one that has the visit's slot for itself. -/
theorem progress (now : Instant) (hv : s.visits[i]? = some v) (hbusy : v.phase.isOver = false) :
    (∃ (j : Nat) (s' : Store), s.step now j = some s') ∨
      ∃ (j : Nat) (u : Visit) (previous : Option Held), s.visits[j]? = some u ∧
        u.phase.handed = some previous ∧
        (j = i ∨ ∃ slot, v.phase.bound = some slot ∧ u.phase.writing slot = true) := by
  have hslot : ∀ slot, (v.phase.wantsRead slot || v.phase.wantsWrite slot) = true →
      v.phase.bound = some slot → (∃ (j : Nat) (s' : Store), s.step now j = some s') ∨
      ∃ (j : Nat) (u : Visit) (previous : Option Held), s.visits[j]? = some u ∧
        u.phase.handed = some previous ∧
        (j = i ∨ ∃ slot, v.phase.bound = some slot ∧ u.phase.writing slot = true) := by
    intro slot hw hbound
    refine (step_of_wantsSlot hv hw).imp_right ?_
    rintro ⟨j, u, previous, hu, hp⟩
    exact ⟨j, u, previous, hu, by rw [hp]; rfl, .inr ⟨slot, hbound, by simp [hp, Phase.writing]⟩⟩
  cases hp : v.phase with
  | arriving | leaving => exact .inl (step_of_wantsMap hv (by rw [hp]; rfl))
  | queueing slot read =>
    exact hp ▸ hslot slot (by simp [hp, Phase.wantsRead]) (by rw [hp]; rfl)
  | claiming slot => exact hp ▸ hslot slot (by simp [hp, Phase.wantsWrite]) (by rw [hp]; rfl)
  | returning slot held e =>
    exact hp ▸ hslot slot (by simp [hp, Phase.wantsWrite]) (by rw [hp]; rfl)
  | producing slot previous => exact .inr ⟨i, v, previous, hv, by rw [hp]; rfl, .inl rfl⟩
  | reusing slot held => exact .inr ⟨i, v, some held, hv, by rw [hp]; rfl, .inl rfl⟩
  | ended | lost => simp [hp, Phase.isOver] at hbusy
  | _ => exact .inl ⟨i, step_of_atWork hv (by rw [hp]; rfl)⟩

end Steps

end Store
end EdgeCache
