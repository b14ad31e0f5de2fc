import EdgeCache.Proofs.Store.Choices

/-!
# Replacements

A producer that is handed an entry may decide on another one, to be stored in its place.  A private
entry is handed out with the slot kept, so it is still there when the other is stored.  A public one
is handed out with no lock held, and by the time that the visit has the slot for itself the entry
may have been taken out, by a sweep or by a visit that had been handed it as well (`TakenOut`).
What is stored then takes the place of nothing.

`Store.replacement_length` says how many variants there are afterwards: as many as before exactly if
the entry has not been taken out.  The two directions are two invariants of a run.  What a visit
keeps in mind is stored as long as it has not been taken out (`stored_or_takenOut`), and what has
been taken out does not come back, since numbers are not given twice (`TakenOut.not_stored`).
-/

set_option autoImplicit false

namespace EdgeCache
namespace Store

/-- The entry was stored under the key, and one of these moves has taken it out. -/
def TakenOut (t : List (Store × Move)) (key : Bytes) (h : Held) : Prop :=
  ∃ q ∈ t, q.1.Stored key h ∧ Removes q.1 key h q.2

section Step

variable {s s' : Store} {i : Nat} {v : Visit} {m : Move} {key : Bytes} {h : Held}

/-! ## What is taken out is gone -/

/-- A sweep leaves what has not expired. -/
theorem variantsOf_of_sweeping {now : Instant} {slot : Nat} (hs : Sound s)
    (hv : s.visits[i]? = some v) (hp : v.phase = .sweeping slot) (hm : s.step now i = some s') :
    s'.variantsOf v.key = (s.variantsOf v.key).filter fun h => !h.entry.expired now := by
  obtain ⟨u, p, b, hu, ht, hg⟩ := step_cases hm
  obtain rfl : v = u := Option.some.inj (hv.symm.trans hu)
  have hslot : s.slotOf v.key = some slot := hs.bound i v slot hv (by rw [hp]; rfl)
  have hb : b = s.setVariants slot ((s.variants slot).filter fun h => !h.entry.expired now) := by
    cases ht with
    | sweepHit hp' | sweepMiss hp' =>
      obtain rfl : slot = _ := Phase.sweeping.inj (hp.symm.trans hp')
      rfl
    | _ => simp_all
  rw [hg.variantsOf, hb, variantsOf_setVariants hs hslot, if_pos rfl, variantsOf_eq hslot]

theorem Removes.not_stored (hr : Removes s key h m) (hs : Sound s) (hn : s.Numbered)
    (hst : s.Stored key h) (hm : s.move m = some s') : ¬ s'.Stored key h := by
  rw [stored_iff]
  cases hr with
  | expired hv hkey hp he =>
    subst hkey
    rw [variantsOf_of_sweeping hs hv hp hm]
    simp [he]
  | replaced hv hkey hstores =>
    subst hkey
    rw [hstores.variantsOf hs hv hm, List.mem_append, List.mem_singleton]
    rintro (hmem | rfl)
    · simpa using (List.mem_filter.1 hmem).2
    · exact absurd (hn.lt _ hst.knows) (Nat.lt_irrefl _)

theorem nextId_le_of_move (hm : s.move m = some s') : s.nextId ≤ s'.nextId := by
  rcases move_cases hm with ⟨key, accepts, -, rfl⟩ | ⟨-, -, rfl⟩ | ⟨i, v, p, b, hv, ht, hg⟩
  · exact Nat.le_refl _
  · exact Nat.le_refl _
  · rw [hg.nextId]
    exact ht.nextId_le

/-- What is stored after a move was so before, or it has the number that was the next. -/
theorem stored_cases (hs : Sound s) (hm : s.move m = some s') (hst : s'.Stored key h) :
    s.Stored key h ∨ h.id = s.nextId := by
  rcases move_cases hm with ⟨key', accepts, -, rfl⟩ | ⟨-, -, rfl⟩ | ⟨i, v, p, b, hv, ht, hg⟩
  · exact .inl hst
  · exact .inl hst
  · rw [stored_iff, hg.variantsOf] at hst
    rw [stored_iff]
    rcases ht.variantsOf_cases hs hv key with hb | ⟨_, _, _, _, _, hb⟩ | ⟨previous, e, _, _, hb⟩
    · exact .inl (hb ▸ hst)
    · rw [hb] at hst
      exact .inl (List.mem_filter.1 hst).1
    · rw [hb, List.mem_append, List.mem_singleton] at hst
      rcases hst with hst | rfl
      · exact .inl (mem_of_mem_kept hst)
      · exact .inr rfl

end Step

section Run

variable {t : List (Store × Move)} {s s' : Store} {i : Nat} {v : Visit} {m : Move} {key : Bytes}
  {h : Held}

theorem TakenOut.append (ht : TakenOut t key h) (t' : List (Store × Move)) :
    TakenOut (t ++ t') key h := by
  obtain ⟨q, hq, hout⟩ := ht
  exact ⟨q, List.mem_append_left _ hq, hout⟩

/-- **What has been taken out does not come back.** -/
theorem TakenOut.not_stored (hrun : Run Store.move {} t s) (ht : TakenOut t key h) :
    ¬ s.Stored key h := by
  obtain ⟨q, hq, hst, hr⟩ := ht
  have hall : ¬ s.Stored key h ∧ h.id < s.nextId := by
    refine hrun.since (P := fun _ s => ¬ s.Stored key h ∧ h.id < s.nextId) hq ?_ ?_
    · intro t₁ s₂ hrun₁ hm
      have hn : q.1.Numbered := Numbered.of_run hrun₁ numbered_empty
      exact ⟨hr.not_stored (Sound.of_run hrun₁ sound_empty) hn hst hm,
        Nat.lt_of_lt_of_le (hn.lt h hst.knows) (nextId_le_of_move hm)⟩
    · rintro t₁ s₂ a s₃ hrun₂ - ⟨hno, hlt⟩ hm
      refine ⟨fun hst' => ?_, Nat.lt_of_lt_of_le hlt (nextId_le_of_move hm)⟩
      rcases stored_cases (Sound.of_run hrun₂ sound_empty) hm hst' with hst' | hid
      · exact hno hst'
      · omega
  exact hall.1

/-! ## What a visit keeps in mind -/

/-- A stored entry is stored after a move as well, or the move has taken it out. -/
theorem stored_or_takenOut_next (hs : Sound s) (hn : s.Numbered) (hst : s.Stored key h)
    (hm : s.move m = some s') : s'.Stored key h ∨ TakenOut (t ++ [(s, m)]) key h := by
  by_cases hr : Removes s key h m
  · exact .inr ⟨(s, m), List.mem_append_right _ (List.mem_singleton_self _), hst, hr⟩
  · exact .inl (hst.move hs hn hm hr)

/-- **What a visit keeps in mind is stored, or it has been taken out.** -/
theorem stored_or_takenOut (hrun : Run Store.move {} t s) (hv : s.visits[i]? = some v)
    (hh : v.phase.held = some h) : s.Stored v.key h ∨ TakenOut t v.key h := by
  induction hrun generalizing i v h with
  | start => simp at hv
  | @next t s s' m hrun hm ih =>
    have hs : Sound s := Sound.of_run hrun sound_empty
    have hn : s.Numbered := Numbered.of_run hrun numbered_empty
    -- what was stored or taken out is so after the move
    have hnext : ∀ {key h}, s.Stored key h ∨ TakenOut t key h →
        s'.Stored key h ∨ TakenOut (t ++ [(s, m)]) key h := by
      rintro key h (hst | hout)
      · exact stored_or_takenOut_next hs hn hst hm
      · exact .inr (hout.append _)
    rcases move_cases hm with ⟨key, accepts, -, rfl⟩ | ⟨-, -, rfl⟩ | ⟨j, u, p, b, hu, ht, hg⟩
    · rcases visit_begin_cases hv with hv | ⟨-, -, hp⟩
      · exact hnext (ih hv hh)
      · simp [hp, Phase.held] at hh
    · exact hnext (ih hv hh)
    · rcases hg.visit_cases hu hv with ⟨-, hkey, -, hp⟩ | ⟨-, hv⟩
      · rw [hkey]
        rcases ht.held_cases (hp ▸ hh) with hh | ⟨slot, hbound, hmem⟩
        · exact hnext (ih hu hh)
        · exact hnext (.inl ⟨slot, hs.bound j u slot hu hbound, hmem⟩)
      · exact hnext (ih hv hh)

/-- What a producer is handed while the slot is kept stays stored. -/
theorem stored_of_producing (hrun : Run Store.move {} t s) {slot : Nat}
    (hv : s.visits[i]? = some v) (hp : v.phase = .producing slot (some h)) : s.Stored v.key h := by
  induction hrun generalizing i v slot h with
  | start => simp at hv
  | @next t s s' m hrun hm ih =>
    have hs : Sound s := Sound.of_run hrun sound_empty
    rw [stored_iff]
    rcases move_cases hm with ⟨key, accepts, -, rfl⟩ | ⟨-, -, rfl⟩ | ⟨j, u, p, b, hu, ht, hg⟩
    · rcases visit_begin_cases hv with hv | ⟨-, -, hp'⟩
      · exact stored_iff.1 (ih hv hp)
      · simp [hp'] at hp
    · exact stored_iff.1 (ih hv hp)
    · rw [hg.variantsOf]
      rcases hg.visit_cases hu hv with ⟨-, hkey, -, hp'⟩ | ⟨hij, hv⟩
      · -- the visit has just swept the slot, and found the entry among what is left
        rw [hp'] at hp
        subst hp
        rw [hkey]
        cases ht with
        | @sweepMiss now slot previous hsweeping hfind =>
          have hslot : s.slotOf u.key = some slot :=
            hs.bound j u slot hu (by rw [hsweeping]; rfl)
          rw [variantsOf_setVariants hs hslot, if_pos rfl]
          exact List.mem_of_find?_eq_some hfind
      · have hwriting : v.phase.writing slot = true := by simp [hp, Phase.writing]
        rw [ht.variantsOf_of_writing hs hu hv hwriting hij]
        exact stored_iff.1 (ih hv hp)

/-- An entry that has been taken out, though it is kept in mind to be replaced, is public. -/
theorem TakenOut.isPublic (hrun : Run Store.move {} t s) (hv : s.visits[i]? = some v) {e : Entry}
    (hst : Stores i v (some h) e m) (ht : TakenOut t v.key h) : h.entry.isPublic = true := by
  cases hst with
  | producing hp => exact absurd (stored_of_producing hrun hv hp) (ht.not_stored hrun)
  | swapping hp hheld =>
    have hoffers := Offering.of_run hrun (by simp [Offering]) i v hv
    obtain rfl := Option.some.inj hheld
    rw [hp] at hoffers
    exact hoffers.1

/-! ## How many there are -/

theorem length_kept {l : List Held} (hdistinct : l.Pairwise fun g h => g.id ≠ h.id) (hmem : h ∈ l) :
    (kept (some h) l).length + 1 = l.length := by
  have hnodup : l.Nodup := hdistinct.imp fun hne heq => hne (congrArg Held.id heq)
  have hkept : kept (some h) l = l.erase h := by
    rw [kept_eq_filter hdistinct (by simpa using hmem), hnodup.erase_eq_filter]
    exact List.filter_congr fun g _ => by simp [bne, beq_eq_decide]
  rw [hkept, List.length_erase_add_one hmem]

theorem kept_of_notMem (hn : s.Numbered) (hh : s.Knows h) (hmem : h ∉ s.variantsOf key) :
    kept (some h) (s.variantsOf key) = s.variantsOf key := by
  refine List.filter_eq_self.2 fun g hg => ?_
  by_cases hid : g.id = h.id
  · obtain rfl : g = h := hn.inj g h (knows_of_mem hg) hh hid
    exact absurd hg hmem
  · simpa using hid

/-- **How many variants there are after a replacement.**  Let a visit, in any run, store an entry in
place of one that its producer was handed.  If that one has not been taken out, there are as many
variants as before.  If it has been, there is one more; and then it is a public one, which was
handed out with no lock held. -/
theorem replacement_length {e : Entry} (hrun : Run Store.move {} t s) (hv : s.visits[i]? = some v)
    (hst : Stores i v (some h) e m) (hm : s.move m = some s') :
    (¬ TakenOut t v.key h →
        (s'.variantsOf v.key).length = (s.variantsOf v.key).length) ∧
      (TakenOut t v.key h →
        (s'.variantsOf v.key).length = (s.variantsOf v.key).length + 1 ∧
          h.entry.isPublic = true) := by
  have hs : Sound s := Sound.of_run hrun sound_empty
  have hn : s.Numbered := Numbered.of_run hrun numbered_empty
  have hd : s.Distinct := Distinct.of_run hrun sound_empty numbered_empty distinct_empty
  rw [hst.variantsOf hs hv hm, List.length_append, List.length_singleton]
  constructor
  · intro hno
    have hmem : h ∈ s.variantsOf v.key :=
      stored_iff.1 ((stored_or_takenOut hrun hv hst.held).resolve_right hno)
    exact length_kept (hd v.key) hmem
  · intro hout
    have hmem : h ∉ s.variantsOf v.key := fun hmem => hout.not_stored hrun (stored_iff.2 hmem)
    rw [kept_of_notMem hn (.inr ⟨i, v, hv, hst.held⟩) hmem]
    exact ⟨rfl, hout.isPublic hrun hv hst⟩

end Run

/-- Two visits of one key are handed the entry that a first one has stored, and decide to replace
it.  The first of the two has the slot for itself; `more` are the moves from there. -/
def racing (more : List Move) : List Move :=
  storing 0 [] (plainEntry true 9) ++ [.begin [] fun _ => true, .begin [] fun _ => true] ++
    List.replicate 6 (.step ⟨0, 0⟩ 1) ++ List.replicate 6 (.step ⟨0, 0⟩ 2) ++
    [.finish 1 (.replace (plainEntry true 10)), .finish 2 (.replace (plainEntry true 11)),
      .step ⟨0, 0⟩ 1] ++ more

/-- What the first of them stores takes the place of the entry, and what the second stores does not:
the entry has been taken out by then. -/
theorem replacement_length_racing :
    (∃ t s s', Run Store.move {} t s ∧ ¬ TakenOut t [] ⟨0, plainEntry true 9⟩ ∧
      s.move (.step ⟨0, 0⟩ 1) = some s' ∧ (s'.variantsOf []).length = (s.variantsOf []).length) ∧
    ∃ t s s', Run Store.move {} t s ∧ TakenOut t [] ⟨0, plainEntry true 9⟩ ∧
      s.move (.step ⟨0, 0⟩ 2) = some s' ∧
        (s'.variantsOf []).length = (s.variantsOf []).length + 1 := by
  constructor
  · let r := (follow Store.move {} (racing [])).get rfl
    have hrun : Run Store.move {} r.1 r.2 := run_of_follow (Option.some_get _).symm
    let s' := (r.2.move (.step ⟨0, 0⟩ 1)).get rfl
    have hm : r.2.move (.step ⟨0, 0⟩ 1) = some s' := (Option.some_get _).symm
    obtain ⟨hsame, hmore⟩ := replacement_length hrun (i := 1) (h := ⟨0, plainEntry true 9⟩) rfl
      (.swapping rfl rfl) hm
    have hkept : ¬ TakenOut r.1 [] ⟨0, plainEntry true 9⟩ := fun hout =>
      absurd (hmore hout).1 (by decide)
    exact ⟨r.1, r.2, s', hrun, hkept, hm, hsame hkept⟩
  · let r := (follow Store.move {} (racing [.step ⟨0, 0⟩ 1, .step ⟨0, 0⟩ 2])).get rfl
    have hrun : Run Store.move {} r.1 r.2 := run_of_follow (Option.some_get _).symm
    let s' := (r.2.move (.step ⟨0, 0⟩ 2)).get rfl
    have hm : r.2.move (.step ⟨0, 0⟩ 2) = some s' := (Option.some_get _).symm
    obtain ⟨hsame, hmore⟩ := replacement_length hrun (i := 2) (h := ⟨0, plainEntry true 9⟩) rfl
      (.swapping rfl rfl) hm
    have hout : TakenOut r.1 [] ⟨0, plainEntry true 9⟩ := by
      by_contra hkept
      exact absurd (hsame hkept) (by decide)
    exact ⟨r.1, r.2, s', hrun, hout, hm, (hmore hout).1⟩

/-- **Two replacements of one entry, side by side.**  Both visits have been handed the same entry,
and decided to replace it; the second to store its own adds one to the variants. -/
theorem replacement_beside :
    ∃ t s s', Run Store.move {} t s ∧
      (∃ q ∈ t, ∃ v, q.1.visits[1]? = some v ∧ v.key = [] ∧
        Stores 1 v (some ⟨0, plainEntry true 9⟩) (plainEntry true 10) q.2) ∧
      (∃ v, s.visits[2]? = some v ∧ v.key = [] ∧
        Stores 2 v (some ⟨0, plainEntry true 9⟩) (plainEntry true 11) (.step ⟨0, 0⟩ 2)) ∧
      s.move (.step ⟨0, 0⟩ 2) = some s' ∧
      s.variantsOf [] = [⟨1, plainEntry true 10⟩] ∧
      s'.variantsOf [] = [⟨1, plainEntry true 10⟩, ⟨2, plainEntry true 11⟩] := by
  let r := (follow Store.move {} (racing [.step ⟨0, 0⟩ 1, .step ⟨0, 0⟩ 2])).get rfl
  have hrun : Run Store.move {} r.1 r.2 := run_of_follow (Option.some_get _).symm
  have hfirst : r.1[30]? = some ((r.1[30]?).get rfl) := (Option.some_get _).symm
  exact ⟨r.1, r.2, _, hrun,
    ⟨_, List.mem_of_getElem? hfirst, _, rfl, rfl, .swapping rfl rfl⟩,
    ⟨_, rfl, rfl, .swapping rfl rfl⟩, (Option.some_get rfl).symm, rfl, rfl⟩

end Store
end EdgeCache
