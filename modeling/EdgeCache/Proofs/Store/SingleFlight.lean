import EdgeCache.Proofs.Store.Contents

/-!
# One producer per key, and no entry is lost

Two facts about every interleaving of any number of visits, both read off `Sound`.

* **Single flight**: of the visits of one key at most one runs a producer that may build a new entry
  (`Builds`).  Such a visit has the slot of the key for itself, and the slot is the same for all.
* **No entry is lost**: what is stored under a key (`Stored`) stays there through every move that
  does not itself take it out (`Removes`), that is, find it expired or store another entry in its
  place.  Giving up a slot is not among these: a slot that is given up holds nothing and nobody else
  has a handle of it.
-/

set_option autoImplicit false

namespace EdgeCache
namespace Store

/-- The producer of a visit of the key runs and may build a new entry: it was handed nothing, or a
private entry. -/
def Builds (s : Store) (key : Bytes) (i : Nat) : Prop :=
  ∃ v previous, s.visits[i]? = some v ∧ v.key = key ∧ v.phase.handed = some previous ∧
    ∀ h, previous = some h → h.entry.isPublic = false

/-- The entry is in the key's slot. -/
def Stored (s : Store) (key : Bytes) (h : Held) : Prop :=
  ∃ slot, s.slotOf key = some slot ∧ h ∈ s.variants slot

/-- By a move an entry leaves its key: a visit that has the slot for itself finds it expired, or
stores another entry in its place. -/
inductive Removes (s : Store) (key : Bytes) (h : Held) : Move → Prop
  | expired {now : Instant} {i slot : Nat} {v : Visit} (hv : s.visits[i]? = some v)
      (hkey : v.key = key) (hp : v.phase = .sweeping slot) (he : h.entry.expired now = true) :
      Removes s key h (.step now i)
  | replaced {i : Nat} {v : Visit} {e : Entry} {m : Move} (hv : s.visits[i]? = some v)
      (hkey : v.key = key) (hst : Stores i v (some h) e m) : Removes s key h m

/-! ## One producer per key -/

/-- A producer that may build a new entry runs with the slot of its key kept. -/
theorem Builds.writing {s : Store} {key : Bytes} {i : Nat} (hs : Sound s) (ho : s.Offering)
    (h : s.Builds key i) :
    ∃ v slot, s.visits[i]? = some v ∧ v.phase.writing slot = true ∧ s.slotOf key = some slot := by
  obtain ⟨v, previous, hv, rfl, hhanded, hprivate⟩ := h
  cases hp : v.phase with
  | producing slot previous' =>
    have hw : v.phase.writing slot = true := by simp [hp, Phase.writing]
    exact ⟨v, slot, hv, hw, hs.bound i v slot hv (Phase.bound_of_writing hw)⟩
  | reusing slot held =>
    -- what is reused is public
    have hpublic := (hp ▸ ho i v hv : Phase.Offers v.accepts (.reusing slot held)).1
    rw [hp, Phase.handed, Option.some.injEq] at hhanded
    rw [hprivate held hhanded.symm] at hpublic
    exact absurd hpublic (by simp)
  | _ => simp [hp, Phase.handed] at hhanded

theorem Builds.unique {s : Store} {key : Bytes} {i j : Nat} (hs : Sound s) (ho : s.Offering)
    (hi : s.Builds key i) (hj : s.Builds key j) : i = j := by
  obtain ⟨v, slot, hv, hvw, hvs⟩ := hi.writing hs ho
  obtain ⟨w, slot', hw, hww, hws⟩ := hj.writing hs ho
  obtain rfl : slot = slot' := Option.some.inj (hvs.symm.trans hws)
  exact hs.lock i j v w slot hv hw hvw (.inl hww)

/-! ## No entry is lost -/

theorem stored_iff {s : Store} {key : Bytes} {h : Held} :
    s.Stored key h ↔ h ∈ s.variantsOf key := by
  constructor
  · rintro ⟨slot, hslot, hmem⟩
    rwa [variantsOf_eq hslot]
  · intro hmem
    cases hslot : s.slotOf key with
    | none => simp [variantsOf_eq_nil hslot] at hmem
    | some slot => exact ⟨slot, hslot, by rwa [variantsOf_eq hslot] at hmem⟩

theorem Stored.knows {s : Store} {key : Bytes} {h : Held} (hst : s.Stored key h) : s.Knows h :=
  knows_of_mem (stored_iff.1 hst)

/-- A visit that stores an entry has a slot for itself, and puts the entry into that one. -/
theorem Stores.turn {s s' : Store} {i : Nat} {v : Visit} {previous : Option Held} {e : Entry}
    {m : Move} (hv : s.visits[i]? = some v) (hst : Stores i v previous e m)
    (h : s.move m = some s') :
    ∃ slot, v.phase.writing slot = true ∧ s'.map = s.map ∧
      s'.slots = (s.replaceIn slot previous e).slots := by
  cases hst with
  | @producing slot hp =>
    simp only [move, finish, hv, hp, Option.some.injEq] at h
    subst h
    exact ⟨slot, by simp [hp, Phase.writing], rfl, rfl⟩
  | @swapping now slot held hp hprev =>
    subst hprev
    simp only [move, step, hv, hp, Option.some.injEq] at h
    subst h
    exact ⟨slot, by simp [hp, Phase.writing], rfl, rfl⟩

/-- What there is under the key when a visit has stored an entry. -/
theorem Stores.variantsOf {s s' : Store} {i : Nat} {v : Visit} {previous : Option Held} {e : Entry}
    {m : Move} (hs : Sound s) (hv : s.visits[i]? = some v) (hst : Stores i v previous e m)
    (h : s.move m = some s') :
    s'.variantsOf v.key = kept previous (s.variantsOf v.key) ++ [⟨s.nextId, e⟩] := by
  obtain ⟨slot, hw, hmap, hslots⟩ := hst.turn hv h
  have hslot : s.slotOf v.key = some slot := hs.bound i v slot hv (Phase.bound_of_writing hw)
  have hsame : s'.variantsOf v.key = (s.replaceIn slot previous e).variantsOf v.key := by
    simp only [Store.variantsOf, slotOf, variants, hmap, hslots]
    rfl
  rw [hsame, variantsOf_replaceIn hs hslot, if_pos rfl]

/-- What a visit stores is in the slot of its key. -/
theorem Stores.stored {s s' : Store} {i : Nat} {v : Visit} {previous : Option Held} {e : Entry}
    {m : Move} (hs : Sound s) (hv : s.visits[i]? = some v) (hst : Stores i v previous e m)
    (h : s.move m = some s') : s'.Stored v.key ⟨s.nextId, e⟩ := by
  rw [stored_iff, hst.variantsOf hs hv h]
  exact List.mem_append_right _ (List.mem_singleton_self _)

/-- **A stored entry stays** through a move that does not take it out. -/
theorem Stored.move {s s' : Store} {m : Move} {key : Bytes} {h : Held} (hs : Sound s)
    (hn : s.Numbered) (hst : s.Stored key h) (hm : s.move m = some s')
    (hkeep : ¬ Removes s key h m) : s'.Stored key h := by
  rcases move_cases hm with ⟨key', accepts, -, rfl⟩ | ⟨-, -, rfl⟩ | ⟨i, v, p, b, hv, ht, hg⟩
  · exact hst
  · exact hst
  · have hmem := stored_iff.1 hst
    rw [stored_iff, hg.variantsOf]
    rcases ht.variantsOf_cases hs hv key with hb | ⟨now, slot, rfl, hp, hkey, hb⟩ |
      ⟨previous, e, hstores, hkey, hb⟩
    · rwa [hb]
    · rw [hb, List.mem_filter]
      refine ⟨hmem, ?_⟩
      cases he : h.entry.expired now with
      | false => rfl
      | true => exact absurd (.expired hv hkey hp he) hkeep
    · rw [hb]
      refine List.mem_append_left _ ?_
      cases previous with
      | none => exact hmem
      | some p =>
        refine List.mem_filter.2 ⟨hmem, ?_⟩
        -- the entry of the same number is the one handed out, so it would be replaced
        by_cases hid : h.id = p.id
        · obtain rfl : h = p := hn.inj h p hst.knows (.inr ⟨i, v, hv, hstores.held⟩) hid
          exact absurd (.replaced hv hkey hstores) hkeep
        · simpa using hid

theorem Stored.run {s s' : Store} {t : List (Store × Move)} {key : Bytes} {h : Held}
    (hs : Sound s) (hn : s.Numbered) (hst : s.Stored key h) (hrun : Run Store.move s t s')
    (hkeep : ∀ p ∈ t, ¬ Removes p.1 key h p.2) : s'.Stored key h := by
  have hall : Sound s' ∧ s'.Numbered ∧ s'.Stored key h := by
    refine hrun.invariant_of (P := fun s => Sound s ∧ s.Numbered ∧ s.Stored key h)
      (Q := fun s m => ¬ Removes s key h m) ?_ hkeep ⟨hs, hn, hst⟩
    rintro s m s' hq ⟨hs, hn, hst⟩ hm
    exact ⟨hs.move hm, hn.move hm, hst.move hs hn hm hq⟩
  exact hall.2.2

/-- **A slot is taken out of the map** only by a visit that checks it, when it holds nothing and no
other visit has a handle of it. -/
theorem slotOf_lost {s s' : Store} {m : Move} {key : Bytes} {slot : Nat} (hm : s.move m = some s')
    (hslot : s.slotOf key = some slot) (hlost : s'.slotOf key ≠ some slot) :
    s.variants slot = [] ∧ ∃ i v r, s.visits[i]? = some v ∧ v.key = key ∧
      v.phase = .checking slot r ∧
      ∀ (j : Nat) (w : Visit), s.visits[j]? = some w → j ≠ i → w.phase.handle ≠ some slot := by
  rcases move_cases hm with ⟨key', accepts, -, rfl⟩ | ⟨-, -, rfl⟩ | ⟨i, v, p, b, hv, ht, hg⟩
  · exact absurd hslot hlost
  · exact absurd hslot hlost
  · rw [hg.slotOf] at hlost
    rcases ht.slotOf_eq hslot with h | ⟨rfl, ⟨r, hr⟩, hgives⟩
    · exact absurd h hlost
    · exact ⟨variants_of_givesUp hgives, i, v, r, hv, rfl, hr, fun j w hw hj =>
        handle_ne_of_givesUp hgives hv (by rw [hr, Phase.handle]) hw hj⟩

/-! ## The whole -/

/-- **Single flight, and no entry is lost.**  In every state that any number of visits lead to, in
whatever order they take their steps,

* of the producers that run for one key, at most one was handed nothing or a private entry;
* a visit that has got its slot, and has not finished with it, has the slot that the map has;
* what a visit stores is in the slot that the map has for its key; and what is stored stays in the
  slot that the map has, and that every visit of the key has, until a move takes it out;
* a slot that leaves the map holds nothing, and no visit has a handle of it but the one that gives
  it up. -/
theorem single_flight {t : List (Store × Move)} {s : Store} (hrun : Run Store.move {} t s) :
    (∀ key i j, s.Builds key i → s.Builds key j → i = j) ∧
    (∀ (i : Nat) v slot, s.visits[i]? = some v → v.phase.bound = some slot →
      s.slotOf v.key = some slot) ∧
    (∀ (i : Nat) v previous e m s', s.visits[i]? = some v → Stores i v previous e m →
      s.move m = some s' → s'.Stored v.key ⟨s.nextId, e⟩) ∧
    (∀ key h t' s', s.Stored key h → Run Store.move s t' s' →
      (∀ p ∈ t', ¬ Removes p.1 key h p.2) →
      ∃ slot, s'.slotOf key = some slot ∧ h ∈ s'.variants slot ∧
        ∀ (i : Nat) v slot', s'.visits[i]? = some v → v.key = key →
          v.phase.bound = some slot' → slot' = slot) ∧
    (∀ key slot m s', s.slotOf key = some slot → s.move m = some s' → s'.slotOf key ≠ some slot →
      s.variants slot = [] ∧ ∃ (i : Nat) (v : Visit) (r : VisitResult), s.visits[i]? = some v ∧
        v.key = key ∧ v.phase = .checking slot r ∧
        ∀ (j : Nat) w, s.visits[j]? = some w → j ≠ i → w.phase.handle ≠ some slot) := by
  have hs : Sound s := Sound.of_run hrun sound_empty
  have ho : s.Offering := Offering.of_run hrun (by simp [Offering])
  have hn : s.Numbered := Numbered.of_run hrun numbered_empty
  refine ⟨fun key i j hi hj => hi.unique hs ho hj, hs.bound,
    fun i v previous e m s' hv hst hm => hst.stored hs hv hm, ?_,
    fun key slot m s' hslot hm hlost => slotOf_lost hm hslot hlost⟩
  intro key h t' s' hst hrun' hkeep
  have hs' : Sound s' := Sound.of_run hrun' hs
  obtain ⟨slot, hslot, hmem⟩ := hst.run hs hn hrun' hkeep
  refine ⟨slot, hslot, hmem, fun i v slot' hv hkey hbound => ?_⟩
  have hslot' : s'.slotOf key = some slot' := hkey ▸ hs'.bound i v slot' hv hbound
  exact Option.some.inj (hslot'.symm.trans hslot)

/-- Two visits of one key come up to the slot together; the first begins to build an entry. -/
def twoVisits : List Move :=
  [.begin [] fun _ => true, .begin [] fun _ => true] ++
    List.replicate 3 (.step ⟨0, 0⟩ 0) ++ List.replicate 3 (.step ⟨0, 0⟩ 1) ++
    List.replicate 3 (.step ⟨0, 0⟩ 0) ++ [.step ⟨0, 0⟩ 1] ++ List.replicate 2 (.step ⟨0, 0⟩ 0)

/-- The first visit is then the only one that builds, the second has the slot of the map as well,
and what the first stores is in that slot. -/
theorem single_flight_twoVisits :
    ∃ t s, Run Store.move {} t s ∧ s.Builds [] 0 ∧ (∀ j, s.Builds [] j → 0 = j) ∧
      ∃ v, s.visits[1]? = some v ∧ v.phase.bound = some 0 ∧ s.slotOf v.key = some 0 ∧
      ∀ e s', s.move (.finish 0 (.replace e)) = some s' → s'.Stored [] ⟨0, e⟩ := by
  let r := (follow Store.move {} twoVisits).get rfl
  have hrun : Run Store.move {} r.1 r.2 := run_of_follow (Option.some_get _).symm
  obtain ⟨hone, hbound, hstored, -⟩ := single_flight hrun
  have hbuilds : r.2.Builds [] 0 := ⟨_, none, rfl, rfl, rfl, nofun⟩
  refine ⟨r.1, r.2, hrun, hbuilds, fun j => hone [] 0 j hbuilds, _, rfl, rfl,
    hbound 1 _ 0 rfl rfl, fun e s' hm => ?_⟩
  exact hstored 0 _ none e _ s' rfl (.producing rfl) hm

end Store
end EdgeCache
