import EdgeCache.Proofs.Store.Progress
import EdgeCache.Proofs.Store.SingleFlight

/-!
# What visits find under a key

While nothing is stored under a key, all visits of the key that look for the same find the same: the
first fresh entry that would do (`Found.handed`).  It does not matter who looks when, whether among
the others or with the slot to itself, nor who has swept the slot in between, as long as the same
entries are fresh at all clock readings.  `Found` is this as an invariant; every move keeps it but
the one that stores an entry (`Found.move`), and that one begins a new such period (`Found.store`).
-/

set_option autoImplicit false

namespace EdgeCache
namespace Store

/-- The clock reading as of which the visit looks for an entry among the others. -/
def Phase.clock? : Phase → Option Instant
  | .queueing _ now | .scanning _ now => some now
  | _ => none

/-- The first fresh entry that would do. -/
def firstFit (fresh accepts : Entry → Bool) (l : List Held) : Option Held :=
  l.find? fun h => fresh h.entry && accepts h.entry

/-- The entries of the list have been stored under the key, and some of them perhaps been swept away
that are not fresh.  The clock is read at no other times than `clocks`, and every visit of the key
that is not over is for the same entries. -/
structure Found (key : Bytes) (fresh accepts : Entry → Bool) (clocks : Instant → Prop)
    (l : List Held) (s : Store) : Prop where
  variants : s.variantsOf key = l ∨ s.variantsOf key = l.filter fun h => fresh h.entry
  alike : ∀ (i : Nat) (v : Visit), s.visits[i]? = some v → v.key = key →
    v.phase.isOver = false → v.accepts = accepts
  read : ∀ (i : Nat) (v : Visit) (now : Instant), s.visits[i]? = some v → v.key = key →
    v.phase.clock? = some now → clocks now
  handed : ∀ (i : Nat) (v : Visit) (previous : Option Held), s.visits[i]? = some v → v.key = key →
    v.phase.handed = some previous → previous = firstFit fresh accepts l
  /-- A producer that may build an entry runs in a slot that has been swept. -/
  swept : ∀ (i : Nat) (v : Visit) (slot : Nat) (previous : Option Held), s.visits[i]? = some v →
    v.key = key → v.phase = .producing slot previous →
    s.variantsOf key = l.filter fun h => fresh h.entry
  /-- No public entry is about to be replaced. -/
  pending : ∀ (i : Nat) (v : Visit), s.visits[i]? = some v → v.key = key → v.phase.pending = none

section Found

variable {key : Bytes} {fresh accepts : Entry → Bool} {clocks : Instant → Prop} {l : List Held}
  {s s' b : Store} {i : Nat} {v : Visit} {m : Move} {p : Phase} {now : Instant}

/-! ## One look -/

theorem find?_eq_firstFit {test : Held → Bool}
    (h : ∀ h ∈ l, test h = (fresh h.entry && accepts h.entry)) :
    l.find? test = firstFit fresh accepts l := by
  rw [firstFit, ← List.head?_filter, ← List.head?_filter, List.filter_congr h]

/-- A look finds the same when only entries are left out that are not fresh. -/
theorem firstFit_filter {lasts : Entry → Bool}
    (h : ∀ g ∈ l, fresh g.entry = true → lasts g.entry = true) :
    firstFit fresh accepts (l.filter fun g => lasts g.entry) = firstFit fresh accepts l := by
  rw [firstFit, List.find?_filter]
  refine find?_eq_firstFit fun g hg => ?_
  cases hf : fresh g.entry with
  | false => simp
  | true => simp [h g hg hf]

/-- What is fresh later is found in what is left as well. -/
theorem Found.firstFit_variants {later : Entry → Bool} (hf : s.Found key fresh accepts clocks l)
    (h : ∀ g ∈ l, later g.entry = true → fresh g.entry = true) :
    firstFit later accepts (s.variantsOf key) = firstFit later accepts l := by
  rcases hf.variants with hv | hv
  · rw [hv]
  · rw [hv, firstFit_filter h]

theorem Found.mem (hf : s.Found key fresh accepts clocks l) {h : Held}
    (hh : h ∈ s.variantsOf key) : h ∈ l := by
  rcases hf.variants with hv | hv
  · rwa [hv] at hh
  · rw [hv] at hh
    exact (List.mem_filter.1 hh).1

theorem Found.mem_of_fresh (hf : s.Found key fresh accepts clocks l) {h : Held} (hh : h ∈ l)
    (hfresh : fresh h.entry = true) : h ∈ s.variantsOf key := by
  rcases hf.variants with hv | hv
  · rwa [hv]
  · rw [hv]
    exact List.mem_filter.2 ⟨hh, hfresh⟩

/-- A sweep leaves what is fresh. -/
theorem Found.sweep (hf : s.Found key fresh accepts clocks l)
    (hfresh : ∀ h ∈ l, h.entry.expired now = !fresh h.entry) :
    ((s.variantsOf key).filter fun h => !h.entry.expired now) =
      l.filter fun h => fresh h.entry := by
  have hl : (l.filter fun h => !h.entry.expired now) = l.filter fun h => fresh h.entry :=
    List.filter_congr fun h hh => by rw [hfresh h hh, Bool.not_not]
  rcases hf.variants with h | h
  · rw [h, hl]
  · rw [h, List.filter_filter, ← hl]
    refine List.filter_congr fun h hh => ?_
    rw [hfresh h hh, Bool.not_not, Bool.and_self]

/-- A look among the others finds the first fresh entry that would do. -/
theorem Found.scan (hf : s.Found key fresh accepts clocks l)
    (hfresh : ∀ h ∈ l, h.entry.expired now = !fresh h.entry) :
    ((s.variantsOf key).find? fun h => !h.entry.expired now && accepts h.entry) =
      firstFit fresh accepts l := by
  rw [← hf.firstFit_variants fun _ _ => id]
  exact find?_eq_firstFit fun h hh => by rw [hfresh h (hf.mem hh), Bool.not_not]

theorem freshPublic_eq_find? {held : Held} {variants : List Held}
    (h : freshPublic accepts now variants = some held) :
    (variants.find? fun h => !h.entry.expired now && accepts h.entry) = some held := by
  rw [freshPublic] at h
  split at h
  · next found hfound =>
    split at h
    · rw [Option.some.injEq] at h
      rw [hfound, h]
    · exact absurd h (by simp)
  · exact absurd h (by simp)

/-! ## One move -/

/-- Visits that are over stay so. -/
theorem Turn.busy_of_busy (ht : Turn s i v m p b) (hp : p.isOver = false) :
    v.phase.isOver = false := by
  cases ht <;> simp_all [Phase.isOver]
  case decline h _ => rcases h with ⟨previous, h⟩ | ⟨held, h⟩ <;> rw [h]

theorem Turn.clock?_cases (ht : Turn s i v m p b) (hp : p.clock? = some now) :
    v.phase.clock? = some now ∨ m = .step now i := by
  cases ht <;> simp_all [Phase.clock?]

/-- What a producer is handed after a move is what its visit has just found. -/
theorem Turn.handed_cases {previous : Option Held} (ht : Turn s i v m p b)
    (hp : p.handed = some previous) :
    (∃ slot read held, v.phase = .scanning slot read ∧ previous = some held ∧
      freshPublic v.accepts read (s.variants slot) = some held) ∨
    (∃ slot now, v.phase = .sweeping slot ∧ m = .step now i ∧
      ((s.variants slot).filter fun h => !h.entry.expired now).find?
        (fun h => v.accepts h.entry) = previous) := by
  cases ht with
  | @scanHit now read slot held h hfind =>
    rw [Phase.handed, Option.some.injEq] at hp
    exact .inl ⟨slot, read, held, h, hp.symm, hfind⟩
  | @sweepHit now slot held h hfind =>
    rw [Phase.handed, Option.some.injEq] at hp
    exact .inr ⟨slot, now, h, rfl, hp ▸ hfind⟩
  | @sweepMiss now slot previous' h hfind =>
    rw [Phase.handed, Option.some.injEq] at hp
    exact .inr ⟨slot, now, h, rfl, hp ▸ hfind⟩
  | _ => simp [Phase.handed] at hp

theorem Turn.swept {slot : Nat} {previous : Option Held} (ht : Turn s i v m p b)
    (hp : p = .producing slot previous) :
    ∃ now, v.phase = .sweeping slot ∧ m = .step now i ∧
      b = s.setVariants slot ((s.variants slot).filter fun h => !h.entry.expired now) := by
  cases ht with
  | @sweepMiss now slot' previous' h hfind =>
    rw [Phase.producing.injEq] at hp
    obtain ⟨rfl, -⟩ := hp
    exact ⟨now, h, rfl, rfl⟩
  | _ => simp at hp

/-- **Every move but a store keeps what is found.** -/
theorem Found.move (hf : s.Found key fresh accepts clocks l) (hs : Sound s)
    (hm : s.move m = some s')
    (hfresh : ∀ now, clocks now → ∀ h ∈ l, h.entry.expired now = !fresh h.entry)
    (hclock : ∀ now i, m = .step now i → clocks now)
    (hbegin : ∀ accepts', m = .begin key accepts' → accepts' = accepts)
    (hstore : ∀ i e, m ≠ .finish i (.replace e)) : s'.Found key fresh accepts clocks l := by
  rcases move_cases hm with ⟨key', accepts', rfl, rfl⟩ | ⟨-, -, rfl⟩ | ⟨i, v, p, b, hv, ht, hg⟩
  · refine ⟨hf.variants, fun j w hw hk ho => ?_, fun j w now hw hk hr => ?_,
      fun j w previous hw hk hh => ?_, fun j w slot previous hw hk hp => ?_, fun j w hw hk => ?_⟩
    · rcases visit_begin_cases hw with hw | ⟨hk', hacc, -⟩
      · exact hf.alike j w hw hk ho
      · rw [hacc]
        exact hbegin accepts' (by rw [← hk', hk])
    · rcases visit_begin_cases hw with hw | ⟨-, -, hp⟩
      · exact hf.read j w now hw hk hr
      · simp [hp, Phase.clock?] at hr
    · rcases visit_begin_cases hw with hw | ⟨-, -, hp⟩
      · exact hf.handed j w previous hw hk hh
      · simp [hp, Phase.handed] at hh
    · rcases visit_begin_cases hw with hw | ⟨-, -, hp'⟩
      · exact hf.swept j w slot previous hw hk hp
      · simp [hp'] at hp
    · rcases visit_begin_cases hw with hw | ⟨-, -, hp⟩
      · exact hf.pending j w hw hk
      · rw [hp]
        rfl
  · exact hf
  · -- the slot of the visit is that of the key
    have hslot : ∀ {slot : Nat}, v.key = key → v.phase.bound = some slot →
        s.variants slot = s.variantsOf key := fun hk hb =>
      (variantsOf_eq (hk ▸ hs.bound i v _ hv hb)).symm
    have hvariants : s'.variantsOf key = s.variantsOf key ∨
        s'.variantsOf key = l.filter fun h => fresh h.entry := by
      rw [hg.variantsOf]
      rcases ht.variantsOf_cases hs hv key with hb | ⟨now, slot, rfl, -, -, hb⟩ |
        ⟨previous, e, hst, hk, -⟩
      · exact .inl hb
      · exact .inr (hb.trans (hf.sweep (hfresh now (hclock now i rfl))))
      · rcases hst.entry with hp | hp
        · simp [hf.pending i v hv hk] at hp
        · exact absurd hp (hstore i e)
    refine ⟨?_, fun j w hw hk ho => ?_, fun j w now hw hk hr => ?_,
      fun j w previous hw hk hh => ?_, fun j w slot previous hw hk hp => ?_, fun j w hw hk => ?_⟩
    · rcases hvariants with h | h
      · rw [h]
        exact hf.variants
      · exact .inr h
    · rcases hg.visit_cases hv hw with ⟨-, hkey, hacc, hp⟩ | ⟨-, hw⟩
      · rw [hacc]
        exact hf.alike i v hv (hkey ▸ hk) (ht.busy_of_busy (hp ▸ ho))
      · exact hf.alike j w hw hk ho
    · rcases hg.visit_cases hv hw with ⟨-, hkey, -, hp⟩ | ⟨-, hw⟩
      · rcases ht.clock?_cases (hp ▸ hr) with hr | rfl
        · exact hf.read i v now hv (hkey ▸ hk) hr
        · exact hclock now i rfl
      · exact hf.read j w now hw hk hr
    · rcases hg.visit_cases hv hw with ⟨-, hkey, -, hp⟩ | ⟨-, hw⟩
      · have hkv : v.key = key := hkey ▸ hk
        rcases ht.handed_cases (hp ▸ hh) with ⟨slot, read, held, hph, rfl, hfind⟩ |
          ⟨slot, now, hph, rfl, hfind⟩
        · have hacc := hf.alike i v hv hkv (by rw [hph]; rfl)
          rw [hslot hkv (by rw [hph]; rfl), hacc] at hfind
          have hread := hf.read i v read hv hkv (by rw [hph]; rfl)
          rw [← hf.scan (hfresh read hread), freshPublic_eq_find? hfind]
        · have hacc := hf.alike i v hv hkv (by rw [hph]; rfl)
          rw [hslot hkv (by rw [hph]; rfl), hacc, hf.sweep (hfresh now (hclock now i rfl))] at hfind
          rw [← hfind, ← firstFit_filter fun _ _ => id]
          refine find?_eq_firstFit fun h hh => ?_
          rw [(List.mem_filter.1 hh).2, Bool.true_and]
      · exact hf.handed j w previous hw hk hh
    · have hswept : s.variantsOf key = (l.filter fun h => fresh h.entry) →
          s'.variantsOf key = l.filter fun h => fresh h.entry := fun h =>
        hvariants.elim (fun hsame => hsame.trans h) id
      rcases hg.visit_cases hv hw with ⟨-, hkey, -, hp'⟩ | ⟨-, hw⟩
      · have hkv : v.key = key := hkey ▸ hk
        obtain ⟨now, hph, rfl, rfl⟩ := ht.swept (hp' ▸ hp)
        have hbound : v.phase.bound = some slot := by rw [hph]; rfl
        rw [hg.variantsOf, variantsOf_setVariants hs (hkv ▸ hs.bound i v slot hv hbound),
          if_pos rfl, hslot hkv hbound]
        exact hf.sweep (hfresh now (hclock now i rfl))
      · exact hswept (hf.swept j w slot previous hw hk hp)
    · rcases hg.visit_cases hv hw with ⟨-, hkey, -, hp⟩ | ⟨-, hw⟩
      · rw [hp]
        cases hpend : p.pending with
        | none => rfl
        | some e =>
          rcases ht.pending_cases hpend with he | he
          · simp [hf.pending i v hv (hkey ▸ hk)] at he
          · exact absurd he (hstore i e)
      · exact hf.pending j w hw hk

/-! ## The beginning and the end of such a time -/

/-- When all visits of the key are over, whoever comes now finds what is there. -/
theorem found_of_isOver (hvariants : s.variantsOf key = l)
    (hover : ∀ (i : Nat) (v : Visit), s.visits[i]? = some v → v.key = key →
      v.phase.isOver = true) : s.Found key fresh accepts clocks l := by
  refine ⟨.inl hvariants, fun j w hw hk ho => ?_, fun j w now hw hk hr => ?_,
    fun j w previous hw hk hh => ?_, fun j w slot previous hw hk hp => ?_, fun j w hw hk => ?_⟩
  all_goals have h := hover j w hw hk
  · simp [ho] at h
  · cases hp : w.phase <;> simp [hp, Phase.isOver, Phase.clock?] at h hr
  · cases hp : w.phase <;> simp [hp, Phase.isOver, Phase.handed] at h hh
  · simp [hp, Phase.isOver] at h
  · cases hp : w.phase <;> simp [hp, Phase.isOver] at h <;> rfl

/-- What is under the key when a producer has stored an entry in place of the one it was handed. -/
def afterStore (fresh : Entry → Bool) (l : List Held) (previous : Option Held) (h : Held) :
    List Held :=
  kept previous (l.filter fun h => fresh h.entry) ++ [h]

/-- **A producer that builds an entry ends such a time and begins another**: from then on visits of
the key look among what has not been swept away, and the new entry. -/
theorem Found.store {slot : Nat} {previous : Option Held} {e : Entry}
    (fresh' : Entry → Bool) (hf : s.Found key fresh accepts clocks l) (hs : Sound s)
    (ho : s.Offering) (hv : s.visits[i]? = some v) (hk : v.key = key)
    (hp : v.phase = .producing slot previous) (hm : s.finish i (.replace e) = some s')
    (hprivate : ∀ h, firstFit fresh accepts l = some h → h.entry.isPublic = false) :
    s'.Found key fresh' accepts clocks (afterStore fresh l previous ⟨s.nextId, e⟩) := by
  obtain ⟨u, p, b, hu, ht, hg⟩ := finish_cases hm
  obtain rfl : v = u := Option.some.inj (hv.symm.trans hu)
  have hsl : s.slotOf key = some slot :=
    hk ▸ hs.bound i v slot hv (by rw [hp]; rfl)
  obtain ⟨hpl, rfl⟩ : p = .leaving slot (.ok ()) ∧ b = s.replaceIn slot previous e := by
    cases ht with
    | store h =>
      rw [hp, Phase.producing.injEq] at h
      obtain ⟨rfl, rfl⟩ := h
      exact ⟨rfl, rfl⟩
    | giveBack h => simp [hp] at h
    | decline _ hr => exact absurd rfl (hr e)
  have hbuilds : s.Builds key i := by
    refine ⟨v, previous, hv, hk, by rw [hp]; rfl, fun h hh => hprivate h ?_⟩
    rw [← hf.handed i v previous hv hk (by rw [hp]; rfl), hh]
  -- nobody else has been handed anything
  have halone : ∀ (j : Nat) (w : Visit) (given : Option Held), j ≠ i → s.visits[j]? = some w →
      w.key = key → w.phase.handed ≠ some given := by
    intro j w given hij hw hkw hh
    have hbuilds' : s.Builds key j :=
      ⟨w, given, hw, hkw, hh, fun h hgiven => hprivate h (hf.handed j w given hw hkw hh ▸ hgiven)⟩
    exact hij (hbuilds'.unique hs ho hbuilds)
  refine ⟨.inl ?_, fun j w hw hkw hbusy => ?_, fun j w now hw hkw hr => ?_,
    fun j w given hw hkw hh => ?_, fun j w slot given hw hkw hh => ?_, fun j w hw hkw => ?_⟩
  · rw [hg.variantsOf, afterStore, ← hf.swept i v slot previous hv hk hp, variantsOf_eq hsl]
    exact (variantsOf_setVariants hs hsl _ _).trans (if_pos rfl)
  · rcases hg.visit_cases hv hw with ⟨-, -, hacc, -⟩ | ⟨-, hw⟩
    · exact hacc.trans (hf.alike i v hv hk (by rw [hp]; rfl))
    · exact hf.alike j w hw hkw hbusy
  · rcases hg.visit_cases hv hw with ⟨-, -, -, hpw⟩ | ⟨-, hw⟩
    · simp [hpw, hpl, Phase.clock?] at hr
    · exact hf.read j w now hw hkw hr
  · rcases hg.visit_cases hv hw with ⟨-, -, -, hpw⟩ | ⟨hij, hw⟩
    · simp [hpw, hpl, Phase.handed] at hh
    · exact absurd hh (halone j w given hij hw hkw)
  · rcases hg.visit_cases hv hw with ⟨-, -, -, hpw⟩ | ⟨hij, hw⟩
    · simp [hpw, hpl] at hh
    · exact absurd (by rw [hh]; rfl) (halone j w given hij hw hkw)
  · rcases hg.visit_cases hv hw with ⟨-, -, -, hpw⟩ | ⟨-, hw⟩
    · rw [hpw, hpl]
      rfl
    · exact hf.pending j w hw hkw

theorem mem_kept {previous : Option Held} {g : Held} :
    g ∈ kept previous l ↔ g ∈ l ∧ ∀ p, previous = some p → g.id ≠ p.id := by
  cases previous <;> simp [kept]

/-- **Who finds an entry that has just been stored.**  It stands at the end: only those find it for
whom none of the others would do, but the one it has taken the place of. -/
theorem firstFit_afterStore {lasts : Entry → Bool} {previous : Option Held} {new : Held}
    (hfresh : fresh new.entry = true) (haccepts : accepts new.entry = true)
    (hnew : ∀ g ∈ l, lasts g.entry = true → g.id < new.id)
    (hprevious : ∀ g ∈ l, ∀ p, previous = some p → g.id = p.id → g = p)
    (hlasts : ∀ g ∈ l, fresh g.entry = true → lasts g.entry = true) :
    firstFit fresh accepts (afterStore lasts l previous new) = some new ↔
      ∀ g ∈ l, fresh g.entry = true → accepts g.entry = true → previous = some g := by
  have hfind : firstFit fresh accepts (afterStore lasts l previous new) =
      (firstFit fresh accepts (kept previous (l.filter fun g => lasts g.entry))).or (some new) := by
    rw [firstFit, afterStore, List.find?_append, List.find?_singleton, hfresh, haccepts]
    rfl
  have hnone :
      firstFit fresh accepts (kept previous (l.filter fun g => lasts g.entry)) ≠ some new := by
    intro h
    obtain ⟨hmem, hlast⟩ := List.mem_filter.1 (mem_kept.1 (List.mem_of_find?_eq_some h)).1
    exact absurd (hnew new hmem hlast) (Nat.lt_irrefl _)
  constructor
  · intro h g hg hf ha
    rw [hfind] at h
    cases hfit : firstFit fresh accepts (kept previous (l.filter fun g => lasts g.entry)) with
    | some g' =>
      rw [hfit, Option.some_or] at h
      exact absurd (hfit.trans h) hnone
    | none =>
      -- the entry has not been kept, so it was the one that was replaced
      have hout : g ∉ kept previous (l.filter fun g => lasts g.entry) := by
        intro hmem
        have hno := List.find?_eq_none.1 hfit g hmem
        simp [hf, ha] at hno
      rw [mem_kept, List.mem_filter, not_and] at hout
      have hsame := hout ⟨hg, hlasts g hg hf⟩
      cases previous with
      | none => exact absurd (fun p hp => absurd hp (by simp)) hsame
      | some p =>
        have hid : g.id = p.id := by simpa using hsame
        rw [hprevious g hg p rfl hid]
  · intro h
    have hfit :
        firstFit fresh accepts (kept previous (l.filter fun g => lasts g.entry)) = none := by
      refine List.find?_eq_none.2 fun g hg hok => ?_
      obtain ⟨hmem, hid⟩ := mem_kept.1 hg
      rw [Bool.and_eq_true] at hok
      exact hid g (h g (List.mem_filter.1 hmem).1 hok.1 hok.2) rfl
    rw [hfind, hfit, Option.none_or]

end Found

end Store
end EdgeCache
