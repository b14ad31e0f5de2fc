import EdgeCache.Proofs.Store.Locks
import Mathlib.Data.List.Pairwise
import Mathlib.Tactic.Push
import Mathlib.Tactic.Tauto

/-!
# What is stored

The variants of a key change in two ways only: a visit of the key that has its slot for itself
sweeps away what has expired, or an entry is stored, in place of the one its producer was handed.
Making a slot and giving one up do not show (`Turn.variantsOf_cases`).

From this follow the invariants of this file: entries keep the number they were stored under, so
that no two entries ever have the same (`Numbered`); a producer is handed an entry that would do,
public if no lock is held and private otherwise (`Phase.Offers`); and whatever is true of every
entry that a producer decides to store under a key is true of everything under that key (`All`).
-/

set_option autoImplicit false

namespace EdgeCache

theorem Instant.le_iff {a b : Instant} :
    a.le b = true ↔ a.seconds < b.seconds ∨ a.seconds = b.seconds ∧ a.nanos ≤ b.nanos := by
  simp [Instant.le]

theorem Instant.le_trans {a b c : Instant} (hab : a.le b = true) (hbc : b.le c = true) :
    a.le c = true := by
  rw [Instant.le_iff] at hab hbc ⊢
  omega

namespace Store

/-- The entry of the store that the visit keeps in mind. -/
def Phase.held : Phase → Option Held
  | .producing _ previous => previous
  | .reusing _ h | .returning _ h _ | .swapping _ h _ => some h
  | _ => none

/-- The entry that the visit is about to store. -/
def Phase.pending : Phase → Option Entry
  | .returning _ _ e | .swapping _ _ e => some e
  | _ => none

/-- What the visit keeps in mind would do; it is public unless the producer may build a new
entry. -/
def Phase.Offers (accepts : Entry → Bool) : Phase → Prop
  | .producing _ (some h) => h.entry.isPublic = false ∧ accepts h.entry = true
  | .reusing _ h | .returning _ h _ | .swapping _ h _ =>
    h.entry.isPublic = true ∧ accepts h.entry = true
  | _ => True

/-- By a move a visit stores an entry, in place of the one it was handed. -/
inductive Stores (i : Nat) (v : Visit) (previous : Option Held) (e : Entry) : Move → Prop
  | producing {slot : Nat} (h : v.phase = .producing slot previous) :
      Stores i v previous e (.finish i (.replace e))
  | swapping {now : Instant} {slot : Nat} {held : Held} (h : v.phase = .swapping slot held e)
      (hp : previous = some held) : Stores i v previous e (.step now i)

/-! ## How the variants of a key change -/

/-- What is fresh was so before. -/
theorem fresh_of_le {a b : Instant} {e : Entry} (hle : a.le b = true)
    (h : e.expired b = false) : e.expired a = false := by
  rw [← Bool.not_eq_true] at h ⊢
  exact fun hexpired => h (Instant.le_trans hexpired hle)

theorem freshPublic_eq_some {accepts : Entry → Bool} {now : Instant} {l : List Held} {h : Held}
    (hf : freshPublic accepts now l = some h) :
    h ∈ l ∧ h.entry.isPublic = true ∧ accepts h.entry = true ∧ h.entry.expired now = false := by
  rw [freshPublic] at hf
  split at hf
  · next h' hfind =>
    split at hf
    · next hpub =>
      rw [Option.some.injEq] at hf
      subst hf
      have hmem := List.mem_of_find?_eq_some hfind
      have htest := List.find?_some hfind
      rw [Bool.and_eq_true, Bool.not_eq_true'] at htest
      exact ⟨hmem, hpub, htest.2, htest.1⟩
    · exact absurd hf (by simp)
  · exact absurd hf (by simp)

section Turn

variable {s b s' : Store} {i slot : Nat} {v : Visit} {m : Move} {p : Phase}

theorem variantsOf_eq {k : Bytes} (h : s.slotOf k = some slot) :
    s.variantsOf k = s.variants slot := by
  rw [variantsOf, h]

theorem variantsOf_eq_nil {k : Bytes} (h : s.slotOf k = none) : s.variantsOf k = [] := by
  rw [variantsOf, h]

theorem Goes.variantsOf (h : Goes s i v p b s') : s'.variantsOf = b.variantsOf := by
  funext k
  rw [Store.variantsOf, h.slotOf, h.variants]
  rfl

theorem variantsOf_ensureSlot (key : Bytes) :
    (s.ensureSlot key).1.variantsOf = s.variantsOf := by
  funext k
  rw [variantsOf, variantsOf, slotOf_ensureSlot, variants_ensureSlot]
  by_cases hk : k = key
  · subst hk
    rw [if_pos rfl]
    rw [ensureSlot]
    cases hslot : s.slotOf k with
    | some slot => rfl
    | none => simp [variants]
  · rw [if_neg hk]

/-- Changing a slot changes the variants of the one key it belongs to. -/
theorem variantsOf_setVariants (hs : Sound s) {key : Bytes} (hslot : s.slotOf key = some slot)
    (held : List Held) (k : Bytes) :
    (s.setVariants slot held).variantsOf k = if k = key then held else s.variantsOf k := by
  rw [variantsOf, variantsOf, slotOf_setVariants]
  by_cases hk : k = key
  · subst hk
    rw [if_pos rfl, hslot]
    simp only
    rw [variants_setVariants s (hs.lt _ _ hslot), if_pos rfl]
  · rw [if_neg hk]
    cases hsk : s.slotOf k with
    | none => rfl
    | some slot' =>
      have hne : slot' ≠ slot := by
        rintro rfl
        exact hk (hs.inj _ _ _ hsk hslot)
      simp only
      rw [variants_setVariants s (hs.lt _ _ hslot), if_neg hne]

theorem variantsOf_replaceIn (hs : Sound s) {key : Bytes} (hslot : s.slotOf key = some slot)
    (previous : Option Held) (e : Entry) (k : Bytes) :
    (s.replaceIn slot previous e).variantsOf k =
      if k = key then kept previous (s.variantsOf key) ++ [⟨s.nextId, e⟩] else s.variantsOf k := by
  rw [variantsOf_eq hslot]
  exact variantsOf_setVariants hs hslot _ k

theorem variantsOf_dropSlot {key : Bytes} (h : s.givesUp key slot = true) :
    (s.dropSlot key).variantsOf = s.variantsOf := by
  funext k
  rw [variantsOf, slotOf_dropSlot]
  by_cases hk : k = key
  · subst hk
    rw [if_pos rfl, variantsOf_eq (slotOf_of_givesUp h), variants_of_givesUp h]
  · rw [if_neg hk]
    rfl

/-! ### Checks -/

/-- The store after a visit has checked the slot of its key. -/
def afterCheck (s : Store) (key : Bytes) (slot : Nat) : Store :=
  if s.givesUp key slot then s.dropSlot key else s

/-- The key has a slot, and there is nothing in it. -/
def LeftBehind (s : Store) (key : Bytes) : Prop :=
  (s.slotOf key).isSome ∧ s.variantsOf key = []

theorem variantsOf_afterCheck (s : Store) (key : Bytes) (slot : Nat) :
    (s.afterCheck key slot).variantsOf = s.variantsOf := by
  rw [afterCheck]
  split
  next hgives => exact variantsOf_dropSlot hgives
  next => rfl

theorem not_leftBehind_iff {key : Bytes} :
    ¬ s.LeftBehind key ↔ ((s.slotOf key).isSome ↔ s.variantsOf key ≠ []) := by
  have hslot : s.variantsOf key ≠ [] → (s.slotOf key).isSome := by
    intro hne
    cases hnone : s.slotOf key with
    | none => exact absurd (variantsOf_eq_nil hnone) hne
    | some slot => rfl
  rw [LeftBehind]
  tauto

/-- **What a check comes to.**  A slot is left behind by a check just if it is empty and another
visit has a handle of it. -/
theorem Sound.leftBehind_afterCheck {r : VisitResult} (hs : Sound s) (hv : s.visits[i]? = some v)
    (hp : v.phase = .checking slot r) :
    (s.afterCheck v.key slot).LeftBehind v.key ↔ s.variants slot = [] ∧
      ∃ (j : Nat) (w : Visit), j ≠ i ∧ s.visits[j]? = some w ∧ w.phase.handle = some slot := by
  have hslot : s.slotOf v.key = some slot := hs.bound i v slot hv (by rw [hp]; rfl)
  have hgives := hs.givesUp_iff hv hp
  rw [LeftBehind, variantsOf_afterCheck, variantsOf_eq hslot, afterCheck]
  split
  next hup =>
    -- what is given up is out of the map
    obtain ⟨-, hnone⟩ := hgives.1 hup
    rw [slotOf_dropSlot, if_pos rfl]
    refine iff_of_false (by simp) ?_
    rintro ⟨-, j, w, hj, hw, hhandle⟩
    exact hnone j w hj hw hhandle
  next hkeeps =>
    rw [hgives] at hkeeps
    simp only [hslot, Option.isSome_some, true_and]
    refine ⟨fun hempty => ⟨hempty, ?_⟩, And.left⟩
    by_contra hnone
    push Not at hnone
    exact hkeeps ⟨hempty, hnone⟩

/-- **How variants change.**  A move leaves the variants of a key as they are, or sweeps away what
has expired, or stores an entry in place of the one the producer was handed. -/
theorem Turn.variantsOf_cases (hs : Sound s) (hv : s.visits[i]? = some v) (ht : Turn s i v m p b)
    (k : Bytes) :
    b.variantsOf k = s.variantsOf k ∨
    (∃ now slot, m = .step now i ∧ v.phase = .sweeping slot ∧ v.key = k ∧
      b.variantsOf k = (s.variantsOf k).filter fun h => !h.entry.expired now) ∨
    (∃ previous e, Stores i v previous e m ∧ v.key = k ∧
      b.variantsOf k = kept previous (s.variantsOf k) ++ [⟨s.nextId, e⟩]) := by
  have hslot : ∀ {slot : Nat}, v.phase.writing slot = true → s.slotOf v.key = some slot :=
    fun hw => hs.bound i v _ hv (Phase.bound_of_writing hw)
  cases ht with
  | find => exact .inl (by rw [variantsOf_ensureSlot])
  | giveUp _ hgives => exact .inl (by rw [variantsOf_dropSlot hgives])
  | @sweepHit now slot _ hp _ _ | @sweepMiss now slot _ hp _ _ =>
    have hsl := @hslot slot (by simp [hp, Phase.writing])
    by_cases hk : k = v.key
    · subst hk
      refine .inr (.inl ⟨now, slot, rfl, hp, rfl, ?_⟩)
      rw [variantsOf_setVariants hs hsl, if_pos rfl, variantsOf_eq hsl]
    · exact .inl (by rw [variantsOf_setVariants hs hsl, if_neg hk])
  | @swap now slot held e hp =>
    have hsl := @hslot slot (by simp [hp, Phase.writing])
    by_cases hk : k = v.key
    · subst hk
      refine .inr (.inr ⟨some held, e, .swapping hp rfl, rfl, ?_⟩)
      rw [variantsOf_replaceIn hs hsl, if_pos rfl]
    · exact .inl (by rw [variantsOf_replaceIn hs hsl, if_neg hk])
  | @store slot previous e hp =>
    have hsl := @hslot slot (by simp [hp, Phase.writing])
    by_cases hk : k = v.key
    · subst hk
      refine .inr (.inr ⟨previous, e, .producing hp, rfl, ?_⟩)
      rw [variantsOf_replaceIn hs hsl, if_pos rfl]
    · exact .inl (by rw [variantsOf_replaceIn hs hsl, if_neg hk])
  | _ => exact .inl rfl

/-- The variants of other keys are left alone. -/
theorem Turn.variantsOf_ne (hs : Sound s) (hv : s.visits[i]? = some v) (ht : Turn s i v m p b)
    {k : Bytes} (hk : k ≠ v.key) : b.variantsOf k = s.variantsOf k := by
  rcases ht.variantsOf_cases hs hv k with hb | ⟨_, _, _, _, rfl, _⟩ | ⟨_, _, _, rfl, _⟩
  · exact hb
  · exact absurd rfl hk
  · exact absurd rfl hk

/-! ## What visits keep in mind -/

/-- What a visit keeps in mind after a move it did before, or it has just found it in its slot. -/
theorem Turn.held_cases (ht : Turn s i v m p b) {h : Held} (hh : p.held = some h) :
    v.phase.held = some h ∨ ∃ slot, v.phase.bound = some slot ∧ h ∈ s.variants slot := by
  cases ht with
  | @scanHit now read slot held hp hfind =>
    simp only [Phase.held, Option.some.injEq] at hh
    subst hh
    exact .inr ⟨slot, by simp [hp, Phase.bound, Phase.handle], (freshPublic_eq_some hfind).1⟩
  | @sweepHit now slot held hp hfind =>
    simp only [Phase.held, Option.some.injEq] at hh
    subst hh
    refine .inr ⟨slot, by simp [hp, Phase.bound, Phase.handle], ?_⟩
    exact (List.mem_filter.1 (List.mem_of_find?_eq_some hfind)).1
  | @sweepMiss now slot previous hp hfind =>
    simp only [Phase.held] at hh
    subst hh
    refine .inr ⟨slot, by simp [hp, Phase.bound, Phase.handle], ?_⟩
    exact (List.mem_filter.1 (List.mem_of_find?_eq_some hfind)).1
  | takeBack hp | giveBack hp => exact .inl (by simpa [hp, Phase.held] using hh)
  | _ => simp [Phase.held] at hh

/-- What a visit is about to store after a move it was so before, or its producer has just
decided. -/
theorem Turn.pending_cases (ht : Turn s i v m p b) {e : Entry} (he : p.pending = some e) :
    v.phase.pending = some e ∨ m = .finish i (.replace e) := by
  cases ht <;> simp_all [Phase.pending]

theorem Turn.offers (ht : Turn s i v m p b) (ho : v.phase.Offers v.accepts) :
    p.Offers v.accepts := by
  cases ht with
  | scanHit hp hfind =>
    obtain ⟨-, hpub, hacc, -⟩ := freshPublic_eq_some hfind
    exact ⟨hpub, hacc⟩
  | sweepHit hp hfind hpub => exact ⟨hpub, by simpa using List.find?_some hfind⟩
  | @sweepMiss now slot previous hp hfind hpriv =>
    cases previous with
    | none => trivial
    | some h => exact ⟨hpriv h rfl, by simpa using List.find?_some hfind⟩
  | takeBack hp | giveBack hp => simpa [hp, Phase.Offers] using ho
  | _ => trivial

/-- What a visit stores it was about to store, or its producer has just decided. -/
theorem Stores.entry {previous : Option Held} {e : Entry} (h : Stores i v previous e m) :
    v.phase.pending = some e ∨ m = .finish i (.replace e) := by
  cases h with
  | producing => exact .inr rfl
  | swapping h => exact .inl (by rw [h, Phase.pending])

theorem Stores.held {previous : Option Held} {e : Entry} (h : Stores i v previous e m) :
    v.phase.held = previous := by
  cases h with
  | producing h => rw [h, Phase.held]
  | swapping h hp => rw [h, hp, Phase.held]

end Turn

/-- Every producer is handed what it should be. -/
def Offering (s : Store) : Prop :=
  ∀ (i : Nat) (v : Visit), s.visits[i]? = some v → v.phase.Offers v.accepts

theorem Offering.move {s s' : Store} {m : Move} (ho : s.Offering) (h : s.move m = some s') :
    s'.Offering := by
  intro j w hw
  rcases move_cases h with ⟨key, accepts, -, rfl⟩ | ⟨-, -, rfl⟩ | ⟨i, v, p, b, hv, ht, hg⟩
  · rcases visit_begin_cases hw with hw | ⟨-, -, hp⟩
    · exact ho j w hw
    · rw [hp]
      trivial
  · exact ho j w hw
  · rcases hg.visit_cases hv hw with ⟨-, -, hacc, hp⟩ | ⟨-, hw'⟩
    · rw [hp, hacc]
      exact ht.offers (ho i v hv)
    · exact ho j w hw'

theorem Offering.of_run {s₀ s : Store} {t : List (Store × Move)} (hrun : Run Store.move s₀ t s)
    (h₀ : s₀.Offering) : s.Offering :=
  hrun.invariant Offering.move h₀

/-! ## Everything under a key -/

/-- `P` is true of every entry that is stored, kept in mind or about to be stored under a key. -/
structure All (P : Bytes → Entry → Prop) (s : Store) : Prop where
  stored : ∀ (k : Bytes) (h : Held), h ∈ s.variantsOf k → P k h.entry
  held : ∀ (i : Nat) (v : Visit) (h : Held), s.visits[i]? = some v → v.phase.held = some h →
    P v.key h.entry
  pending : ∀ (i : Nat) (v : Visit) (e : Entry), s.visits[i]? = some v →
    v.phase.pending = some e → P v.key e

theorem mem_of_mem_kept {previous : Option Held} {l : List Held} {h : Held}
    (hh : h ∈ kept previous l) : h ∈ l := by
  cases previous with
  | none => exact hh
  | some p => exact (List.mem_filter.1 hh).1

theorem All.mono {P Q : Bytes → Entry → Prop} {s : Store} (ha : s.All P)
    (hPQ : ∀ k e, P k e → Q k e) : s.All Q where
  stored k h hh := hPQ k _ (ha.stored k h hh)
  held i v h hv hh := hPQ _ _ (ha.held i v h hv hh)
  pending i v e hv he := hPQ _ _ (ha.pending i v e hv he)

/-- **Nothing is under a key but what producers decided to store there.** -/
theorem All.move {P : Bytes → Entry → Prop} {s s' : Store} {m : Move} (ha : s.All P)
    (hs : Sound s) (h : s.move m = some s')
    (hstore : ∀ (i : Nat) (e : Entry) (v : Visit), m = .finish i (.replace e) →
      s.visits[i]? = some v → P v.key e) : s'.All P := by
  rcases move_cases h with ⟨key, accepts, -, rfl⟩ | ⟨-, -, rfl⟩ | ⟨i, v, p, b, hv, ht, hg⟩
  · refine ⟨ha.stored, fun j w h hw hh => ?_, fun j w e hw he => ?_⟩
    · rcases visit_begin_cases hw with hw | ⟨-, -, hp⟩
      · exact ha.held j w h hw hh
      · simp [hp, Phase.held] at hh
    · rcases visit_begin_cases hw with hw | ⟨-, -, hp⟩
      · exact ha.pending j w e hw he
      · simp [hp, Phase.pending] at he
  · exact ha
  · refine ⟨fun k h hh => ?_, fun j w h hw hh => ?_, fun j w e hw he => ?_⟩
    · rw [hg.variantsOf] at hh
      rcases ht.variantsOf_cases hs hv k with hb | ⟨_, _, _, _, -, hb⟩ | ⟨previous, e, hst, hk, hb⟩
      · exact ha.stored k h (by rwa [hb] at hh)
      · rw [hb] at hh
        exact ha.stored k h (List.mem_filter.1 hh).1
      · rw [hb, List.mem_append, List.mem_singleton] at hh
        rcases hh with hh | rfl
        · exact ha.stored k h (mem_of_mem_kept hh)
        · subst hk
          rcases hst.entry with he | he
          · exact ha.pending i v e hv he
          · exact hstore i e v he hv
    · rcases hg.visit_cases hv hw with ⟨-, hkey, -, hp⟩ | ⟨-, hw'⟩
      · rw [hp] at hh
        rw [hkey]
        rcases ht.held_cases hh with hh | ⟨slot, hslot, hmem⟩
        · exact ha.held i v h hv hh
        · refine ha.stored _ h ?_
          rwa [variantsOf_eq (hs.bound i v slot hv hslot)]
      · exact ha.held j w h hw' hh
    · rcases hg.visit_cases hv hw with ⟨-, hkey, -, hp⟩ | ⟨-, hw'⟩
      · rw [hp] at he
        rw [hkey]
        rcases ht.pending_cases he with he | he
        · exact ha.pending i v e hv he
        · exact hstore i e v he hv
      · exact ha.pending j w e hw' he

/-! ## Numbers -/

/-- The entry is in a slot, or a visit keeps it in mind. -/
def Knows (s : Store) (h : Held) : Prop :=
  (∃ slot, h ∈ s.variants slot) ∨
    ∃ (i : Nat) (v : Visit), s.visits[i]? = some v ∧ v.phase.held = some h

/-- Entries are told apart by their numbers, and the next number is new. -/
structure Numbered (s : Store) : Prop where
  lt : ∀ h, s.Knows h → h.id < s.nextId
  inj : ∀ h h', s.Knows h → s.Knows h' → h.id = h'.id → h = h'

theorem variants_replaceIn_subset {s : Store} {slot k : Nat} {previous : Option Held} {e : Entry}
    {h : Held} (hh : h ∈ (s.replaceIn slot previous e).variants k) :
    h ∈ s.variants k ∨ h = ⟨s.nextId, e⟩ := by
  by_cases hlt : slot < s.slots.length
  · rw [variants_replaceIn s hlt] at hh
    by_cases hk : k = slot
    · subst hk
      rw [if_pos rfl, List.mem_append, List.mem_singleton] at hh
      exact hh.imp mem_of_mem_kept id
    · rw [if_neg hk] at hh
      exact .inl hh
  · have hset : (s.replaceIn slot previous e).variants = s.variants := by
      funext k
      simp only [variants, replaceIn, setVariants]
      rw [List.set_eq_of_length_le (Nat.le_of_not_lt hlt)]
    rw [hset] at hh
    exact .inl hh

theorem variants_setVariants_subset {s : Store} {slot k : Nat} {test : Held → Bool} {h : Held}
    (hh : h ∈ (s.setVariants slot ((s.variants slot).filter test)).variants k) :
    h ∈ s.variants k := by
  by_cases hlt : slot < s.slots.length
  · rw [variants_setVariants s hlt] at hh
    by_cases hk : k = slot
    · subst hk
      rw [if_pos rfl] at hh
      exact (List.mem_filter.1 hh).1
    · rwa [if_neg hk] at hh
  · have hset : (s.setVariants slot ((s.variants slot).filter test)).variants = s.variants := by
      funext k
      simp only [variants, setVariants]
      rw [List.set_eq_of_length_le (Nat.le_of_not_lt hlt)]
    rwa [hset] at hh

theorem Stores.entry_unique {i : Nat} {v : Visit} {m : Move} {previous previous' : Option Held}
    {e e' : Entry} (h : Stores i v previous e m) (h' : Stores i v previous' e' m) : e = e' := by
  cases h with
  | producing => cases h'; rfl
  | swapping hp =>
    cases h' with
    | swapping hp' =>
      rw [hp] at hp'
      injection hp'

/-- What is in a slot after a move was there before, or it has just been stored under a new
number. -/
theorem Turn.variants_cases {s b : Store} {i k : Nat} {v : Visit} {m : Move} {p : Phase} {h : Held}
    (ht : Turn s i v m p b) (hh : h ∈ b.variants k) :
    h ∈ s.variants k ∨
      ∃ previous e, Stores i v previous e m ∧ h = ⟨s.nextId, e⟩ ∧ b.nextId = s.nextId + 1 := by
  cases ht with
  | find => exact .inl (by rwa [variants_ensureSlot] at hh)
  | sweepHit => exact .inl (variants_setVariants_subset hh)
  | sweepMiss => exact .inl (variants_setVariants_subset hh)
  | swap hp =>
    exact (variants_replaceIn_subset hh).imp_right fun h => ⟨_, _, .swapping hp rfl, h, rfl⟩
  | store hp =>
    exact (variants_replaceIn_subset hh).imp_right fun h => ⟨_, _, .producing hp, h, rfl⟩
  | _ => exact .inl hh

theorem nextId_ensureSlot (s : Store) (key : Bytes) : (s.ensureSlot key).1.nextId = s.nextId := by
  rw [ensureSlot]
  cases s.slotOf key <;> rfl

theorem Turn.nextId_le {s b : Store} {i : Nat} {v : Visit} {m : Move} {p : Phase}
    (ht : Turn s i v m p b) : s.nextId ≤ b.nextId := by
  cases ht with
  | find => exact Nat.le_of_eq (nextId_ensureSlot s v.key).symm
  | swap | store => exact Nat.le_succ _
  | _ => exact Nat.le_refl _

/-- What is known after a move was known before, or it has just been stored under a new number. -/
theorem Turn.knows_cases {s b s' : Store} {i : Nat} {v : Visit} {m : Move} {p : Phase} {h : Held}
    (ht : Turn s i v m p b) (hg : Goes s i v p b s') (hv : s.visits[i]? = some v)
    (hh : s'.Knows h) :
    s.Knows h ∨
      ∃ previous e, Stores i v previous e m ∧ h = ⟨s.nextId, e⟩ ∧ b.nextId = s.nextId + 1 := by
  rcases hh with ⟨slot, hh⟩ | ⟨j, w, hw, hh⟩
  · rw [hg.variants] at hh
    exact (ht.variants_cases hh).imp_left fun hh => .inl ⟨slot, hh⟩
  · refine .inl ?_
    rcases hg.visit_cases hv hw with ⟨-, -, -, hp⟩ | ⟨-, hw'⟩
    · rcases ht.held_cases (hp ▸ hh) with hh | ⟨slot, -, hh⟩
      · exact .inr ⟨i, v, hv, hh⟩
      · exact .inl ⟨slot, hh⟩
    · exact .inr ⟨j, w, hw', hh⟩

theorem knows_begin {s : Store} {key : Bytes} {accepts : Entry → Bool} {h : Held}
    (hh : (s.begin key accepts).1.Knows h) : s.Knows h := by
  rcases hh with hh | ⟨j, w, hw, hh⟩
  · exact .inl hh
  · rcases visit_begin_cases hw with hw | ⟨-, -, hp⟩
    · exact .inr ⟨j, w, hw, hh⟩
    · simp [hp, Phase.held] at hh

theorem Numbered.move {s s' : Store} {m : Move} (hn : s.Numbered) (h : s.move m = some s') :
    s'.Numbered := by
  rcases move_cases h with ⟨key, accepts, -, rfl⟩ | ⟨-, -, rfl⟩ | ⟨i, v, p, b, hv, ht, hg⟩
  · exact ⟨fun h hh => hn.lt h (knows_begin hh),
      fun h h' hh hh' => hn.inj h h' (knows_begin hh) (knows_begin hh')⟩
  · exact hn
  · refine ⟨fun h hh => ?_, fun h h' hh hh' hid => ?_⟩
    · rw [hg.nextId]
      rcases ht.knows_cases hg hv hh with hh | ⟨_, _, -, rfl, hnext⟩
      · exact Nat.lt_of_lt_of_le (hn.lt h hh) ht.nextId_le
      · rw [hnext]
        exact Nat.lt_succ_self _
    · rcases ht.knows_cases hg hv hh with hh | ⟨_, e, hst, rfl, -⟩ <;>
        rcases ht.knows_cases hg hv hh' with hh' | ⟨_, e', hst', rfl, -⟩
      · exact hn.inj h h' hh hh' hid
      · exact absurd hid (Nat.ne_of_lt (hn.lt h hh))
      · exact absurd hid (Nat.ne_of_gt (hn.lt h' hh'))
      · rw [hst.entry_unique hst']

theorem Numbered.of_run {s₀ s : Store} {t : List (Store × Move)} (hrun : Run Store.move s₀ t s)
    (h₀ : s₀.Numbered) : s.Numbered :=
  hrun.invariant Numbered.move h₀

theorem numbered_empty : Numbered {} := by
  constructor <;> simp [Knows, variants]

theorem knows_of_mem {s : Store} {k : Bytes} {h : Held} (hh : h ∈ s.variantsOf k) : s.Knows h := by
  cases hk : s.slotOf k with
  | none => simp [variantsOf_eq_nil hk] at hh
  | some slot => exact .inl ⟨slot, variantsOf_eq hk ▸ hh⟩

/-- No number is twice under a key. -/
def Distinct (s : Store) : Prop :=
  ∀ k, (s.variantsOf k).Pairwise fun g h => g.id ≠ h.id

theorem distinct_kept {previous : Option Held} {l : List Held}
    (h : l.Pairwise fun g h => g.id ≠ h.id) :
    (kept previous l).Pairwise fun g h => g.id ≠ h.id := by
  cases previous with
  | none => exact h
  | some p => exact h.filter _

/-- Of entries with different numbers, the one of a number is that very entry. -/
theorem kept_eq_filter {previous : Option Held} {l : List Held}
    (hdistinct : l.Pairwise fun g h => g.id ≠ h.id) (hmem : ∀ h, previous = some h → h ∈ l) :
    kept previous l = l.filter fun h => some h ≠ previous := by
  have : Std.Symm fun g h : Held => g.id ≠ h.id := ⟨fun _ _ => Ne.symm⟩
  cases previous with
  | none => simp [kept]
  | some p =>
    refine List.filter_congr fun h hh => ?_
    by_cases heq : h = p
    · simp [heq]
    · have hid : h.id ≠ p.id := hdistinct.forall hh (hmem p rfl) heq
      simp [heq, hid]

theorem Distinct.move {s s' : Store} {m : Move} (hd : s.Distinct) (hs : Sound s) (hn : s.Numbered)
    (h : s.move m = some s') : s'.Distinct := by
  rcases move_cases h with ⟨key, accepts, -, rfl⟩ | ⟨-, -, rfl⟩ | ⟨i, v, p, b, hv, ht, hg⟩
  · exact hd
  · exact hd
  · intro k
    rw [hg.variantsOf]
    rcases ht.variantsOf_cases hs hv k with hb | ⟨_, _, _, _, _, hb⟩ | ⟨previous, e, _, _, hb⟩
    · rw [hb]
      exact hd k
    · rw [hb]
      exact (hd k).filter _
    · -- what is stored has a new number
      rw [hb]
      refine List.pairwise_append.2 ⟨distinct_kept (hd k), List.pairwise_singleton _ _, ?_⟩
      intro g hg h hh
      obtain rfl := List.mem_singleton.1 hh
      exact Nat.ne_of_lt (hn.lt g (knows_of_mem (mem_of_mem_kept hg)))

theorem Distinct.of_run {s₀ s : Store} {t : List (Store × Move)} (hrun : Run Store.move s₀ t s)
    (hs : Sound s₀) (hn : s₀.Numbered) (hd : s₀.Distinct) : s.Distinct := by
  have hall : Sound s ∧ s.Numbered ∧ s.Distinct :=
    hrun.invariant (P := fun s => Sound s ∧ s.Numbered ∧ s.Distinct)
      (fun ⟨hs, hn, hd⟩ h => ⟨hs.move h, hn.move h, hd.move hs hn h⟩) ⟨hs, hn, hd⟩
  exact hall.2.2

theorem distinct_empty : Distinct {} := fun _ => .nil

end Store
end EdgeCache
