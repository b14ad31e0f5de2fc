import EdgeCache.Proofs.Store.Contents
import Mathlib.Data.List.Forall2

/-!
# Stores that are alike but for their numbers

Visits, slots, entries and bodies are numbered in the order in which they come, over all keys
together.  Of two stores one of which has only seen the visits of one key, the same things have
different numbers therefore.  `Links` says which number of the one store stands for which number of
the other; it only grows, and is one to one (`Matched`).  Everything that mentions such numbers is
*alike* in the two stores if it is the same but for numbers that are linked.

The counters of the two stores may move on independently of each other: a link that is added is
between two numbers that have not been given out yet (`Matched.also`).
-/

set_option autoImplicit false

namespace EdgeCache

/-! ## Numbers that stand for each other -/

/-- The relation, and one more pair. -/
def also (r : Nat → Nat → Prop) (a a' : Nat) : Nat → Nat → Prop :=
  fun b b' => r b b' ∨ (b = a ∧ b' = a')

/-- Numbers below two bounds are related one to one. -/
structure Matched (r : Nat → Nat → Prop) (n n' : Nat) : Prop where
  lt : ∀ {a a' : Nat}, r a a' → a < n ∧ a' < n'
  one : ∀ {a a' b b' : Nat}, r a a' → r b b' → (a = b ↔ a' = b')

namespace Matched

variable {r : Nat → Nat → Prop} {n n' m m' : Nat}

theorem none (n n' : Nat) : Matched (fun _ _ => False) n n' := ⟨False.elim, fun h => h.elim⟩

theorem grow (h : Matched r n n') (hle : n ≤ m) (hle' : n' ≤ m') : Matched r m m' :=
  ⟨fun ha => ⟨Nat.lt_of_lt_of_le (h.lt ha).1 hle, Nat.lt_of_lt_of_le (h.lt ha).2 hle'⟩, h.one⟩

/-- The next two numbers can be related. -/
theorem also (h : Matched r n n') : Matched (also r n n') (n + 1) (n' + 1) where
  lt ha := by
    rcases ha with ha | ⟨rfl, rfl⟩
    · exact ⟨Nat.lt_succ_of_lt (h.lt ha).1, Nat.lt_succ_of_lt (h.lt ha).2⟩
    · exact ⟨Nat.lt_succ_self _, Nat.lt_succ_self _⟩
  one ha hb := by
    rcases ha with ha | ⟨rfl, rfl⟩ <;> rcases hb with hb | ⟨rfl, rfl⟩
    · exact h.one ha hb
    · have := h.lt ha
      omega
    · have := h.lt hb
      omega
    · simp

end Matched

/-- Which numbers of one store stand for which of another. -/
structure Links where
  visit : Nat → Nat → Prop
  slot : Nat → Nat → Prop
  entry : Nat → Nat → Prop
  body : Nat → Nat → Prop

namespace Links

/-- Nothing is linked. -/
def none : Links := ⟨fun _ _ => False, fun _ _ => False, fun _ _ => False, fun _ _ => False⟩

/-- What is linked stays so. -/
structure Within (L L' : Links) : Prop where
  visit : ∀ {a a' : Nat}, L.visit a a' → L'.visit a a'
  slot : ∀ {a a' : Nat}, L.slot a a' → L'.slot a a'
  entry : ∀ {a a' : Nat}, L.entry a a' → L'.entry a a'
  body : ∀ {a a' : Nat}, L.body a a' → L'.body a a'

theorem Within.refl (L : Links) : L.Within L := ⟨id, id, id, id⟩

theorem Within.trans {L L' L'' : Links} (h : L.Within L') (h' : L'.Within L'') : L.Within L'' :=
  ⟨h'.visit ∘ h.visit, h'.slot ∘ h.slot, h'.entry ∘ h.entry, h'.body ∘ h.body⟩

section Also

variable (L : Links) (a a' : Nat)

def alsoVisit : Links := { L with visit := also L.visit a a' }

def alsoSlot : Links := { L with slot := also L.slot a a' }

def alsoEntry : Links := { L with entry := also L.entry a a' }

def alsoBody : Links := { L with body := also L.body a a' }

theorem within_alsoVisit : L.Within (L.alsoVisit a a') := ⟨.inl, id, id, id⟩

theorem within_alsoSlot : L.Within (L.alsoSlot a a') := ⟨id, .inl, id, id⟩

theorem within_alsoEntry : L.Within (L.alsoEntry a a') := ⟨id, id, .inl, id⟩

theorem within_alsoBody : L.Within (L.alsoBody a a') := ⟨id, id, id, .inl⟩

end Also

end Links

/-! ## Options and lists -/

section Lists

variable {α β : Type} {r r' : α → β → Prop}

theorem rel_imp {a : Option α} {b : Option β} (h : Option.Rel r a b)
    (hr : ∀ {x y}, r x y → r' x y) : Option.Rel r' a b := by
  cases h with
  | some h => exact .some (hr h)
  | none => exact .none

theorem rel_some {a : α} {b : Option β} (h : Option.Rel r (some a) b) :
    ∃ c, b = some c ∧ r a c := by
  cases h with
  | some h => exact ⟨_, rfl, h⟩

theorem rel_none {b : Option β} (h : Option.Rel r none b) : b = none := by
  cases h
  rfl

theorem rel_getElem? {l : List α} {l' : List β} (h : List.Forall₂ r l l') (i : Nat) :
    Option.Rel r l[i]? l'[i]? := by
  induction h generalizing i with
  | nil => exact .none
  | cons hab _ ih =>
    cases i with
    | zero => exact .some hab
    | succ i => exact ih i

theorem rel_find? {p : α → Bool} {p' : β → Bool} {l : List α} {l' : List β}
    (h : List.Forall₂ r l l') (hp : ∀ {a b}, r a b → p a = p' b) :
    Option.Rel r (l.find? p) (l'.find? p') := by
  induction h with
  | nil => exact .none
  | @cons a b l l' hab _ ih =>
    rw [List.find?_cons, List.find?_cons, hp hab]
    cases p' b with
    | true => exact .some hab
    | false => exact ih

end Lists

/-! ## Entries -/

/-- Bodies are alike if they are the same, or have numbers that are linked. -/
inductive StoredBody.Alike (L : Links) : StoredBody → StoredBody → Prop
  | growing {id id' : Nat} (h : L.body id id') : Alike L (.growing id) (.growing id')
  | fixed (chunks : List Bytes) (failure : Option String) :
      Alike L (.fixed chunks failure) (.fixed chunks failure)

/-- Entries are alike if they are the same but for their bodies, and these are alike. -/
structure Entry.Alike (L : Links) (e e' : Entry) : Prop where
  isPublic : e'.isPublic = e.isPublic
  expiration : e'.expiration = e.expiration
  requestHeaders : e'.requestHeaders = e.requestHeaders
  head : e'.head = e.head
  body : Option.Rel (StoredBody.Alike L) e.body e'.body

structure Held.Alike (L : Links) (h h' : Held) : Prop where
  id : L.entry h.id h'.id
  entry : h.entry.Alike L h'.entry

/-- Decisions are alike if the entries to be stored are. -/
inductive Outcome.Alike (L : Links) : Outcome → Outcome → Prop
  | replace {e e' : Entry} (he : e.Alike L e') : Alike L (.replace e) (.replace e')
  | keep : Alike L .keep .keep
  | fail (cause : CacheError) : Alike L (.fail cause) (.fail cause)

/-- A choice of entries that does not look at their bodies. -/
def Blindfold (accepts : Entry → Bool) : Prop :=
  ∀ e e' : Entry, e'.requestHeaders = e.requestHeaders → e'.head = e.head → accepts e = accepts e'

theorem blindfold_answers (headers : Headers) : Blindfold fun e => e.answers headers := by
  intro e e' hr hh
  simp only [Entry.answers, hr, hh]

section Entries

variable {L L' : Links}

theorem StoredBody.Alike.mono {b b' : StoredBody} (h : b.Alike L b') (hL : L.Within L') :
    b.Alike L' b' := by
  cases h with
  | growing h => exact .growing (hL.body h)
  | fixed chunks failure => exact .fixed chunks failure

theorem Entry.Alike.mono {e e' : Entry} (h : e.Alike L e') (hL : L.Within L') : e.Alike L' e' :=
  { h with body := rel_imp h.body fun hb => hb.mono hL }

theorem Held.Alike.mono {h h' : Held} (ha : h.Alike L h') (hL : L.Within L') : h.Alike L' h' :=
  ⟨hL.entry ha.id, ha.entry.mono hL⟩

theorem Entry.Alike.expired {e e' : Entry} (h : e.Alike L e') (now : Instant) :
    e'.expired now = e.expired now := by
  rw [Entry.expired, Entry.expired, h.expiration]

theorem Blindfold.alike {accepts : Entry → Bool} (hb : Blindfold accepts) {e e' : Entry}
    (h : e.Alike L e') : accepts e = accepts e' :=
  hb e e' h.requestHeaders h.head

end Entries

/-! ## Visits -/

namespace Store

/-- Phases are alike if they are the same but for slots that are linked and entries that are
alike. -/
inductive Phase.Alike (L : Links) : Phase → Phase → Prop
  | arriving : Alike L .arriving .arriving
  | finding : Alike L .finding .finding
  | found {a a' : Nat} (hs : L.slot a a') : Alike L (.found a) (.found a')
  | entering {a a' : Nat} (hs : L.slot a a') : Alike L (.entering a) (.entering a')
  | queueing {a a' : Nat} (hs : L.slot a a') (now : Instant) :
      Alike L (.queueing a now) (.queueing a' now)
  | scanning {a a' : Nat} (hs : L.slot a a') (now : Instant) :
      Alike L (.scanning a now) (.scanning a' now)
  | claiming {a a' : Nat} (hs : L.slot a a') : Alike L (.claiming a) (.claiming a')
  | sweeping {a a' : Nat} (hs : L.slot a a') : Alike L (.sweeping a) (.sweeping a')
  | producing {a a' : Nat} {previous previous' : Option Held} (hs : L.slot a a')
      (hp : Option.Rel (Held.Alike L) previous previous') :
      Alike L (.producing a previous) (.producing a' previous')
  | reusing {a a' : Nat} {h h' : Held} (hs : L.slot a a') (hp : h.Alike L h') :
      Alike L (.reusing a h) (.reusing a' h')
  | returning {a a' : Nat} {h h' : Held} {e e' : Entry} (hs : L.slot a a') (hp : h.Alike L h')
      (he : e.Alike L e') : Alike L (.returning a h e) (.returning a' h' e')
  | swapping {a a' : Nat} {h h' : Held} {e e' : Entry} (hs : L.slot a a') (hp : h.Alike L h')
      (he : e.Alike L e') : Alike L (.swapping a h e) (.swapping a' h' e')
  | leaving {a a' : Nat} (hs : L.slot a a') (r : VisitResult) :
      Alike L (.leaving a r) (.leaving a' r)
  | checking {a a' : Nat} (hs : L.slot a a') (r : VisitResult) :
      Alike L (.checking a r) (.checking a' r)
  | dropping {a a' : Nat} (hs : L.slot a a') (r : VisitResult) :
      Alike L (.dropping a r) (.dropping a' r)
  | ended (r : VisitResult) : Alike L (.ended r) (.ended r)
  | lost : Alike L .lost .lost

/-- Visits of the key are alike if their phases are. -/
structure Visit.Alike (k : Bytes) (L : Links) (u u' : Visit) : Prop where
  key : u.key = k
  key' : u'.key = k
  accepts : u'.accepts = u.accepts
  blindfold : Blindfold u.accepts
  phase : u.phase.Alike L u'.phase

section Phases

variable {L L' : Links} {p p' : Phase} {n n' : Nat}

theorem Phase.Alike.mono (h : p.Alike L p') (hL : L.Within L') : p.Alike L' p' := by
  cases h with
  | producing hs hp => exact .producing (hL.slot hs) (rel_imp hp fun h => h.mono hL)
  | reusing hs hp => exact .reusing (hL.slot hs) (hp.mono hL)
  | returning hs hp he => exact .returning (hL.slot hs) (hp.mono hL) (he.mono hL)
  | swapping hs hp he => exact .swapping (hL.slot hs) (hp.mono hL) (he.mono hL)
  | arriving => exact .arriving
  | finding => exact .finding
  | found hs => exact .found (hL.slot hs)
  | entering hs => exact .entering (hL.slot hs)
  | queueing hs now => exact .queueing (hL.slot hs) now
  | scanning hs now => exact .scanning (hL.slot hs) now
  | claiming hs => exact .claiming (hL.slot hs)
  | sweeping hs => exact .sweeping (hL.slot hs)
  | leaving hs r => exact .leaving (hL.slot hs) r
  | checking hs r => exact .checking (hL.slot hs) r
  | dropping hs r => exact .dropping (hL.slot hs) r
  | ended r => exact .ended r
  | lost => exact .lost

theorem Phase.Alike.atMap (h : p.Alike L p') : p'.atMap = p.atMap := by
  cases h <;> rfl

theorem Phase.Alike.wantsMap (h : p.Alike L p') : p'.wantsMap = p.wantsMap := by
  cases h <;> rfl

theorem Phase.Alike.result (h : p.Alike L p') : p'.result = p.result := by
  cases h <;> rfl

theorem Phase.Alike.handle (h : p.Alike L p') : Option.Rel L.slot p.handle p'.handle := by
  cases h <;> first | exact .none | exact .some ‹_›

/-- The slot of a visit that is seen is linked. -/
theorem Phase.Alike.slot_of_handle {a : Nat} (h : p.Alike L p') (ha : p.handle = some a) :
    ∃ a', L.slot a a' := by
  have hrel := h.handle
  rw [ha] at hrel
  generalize p'.handle = b at hrel
  cases hrel with
  | some hb => exact ⟨_, hb⟩

theorem Phase.Alike.handed (h : p.Alike L p') :
    Option.Rel (Option.Rel (Held.Alike L)) p.handed p'.handed := by
  cases h with
  | producing hs hp => exact .some hp
  | reusing hs hp => exact .some (.some hp)
  | _ => exact .none

section Slot

variable {a a' : Nat}

/-- Whether a slot is meant does not depend on the numbers. -/
theorem beq_slot (hm : Matched L.slot n n') (ha : L.slot a a') {b b' : Nat} (hb : L.slot b b') :
    (b' == a') = (b == a) := by
  rw [Bool.eq_iff_iff, beq_iff_eq, beq_iff_eq]
  exact (hm.one hb ha).symm

theorem Phase.Alike.reading (h : p.Alike L p') (hm : Matched L.slot n n') (ha : L.slot a a') :
    p'.reading a' = p.reading a := by
  cases h <;> first | rfl | exact beq_slot hm ha ‹_›

theorem Phase.Alike.writing (h : p.Alike L p') (hm : Matched L.slot n n') (ha : L.slot a a') :
    p'.writing a' = p.writing a := by
  cases h <;> first | rfl | exact beq_slot hm ha ‹_›

theorem Phase.Alike.wantsRead (h : p.Alike L p') (hm : Matched L.slot n n') (ha : L.slot a a') :
    p'.wantsRead a' = p.wantsRead a := by
  cases h <;> first | rfl | exact beq_slot hm ha ‹_›

theorem Phase.Alike.wantsWrite (h : p.Alike L p') (hm : Matched L.slot n n') (ha : L.slot a a') :
    p'.wantsWrite a' = p.wantsWrite a := by
  cases h <;> first | rfl | exact beq_slot hm ha ‹_›

end Slot

theorem Visit.Alike.mono {k : Bytes} {u u' : Visit} (h : u.Alike k L u') (hL : L.Within L') :
    u.Alike k L' u' :=
  { h with phase := h.phase.mono hL }

end Phases

/-! ## What is found -/

section Found

variable {L : Links} {accepts : Entry → Bool} {l l' : List Held}

theorem rel_unexpired (h : List.Forall₂ (Held.Alike L) l l') (now : Instant) :
    List.Forall₂ (Held.Alike L) (l.filter fun h => !h.entry.expired now)
      (l'.filter fun h => !h.entry.expired now) :=
  List.rel_filter (fun _ _ hab => by simp only [hab.entry.expired]) h

theorem rel_accepted (hb : Blindfold accepts) (h : List.Forall₂ (Held.Alike L) l l') :
    Option.Rel (Held.Alike L) (l.find? fun h => accepts h.entry)
      (l'.find? fun h => accepts h.entry) :=
  rel_find? h fun hab => hb.alike hab.entry

theorem rel_freshPublic (hb : Blindfold accepts) (h : List.Forall₂ (Held.Alike L) l l')
    (now : Instant) :
    Option.Rel (Held.Alike L) (freshPublic accepts now l) (freshPublic accepts now l') := by
  have hfind : Option.Rel (Held.Alike L) (l.find? fun h => !h.entry.expired now && accepts h.entry)
      (l'.find? fun h => !h.entry.expired now && accepts h.entry) :=
    rel_find? h fun hab => by rw [hab.entry.expired, hb.alike hab.entry]
  rw [freshPublic, freshPublic]
  generalize l.find? _ = found, l'.find? _ = found' at hfind ⊢
  cases hfind with
  | none => exact .none
  | @some a b hab =>
    simp only [hab.entry.isPublic]
    cases a.entry.isPublic with
    | true => exact .some hab
    | false => exact .none

theorem rel_kept {n n' : Nat} {previous previous' : Option Held} (hm : Matched L.entry n n')
    (hp : Option.Rel (Held.Alike L) previous previous') (h : List.Forall₂ (Held.Alike L) l l') :
    List.Forall₂ (Held.Alike L) (kept previous l) (kept previous' l') := by
  cases hp with
  | none => exact h
  | @some p p' hp =>
    refine List.rel_filter (fun a b hab => ?_) h
    simp only [bne_iff_ne, ne_eq, hm.one hab.id hp.id]

end Found

end Store
end EdgeCache
