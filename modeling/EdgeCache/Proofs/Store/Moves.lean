import EdgeCache.Proofs.Runs
import EdgeCache.Store.Basic

/-!
# The moves of a store

Everything that can happen to a store is a `Move`: a visit begins, takes a step, its producer
decides, or its task is gone.  A run of moves from the empty store is any interleaving of any number
of visits.

`Turn` says once what a move of a visit can be: from which phase to which, and what it makes of the
map and of the slots.  It leaves out in which order those that wait are let in, so what is derived
from it does not depend on that order.  `move_cases` reads a move as a turn; no later proof unfolds
`Store.step`.
-/

set_option autoImplicit false

namespace EdgeCache

/-- The result of a visit whose producer decides so. -/
def Outcome.result : Outcome → VisitResult
  | .replace _ | .keep => .ok ()
  | .fail e => .error e

namespace Store

/-! ## The map and the slots -/

@[simp] theorem slotOf_moveTo (s : Store) (i : Nat) (v : Visit) (p : Phase) :
    (s.moveTo i v p).slotOf = s.slotOf := rfl

@[simp] theorem slotOf_setVariants (s : Store) (slot : Nat) (held : List Held) :
    (s.setVariants slot held).slotOf = s.slotOf := rfl

@[simp] theorem slotOf_replaceIn (s : Store) (slot : Nat) (previous : Option Held) (e : Entry) :
    (s.replaceIn slot previous e).slotOf = s.slotOf := rfl

theorem slotOf_ensureSlot (s : Store) (key k : Bytes) :
    (s.ensureSlot key).1.slotOf k = if k = key then some (s.ensureSlot key).2 else s.slotOf k := by
  rw [ensureSlot]
  cases hs : s.slotOf key with
  | some slot =>
    by_cases hk : k = key
    · subst hk; simp [hs]
    · simp [hk]
  | none =>
    have hnone : s.map.find? (·.1 == key) = none := by
      simpa [slotOf] using hs
    by_cases hk : k = key
    · subst hk
      simp [slotOf, List.find?_append, hnone]
    · have hk' : ¬ key = k := fun h => hk h.symm
      simp [slotOf, List.find?_append, hk, hk']

@[simp] theorem variants_ensureSlot (s : Store) (key : Bytes) :
    (s.ensureSlot key).1.variants = s.variants := by
  funext slot
  rw [ensureSlot]
  cases s.slotOf key with
  | some _ => rfl
  | none =>
    simp only [variants, List.getD_eq_getElem?_getD]
    rcases Nat.lt_trichotomy slot s.slots.length with h | h | h
    · rw [List.getElem?_append_left h]
    · subst h; simp
    · rw [List.getElem?_eq_none (by simp; omega), List.getElem?_eq_none (by omega)]

theorem slotOf_dropSlot (s : Store) (key k : Bytes) :
    (s.dropSlot key).slotOf k = if k = key then none else s.slotOf k := by
  simp only [slotOf, dropSlot, List.find?_filter]
  by_cases hk : k = key
  · subst hk
    simp
  · rw [if_neg hk]
    congr 2
    funext p
    by_cases hp : p.1 = k
    · simp [hp, hk]
    · simp [hp]

theorem variants_setVariants (s : Store) {slot : Nat} (h : slot < s.slots.length)
    (held : List Held) (k : Nat) :
    (s.setVariants slot held).variants k = if k = slot then held else s.variants k := by
  simp only [variants, setVariants, List.getD_eq_getElem?_getD]
  by_cases hk : k = slot
  · subst hk; simp [h]
  · rw [List.getElem?_set_ne (Ne.symm hk), if_neg hk]

/-- The variants that stay when an entry takes the place of another. -/
def kept (previous : Option Held) (held : List Held) : List Held :=
  match previous with
  | some p => held.filter fun h => h.id != p.id
  | none => held

theorem variants_replaceIn (s : Store) {slot : Nat} (h : slot < s.slots.length)
    (previous : Option Held) (e : Entry) (k : Nat) :
    (s.replaceIn slot previous e).variants k =
      if k = slot then kept previous (s.variants slot) ++ [⟨s.nextId, e⟩] else s.variants k :=
  variants_setVariants s h _ k

/-! ## Moves -/

/-- What can happen to a store. -/
inductive Move where
  /-- A visit of a key begins, for the entries that would do. -/
  | begin (key : Bytes) (accepts : Entry → Bool)
  /-- A visit takes its next step, at a clock reading. -/
  | step (now : Instant) (i : Nat)
  /-- The producer of a visit decides. -/
  | finish (i : Nat) (outcome : Outcome)
  /-- The task that made a visit is gone. -/
  | lose (i : Nat)

/-- What becomes of the store; `none` if it cannot happen. -/
def move (s : Store) : Move → Option Store
  | .begin key accepts => some (s.begin key accepts).1
  | .step now i => s.step now i
  | .finish i outcome => s.finish i outcome
  | .lose i => some (s.lose i)

/-- One move of a visit: to which phase it goes, and what it makes of the rest of the store. -/
inductive Turn (s : Store) (i : Nat) (v : Visit) : Move → Phase → Store → Prop
  | takeMap {now : Instant} (h : v.phase = .arriving) (hfree : s.mapTaken = false) :
      Turn s i v (.step now i) .finding s
  | find {now : Instant} (h : v.phase = .finding) :
      Turn s i v (.step now i) (.found (s.ensureSlot v.key).2) (s.ensureSlot v.key).1
  | leaveMap {now : Instant} {slot : Nat} (h : v.phase = .found slot) :
      Turn s i v (.step now i) (.entering slot) s
  | readClock {now : Instant} {slot : Nat} (h : v.phase = .entering slot) :
      Turn s i v (.step now i) (.queueing slot now) s
  | takeRead {now read : Instant} {slot : Nat} (h : v.phase = .queueing slot read)
      (hfree : s.slotTaken slot = false) : Turn s i v (.step now i) (.scanning slot read) s
  | scanHit {now read : Instant} {slot : Nat} {held : Held} (h : v.phase = .scanning slot read)
      (hfind : freshPublic v.accepts read (s.variants slot) = some held) :
      Turn s i v (.step now i) (.reusing slot held) s
  | scanMiss {now read : Instant} {slot : Nat} (h : v.phase = .scanning slot read)
      (hfind : freshPublic v.accepts read (s.variants slot) = none) :
      Turn s i v (.step now i) (.claiming slot) s
  | takeSlot {now : Instant} {slot : Nat} (h : v.phase = .claiming slot)
      (hfree : s.slotTaken slot = false) (hunread : s.slotRead slot = false) :
      Turn s i v (.step now i) (.sweeping slot) s
  | sweepHit {now : Instant} {slot : Nat} {held : Held} (h : v.phase = .sweeping slot)
      (hfind : ((s.variants slot).filter fun h => !h.entry.expired now).find?
        (fun h => v.accepts h.entry) = some held)
      (hpublic : held.entry.isPublic = true) :
      Turn s i v (.step now i) (.reusing slot held)
        (s.setVariants slot ((s.variants slot).filter fun h => !h.entry.expired now))
  | sweepMiss {now : Instant} {slot : Nat} {previous : Option Held} (h : v.phase = .sweeping slot)
      (hfind : ((s.variants slot).filter fun h => !h.entry.expired now).find?
        (fun h => v.accepts h.entry) = previous)
      (hprivate : ∀ held, previous = some held → held.entry.isPublic = false) :
      Turn s i v (.step now i) (.producing slot previous)
        (s.setVariants slot ((s.variants slot).filter fun h => !h.entry.expired now))
  | takeBack {now : Instant} {slot : Nat} {held : Held} {e : Entry}
      (h : v.phase = .returning slot held e)
      (hfree : s.slotTaken slot = false) (hunread : s.slotRead slot = false) :
      Turn s i v (.step now i) (.swapping slot held e) s
  | swap {now : Instant} {slot : Nat} {held : Held} {e : Entry}
      (h : v.phase = .swapping slot held e) :
      Turn s i v (.step now i) (.leaving slot (.ok ())) (s.replaceIn slot (some held) e)
  | takeMapAgain {now : Instant} {slot : Nat} {r : VisitResult} (h : v.phase = .leaving slot r)
      (hfree : s.mapTaken = false) : Turn s i v (.step now i) (.checking slot r) s
  | giveUp {now : Instant} {slot : Nat} {r : VisitResult} (h : v.phase = .checking slot r)
      (hgives : s.givesUp v.key slot = true) :
      Turn s i v (.step now i) (.dropping slot r) (s.dropSlot v.key)
  | keepSlot {now : Instant} {slot : Nat} {r : VisitResult} (h : v.phase = .checking slot r)
      (hkeeps : s.givesUp v.key slot = false) : Turn s i v (.step now i) (.dropping slot r) s
  | drop {now : Instant} {slot : Nat} {r : VisitResult} (h : v.phase = .dropping slot r) :
      Turn s i v (.step now i) (.ended r) s
  | store {slot : Nat} {previous : Option Held} {e : Entry}
      (h : v.phase = .producing slot previous) :
      Turn s i v (.finish i (.replace e)) (.leaving slot (.ok ())) (s.replaceIn slot previous e)
  | giveBack {slot : Nat} {held : Held} {e : Entry} (h : v.phase = .reusing slot held) :
      Turn s i v (.finish i (.replace e)) (.returning slot held e) s
  | decline {slot : Nat} {outcome : Outcome} {r : VisitResult}
      (h : (∃ previous, v.phase = .producing slot previous) ∨ ∃ held, v.phase = .reusing slot held)
      (hr : ∀ e, outcome ≠ .replace e) :
      Turn s i v (.finish i outcome) (.leaving slot r) s
  | lose : Turn s i v (.lose i) .lost s

/-- `s'` is `b` but for the visit `i`, which has gone to a phase. -/
structure Goes (s : Store) (i : Nat) (v : Visit) (p : Phase) (b s' : Store) : Prop where
  map : s'.map = b.map
  slots : s'.slots = b.slots
  nextId : s'.nextId = b.nextId
  visits : ∃ since, s'.visits = s.visits.set i { v with phase := p, since }
  nextPlace : b.nextPlace ≤ s'.nextPlace
  /-- The visit keeps its place, or takes the next one. -/
  place : ∀ u, s'.visits[i]? = some u → u.since = v.since ∨ u.since < s'.nextPlace

theorem goes_moveTo {s b : Store} (hb : b.visits = s.visits) (i : Nat) (v : Visit) (p : Phase) :
    Goes s i v p b (b.moveTo i v p) := by
  refine ⟨rfl, rfl, rfl, ⟨v.since, by rw [← hb]; rfl⟩, Nat.le_refl _, fun u hu => .inl ?_⟩
  simp only [moveTo, setVisit, List.getElem?_set_self', Option.map_eq_map,
    Option.map_eq_some_iff] at hu
  obtain ⟨-, -, rfl⟩ := hu
  rfl

theorem goes_waitIn {s b : Store} (hb : b.visits = s.visits) (i : Nat) (v : Visit) (p : Phase) :
    Goes s i v p b (b.waitIn i v p) := by
  refine ⟨rfl, rfl, rfl, ⟨b.nextPlace, by rw [← hb]; rfl⟩, Nat.le_succ _, fun u hu => .inr ?_⟩
  simp only [waitIn, setVisit, List.getElem?_set_self', Option.map_eq_map,
    Option.map_eq_some_iff] at hu
  obtain ⟨-, -, rfl⟩ := hu
  exact Nat.lt_succ_self _

theorem visits_setVariants (s : Store) (slot : Nat) (held : List Held) :
    (s.setVariants slot held).visits = s.visits := rfl

theorem visits_replaceIn (s : Store) (slot : Nat) (previous : Option Held) (e : Entry) :
    (s.replaceIn slot previous e).visits = s.visits := rfl

theorem visits_dropSlot (s : Store) (key : Bytes) : (s.dropSlot key).visits = s.visits := rfl

theorem visits_ensureSlot (s : Store) (key : Bytes) :
    (s.ensureSlot key).1.visits = s.visits := by
  rw [ensureSlot]
  cases s.slotOf key <;> rfl

theorem step_cases {s s' : Store} {now : Instant} {i : Nat} (h : s.step now i = some s') :
    ∃ v p b, s.visits[i]? = some v ∧ Turn s i v (.step now i) p b ∧ Goes s i v p b s' := by
  rw [step] at h
  cases hv : s.visits[i]? with
  | none => simp [hv] at h
  | some v =>
    rw [hv] at h
    cases hp : v.phase with
    | arriving =>
      simp only [hp, Option.ite_none_right_eq_some, Option.some.injEq, mapOpens,
        Bool.and_eq_true, Bool.not_eq_true'] at h
      obtain ⟨⟨hfree, -⟩, rfl⟩ := h
      exact ⟨v, _, _, rfl, .takeMap hp hfree, goes_moveTo rfl i v _⟩
    | finding =>
      simp only [hp, Option.some.injEq] at h
      subst h
      exact ⟨v, _, _, rfl, .find hp, goes_moveTo (visits_ensureSlot s v.key) i v _⟩
    | found slot =>
      simp only [hp, Option.some.injEq] at h
      subst h
      exact ⟨v, _, _, rfl, .leaveMap hp, goes_moveTo rfl i v _⟩
    | entering slot =>
      simp only [hp, Option.some.injEq] at h
      subst h
      exact ⟨v, _, _, rfl, .readClock hp, goes_waitIn rfl i v _⟩
    | queueing slot read =>
      simp only [hp, Option.ite_none_right_eq_some, Option.some.injEq, readOpens,
        Bool.and_eq_true, Bool.not_eq_true'] at h
      obtain ⟨⟨hfree, -⟩, rfl⟩ := h
      exact ⟨v, _, _, rfl, .takeRead hp hfree, goes_moveTo rfl i v _⟩
    | scanning slot read =>
      simp only [hp] at h
      split at h
      · next held hfind =>
        rw [Option.some.injEq] at h
        subst h
        exact ⟨v, _, _, rfl, .scanHit hp hfind, goes_moveTo rfl i v _⟩
      · next hfind =>
        rw [Option.some.injEq] at h
        subst h
        exact ⟨v, _, _, rfl, .scanMiss hp hfind, goes_waitIn rfl i v _⟩
    | claiming slot =>
      simp only [hp, Option.ite_none_right_eq_some, Option.some.injEq, writeOpens,
        Bool.and_eq_true, Bool.not_eq_true'] at h
      obtain ⟨⟨⟨hfree, hunread⟩, -⟩, rfl⟩ := h
      exact ⟨v, _, _, rfl, .takeSlot hp hfree hunread, goes_moveTo rfl i v _⟩
    | sweeping slot =>
      simp only [hp] at h
      split at h
      · next held hfind =>
        split at h
        · next hpublic =>
          rw [Option.some.injEq] at h
          subst h
          exact ⟨v, _, _, rfl, .sweepHit hp hfind hpublic,
            goes_moveTo (visits_setVariants s slot _) i v _⟩
        · next hprivate =>
          rw [Option.some.injEq] at h
          subst h
          refine ⟨v, _, _, rfl, .sweepMiss hp hfind ?_,
            goes_moveTo (visits_setVariants s slot _) i v _⟩
          rintro held' ⟨rfl⟩
          simpa using hprivate
      · next hfind =>
        rw [Option.some.injEq] at h
        subst h
        exact ⟨v, _, _, rfl, .sweepMiss hp hfind (by simp),
          goes_moveTo (visits_setVariants s slot _) i v _⟩
    | producing slot previous => simp [hp] at h
    | reusing slot previous => simp [hp] at h
    | returning slot held e =>
      simp only [hp, Option.ite_none_right_eq_some, Option.some.injEq, writeOpens,
        Bool.and_eq_true, Bool.not_eq_true'] at h
      obtain ⟨⟨⟨hfree, hunread⟩, -⟩, rfl⟩ := h
      exact ⟨v, _, _, rfl, .takeBack hp hfree hunread, goes_moveTo rfl i v _⟩
    | swapping slot held e =>
      simp only [hp, Option.some.injEq] at h
      subst h
      exact ⟨v, _, _, rfl, .swap hp, goes_waitIn (visits_replaceIn s slot _ e) i v _⟩
    | leaving slot r =>
      simp only [hp, Option.ite_none_right_eq_some, Option.some.injEq, mapOpens,
        Bool.and_eq_true, Bool.not_eq_true'] at h
      obtain ⟨⟨hfree, -⟩, rfl⟩ := h
      exact ⟨v, _, _, rfl, .takeMapAgain hp hfree, goes_moveTo rfl i v _⟩
    | checking slot r =>
      simp only [hp, Option.some.injEq] at h
      subst h
      by_cases hg : s.givesUp v.key slot = true
      · rw [if_pos hg]
        exact ⟨v, _, _, rfl, .giveUp hp hg, goes_moveTo (visits_dropSlot s v.key) i v _⟩
      · rw [if_neg hg]
        exact ⟨v, _, _, rfl, .keepSlot hp (by simpa using hg), goes_moveTo rfl i v _⟩
    | dropping slot r =>
      simp only [hp, Option.some.injEq] at h
      subst h
      exact ⟨v, _, _, rfl, .drop hp, goes_moveTo rfl i v _⟩
    | ended r => simp [hp] at h
    | lost => simp [hp] at h

theorem finish_cases {s s' : Store} {i : Nat} {outcome : Outcome}
    (h : s.finish i outcome = some s') :
    ∃ v p b, s.visits[i]? = some v ∧ Turn s i v (.finish i outcome) p b ∧ Goes s i v p b s' := by
  rw [finish] at h
  cases hv : s.visits[i]? with
  | none => simp [hv] at h
  | some v =>
    rw [hv] at h
    cases hp : v.phase <;> cases outcome <;> simp only [hp, Option.some.injEq, reduceCtorEq] at h
    case producing.replace => subst h; exact ⟨v, _, _, rfl, .store hp,
        goes_waitIn (visits_replaceIn s _ _ _) i v _⟩
    case reusing.replace => subst h; exact ⟨v, _, _, rfl, .giveBack hp, goes_waitIn rfl i v _⟩
    case producing.keep | producing.fail =>
      subst h
      exact ⟨v, _, _, rfl, .decline (.inl ⟨_, hp⟩) nofun, goes_waitIn rfl i v _⟩
    case reusing.keep | reusing.fail =>
      subst h
      exact ⟨v, _, _, rfl, .decline (.inr ⟨_, hp⟩) nofun, goes_waitIn rfl i v _⟩

/-- When a producer has decided, and nothing is left to be stored, the visit reports what it has
decided. -/
theorem result_of_finish {s s' : Store} {i slot : Nat} {outcome : Outcome} {v : Visit}
    {r : VisitResult} (h : s.finish i outcome = some s') (hv : s'.visits[i]? = some v)
    (hp : v.phase = .leaving slot r) : r = outcome.result := by
  obtain ⟨u, -, -, hu, -⟩ := finish_cases h
  have hi : i < s.visits.length := (List.getElem?_eq_some_iff.1 hu).1
  have hset : ∀ {w : Visit}, (s.visits.set i w)[i]? = some v → v = w := fun hw =>
    Option.some.inj (hw.symm.trans (List.getElem?_set_self hi))
  rw [finish] at h
  rw [hu] at h
  cases hph : u.phase <;> cases outcome <;> simp only [hph, Option.some.injEq, reduceCtorEq] at h
  case reusing.replace =>
    -- this one goes back to the slot first
    subst h
    obtain rfl := hset hv
    cases hp
  all_goals
    subst h
    obtain rfl := hset hv
    cases hp
    rfl

/-- **What a move is.**  A visit begins, or one visit takes a turn, or the task of a visit that
there never was is gone, which changes nothing. -/
theorem move_cases {s s' : Store} {m : Move} (h : s.move m = some s') :
    (∃ key accepts, m = .begin key accepts ∧ s' = (s.begin key accepts).1) ∨
    (∃ i, m = .lose i ∧ s' = s) ∨
    ∃ i v p b, s.visits[i]? = some v ∧ Turn s i v m p b ∧ Goes s i v p b s' := by
  cases m with
  | begin key accepts => exact .inl ⟨key, accepts, rfl, (Option.some.inj h).symm⟩
  | step now i => exact .inr (.inr ⟨i, step_cases h⟩)
  | finish i outcome => exact .inr (.inr ⟨i, finish_cases h⟩)
  | lose i =>
    have hs : s' = s.lose i := (Option.some.inj h).symm
    subst hs
    rw [lose]
    cases hv : s.visits[i]? with
    | none => exact .inr (.inl ⟨i, rfl, rfl⟩)
    | some v => exact .inr (.inr ⟨i, v, _, _, hv, .lose, goes_moveTo rfl i v _⟩)

/-! ## Moves to begin with -/

/-- An entry of which little is said. -/
def plainEntry (isPublic : Bool) (expires : Int) : Entry :=
  { isPublic, expiration := ⟨expires, 0⟩, requestHeaders := {}, head := ⟨.ok, {}⟩, body := none }

/-- The visit `i` stores an entry beside what there is. -/
def storing (i : Nat) (key : Bytes) (e : Entry) : List Move :=
  .begin key (fun _ => false) :: List.replicate 8 (.step ⟨0, 0⟩ i) ++
    .finish i (.replace e) :: List.replicate 3 (.step ⟨0, 0⟩ i)

end Store
end EdgeCache
