import EdgeCache.Serving.Lobby
import Mathlib.Data.List.Basic

/-!
# Who is let in

What a lobby counts, in whatever order connections arrive, are counted, are judged and leave.  The
count is the number of connections inside and of those that are counted and not judged yet
(`Sound.count_eq`), so it may be over the limit for a while.  The connections inside are not: those
inside and those that will be let in are together no more than the limit (`Sound.room`), since each
of the latter has found fewer before it.

What becomes of a connection is settled when it is counted (`Fate`).
-/

set_option autoImplicit false

namespace EdgeCache.Serving

namespace Lobby

/-- The lobby when a connection comes to stand elsewhere. -/
def moved (l : Lobby) (i : Nat) (v : Standing) (count : Int) : Lobby :=
  { l with count, visitors := l.visitors.set i v }

/-- What happens in a lobby, with all that it takes. -/
inductive Passage (l : Lobby) : Turn → Lobby → Prop
  | arrives : Passage l .arrive l.arrive
  | counted {i : Nat} (h : l.visitors[i]? = some .arriving) :
      Passage l (.step i) (l.moved i (.counted l.count) (l.count + 1))
  | letIn {i : Nat} {before : Int} (h : l.visitors[i]? = some (.counted before))
      (hroom : l.admits before = true) : Passage l (.step i) (l.moved i .inside l.count)
  | turnedAway {i : Nat} {before : Int} (h : l.visitors[i]? = some (.counted before))
      (hfull : l.admits before = false) :
      Passage l (.step i) (l.moved i (.refused before) (l.count - 1))
  | left {i : Nat} (h : l.visitors[i]? = some .inside) :
      Passage l (.leave i) (l.moved i .gone (l.count - 1))

variable {l l' : Lobby} {turn : Turn}

theorem passage_of_next (h : l.next turn = some l') : Passage l turn l' := by
  cases turn with
  | arrive => exact Option.some.inj h ▸ .arrives
  | step i =>
    rw [next, step] at h
    split at h
    · next hi => exact Option.some.inj h ▸ .counted hi
    · next before hi =>
      split at h
      · next hroom => exact Option.some.inj h ▸ .letIn hi hroom
      · next hfull => exact Option.some.inj h ▸ .turnedAway hi (Bool.eq_false_iff.2 hfull)
    · exact absurd h (by simp)
  | leave i =>
    rw [next, leave] at h
    split at h
    · next hi => exact Option.some.inj h ▸ .left hi
    · exact absurd h (by simp)

theorem Passage.limit (h : Passage l turn l') : l'.limit = l.limit := by cases h <;> rfl

theorem Passage.admits (h : Passage l turn l') (before : Int) :
    l'.admits before = l.admits before := by
  rw [Lobby.admits, Lobby.admits, h.limit]

/-! ## Counting -/

/-- The connection is counted and will be let in. -/
def welcomes (l : Lobby) : Standing → Bool
  | .counted before => l.admits before
  | _ => false

/-- The number of connections that are counted and will be let in. -/
def welcome (l : Lobby) : Nat := l.visitors.countP l.welcomes

theorem welcome_le_pending (l : Lobby) : l.welcome ≤ l.pending := by
  refine List.countP_mono_left fun v _ hv => ?_
  cases v with
  | counted => rfl
  | _ => exact absurd hv (by simp [welcomes])

/-- What is counted of a list when one of its members is replaced. -/
theorem countP_set_add {α : Type} {p : α → Bool} {a b : α} :
    ∀ {xs : List α} {i : Nat}, xs[i]? = some a →
      (xs.set i b).countP p + (p a).toNat = xs.countP p + (p b).toNat
  | [], _, h => by simp at h
  | x :: xs, 0, h => by
    obtain rfl : x = a := by simpa using h
    cases hx : p x <;> cases hb : p b <;> simp [hx, hb]
  | x :: xs, i + 1, h => by
    have ih := countP_set_add (p := p) (b := b) (by simpa using h : xs[i]? = some a)
    cases hx : p x <;> simp [hx] <;> omega

section Moved

variable {i : Nat} {v : Standing} (v' : Standing) (count : Int)

theorem inside_moved (h : l.visitors[i]? = some v) :
    (l.moved i v' count).inside + v.isInside.toNat = l.inside + v'.isInside.toNat :=
  countP_set_add h

theorem pending_moved (h : l.visitors[i]? = some v) :
    (l.moved i v' count).pending + v.isCounted.toNat = l.pending + v'.isCounted.toNat :=
  countP_set_add h

theorem welcome_moved (h : l.visitors[i]? = some v) :
    (l.moved i v' count).welcome + (l.welcomes v).toNat = l.welcome + (l.welcomes v').toNat :=
  countP_set_add h

theorem getElem?_moved_self (h : l.visitors[i]? = some v) :
    (l.moved i v' count).visitors[i]? = some v' :=
  List.getElem?_set_self (List.getElem?_eq_some_iff.1 h).1

theorem getElem?_moved_ne {j : Nat} (h : i ≠ j) :
    (l.moved i v' count).visitors[j]? = l.visitors[j]? :=
  List.getElem?_set_ne h

end Moved

theorem getElem?_arrive {j : Nat} {v : Standing} (h : l.visitors[j]? = some v) :
    l.arrive.visitors[j]? = some v :=
  (List.getElem?_append_left (List.getElem?_eq_some_iff.1 h).1).trans h

theorem inside_arrive : l.arrive.inside = l.inside := by simp [arrive, inside, Standing.isInside]

/-- What the count of a lobby stands for. -/
structure Sound (l : Lobby) : Prop where
  count_eq : l.count = l.inside + l.pending
  /-- There is room for those who are inside and for those who will be. -/
  room : ∀ m, l.limit = some m → l.inside + l.welcome ≤ m

namespace Sound

theorem empty (limit : Option Nat) : Sound { limit } := ⟨rfl, fun m _ => Nat.zero_le m⟩

theorem inside_le (h : Sound l) {m : Nat} (hm : l.limit = some m) : l.inside ≤ m :=
  Nat.le_trans (Nat.le_add_right _ _) (h.room m hm)

theorem arrive (h : Sound l) : Sound l.arrive := by
  have hpending : l.arrive.pending = l.pending := by
    simp [Lobby.arrive, pending, Standing.isCounted]
  have hwelcome : l.arrive.welcome = l.welcome := by
    rw [welcome, Lobby.arrive, List.countP_append]
    rfl
  refine ⟨?_, fun m hm => ?_⟩
  · rw [inside_arrive, hpending]
    exact h.count_eq
  · rw [inside_arrive, hwelcome]
    exact h.room m hm

/-- A connection comes to stand elsewhere: the count goes with it, and there is room for it. -/
theorem moved {i : Nat} {v v' : Standing} {count : Int} (h : Sound l)
    (hi : l.visitors[i]? = some v)
    (hcount : count + (v.isInside.toNat + v.isCounted.toNat : Nat) =
      l.count + (v'.isInside.toNat + v'.isCounted.toNat : Nat))
    (hroom : ∀ m, l.limit = some m → l.inside + l.welcome ≤ m →
      l.inside + l.welcome + (v'.isInside.toNat + (l.welcomes v').toNat) ≤
        m + (v.isInside.toNat + (l.welcomes v).toNat)) :
    Sound (l.moved i v' count) := by
  have hinside := inside_moved v' count hi
  have hpending := pending_moved v' count hi
  have hwelcome := welcome_moved v' count hi
  refine ⟨?_, fun m hm => ?_⟩
  · have heq := h.count_eq
    change count = _
    omega
  · have := hroom m hm (h.room m hm)
    omega

/-- Whoever will be let in has found fewer before it than the limit, and that many were all who were
inside and all who were counted. -/
theorem counted (h : Sound l) {i : Nat} (hi : l.visitors[i]? = some .arriving) :
    Sound (l.moved i (.counted l.count) (l.count + 1)) := by
  refine h.moved hi (by simp [Standing.isInside, Standing.isCounted]) fun m hm hle => ?_
  simp only [Standing.isInside, welcomes, Bool.toNat_false]
  cases hadmits : l.admits l.count with
  | false => simpa using hle
  | true =>
    have hfewer : l.count < m := by simpa [Lobby.admits, hm] using hadmits
    have hcount := h.count_eq
    have := l.welcome_le_pending
    simp only [Bool.toNat_true]
    omega

theorem passage (h : Sound l) (hp : Passage l turn l') : Sound l' := by
  cases hp with
  | arrives => exact h.arrive
  | counted hi => exact h.counted hi
  | letIn hi hroom =>
    exact h.moved hi (by simp [Standing.isInside, Standing.isCounted])
      (by simp [Standing.isInside, welcomes, hroom])
  | turnedAway hi hfull =>
    exact h.moved hi (by simp [Standing.isInside, Standing.isCounted])
      (by simp [Standing.isInside, welcomes, hfull])
  | left hi =>
    refine h.moved hi (by simp [Standing.isInside, Standing.isCounted]) fun m _ hle => ?_
    simp only [Standing.isInside, welcomes, Bool.toNat_true, Bool.toNat_false]
    omega

end Sound

/-! ## What becomes of a connection -/

/-- Where a connection can stand that has found so many before it. -/
def Allots (l : Lobby) (before : Int) : Standing → Prop
  | .arriving => False
  | .counted b => b = before
  | .inside | .gone => l.admits before = true
  | .refused b => b = before ∧ l.admits before = false

/-- What becomes of a connection is settled by how many it has found before it. -/
def Fate (l : Lobby) (i : Nat) (before : Int) : Prop :=
  ∃ v, l.visitors[i]? = some v ∧ l.Allots before v

theorem Passage.allots (hp : Passage l turn l') {before : Int} {v : Standing} :
    l'.Allots before v ↔ l.Allots before v := by
  cases v <;> simp only [Allots, hp.admits]

theorem Fate.moved {i j : Nat} {before count : Int} {v v' : Standing} (h : l.Fate i before)
    (hj : l.visitors[j]? = some v) (hv : l.Allots before v → l.Allots before v') :
    ∃ u, (l.moved j v' count).visitors[i]? = some u ∧ l.Allots before u := by
  obtain ⟨u, hi, hu⟩ := h
  by_cases hij : j = i
  · subst hij
    obtain rfl : v = u := Option.some.inj (hj.symm.trans hi)
    exact ⟨v', getElem?_moved_self _ _ hj, hv hu⟩
  · exact ⟨u, (getElem?_moved_ne _ _ hij).trans hi, hu⟩

theorem Fate.passage {i : Nat} {before : Int} (h : l.Fate i before) (hp : Passage l turn l') :
    l'.Fate i before := by
  simp only [Fate, hp.allots]
  cases hp with
  | arrives =>
    obtain ⟨v, hi, hv⟩ := h
    exact ⟨v, getElem?_arrive hi, hv⟩
  | counted hj => exact h.moved hj False.elim
  | letIn hj hroom => exact h.moved hj fun hb => hb ▸ hroom
  | turnedAway hj hfull => exact h.moved hj fun hb => ⟨hb, hb ▸ hfull⟩
  | left hj => exact h.moved hj id

/-- A connection that is counted stands by what it has found. -/
theorem fate_counted {i : Nat} (hi : l.visitors[i]? = some .arriving) :
    (l.moved i (.counted l.count) (l.count + 1)).Fate i l.count :=
  ⟨_, getElem?_moved_self _ _ hi, rfl⟩

end Lobby
end EdgeCache.Serving
