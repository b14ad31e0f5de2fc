import EdgeCache.Proofs.Runs
import EdgeCache.Store.Body

/-!
# A sink and its readers

One sink writes a body, chunk by chunk, and ends by closing it or by being dropped.  Readers begin
at any time, and each gives the chunks one by one.  `Publication` is the system of all of them; its
happenings are what the sink does, that a reader begins, and that a reader looks.  A reader that
waits, and has nothing new to see, does not look.

The argument has one idea.  A reader that waits remembers the version that it has seen
(`Reader.Follows`): as long as the version is the same it has given everything, and what the sink
does afterwards makes the version greater.  So it never waits with a chunk before it, and when it
notices that the sink is gone, there is nothing left to give.

`Reader.Look` says once what a look comes to; the lemmas on readers are case analyses of it.
-/

set_option autoImplicit false

namespace EdgeCache

/-! ## One look -/

namespace Reader

/-- What a reader meets when it looks at a body, and when. -/
inductive Look (r : Reader) (g : Growing) : Reading → Prop
  | waits (hw : r.waiting = true) (hseen : r.seen = g.version) (hattached : g.attached = true) :
      Look r g .pending
  | wakes (hw : r.waiting = true) (hseen : r.seen ≠ g.version) :
      Look r g (.turning { r with waiting := false, seen := g.version })
  | gone (hw : r.waiting = true) (hseen : r.seen = g.version) (hdetached : g.attached = false) :
      Look r g .finish
  | gives {data : Bytes} (hw : r.waiting = false) (hdata : g.chunks[r.index]? = some data) :
      Look r g (.chunk data { r with index := r.index + 1, seen := g.version })
  | ends (hw : r.waiting = false) (hall : g.chunks[r.index]? = none) (hclosed : g.closed = true) :
      Look r g .finish
  | rests (hw : r.waiting = false) (hall : g.chunks[r.index]? = none)
      (hopen : g.closed = false) :
      Look r g (.turning { r with waiting := true, seen := g.version })

variable {r r' : Reader} {g g' : Growing}

theorem look {reading : Reading} (h : r.step g = reading) : Look r g reading := by
  subst h
  rw [step]
  by_cases hw : r.waiting = true
  · rw [if_pos hw]
    by_cases hseen : r.seen = g.version
    · rw [if_neg (by simpa using hseen)]
      cases hattached : g.attached with
      | true => exact .waits hw hseen hattached
      | false => exact .gone hw hseen hattached
    · rw [if_pos hseen]
      exact .wakes hw hseen
  · rw [if_neg hw]
    rw [Bool.not_eq_true] at hw
    cases hdata : g.chunks[r.index]? with
    | some data => exact .gives hw hdata
    | none =>
      cases hclosed : g.closed with
      | true => exact .ends hw hdata hclosed
      | false => exact .rests hw hdata hclosed

/-- The reader's place is in the body, and if it waits, it has given everything that there was in
the version it has seen. -/
structure Follows (r : Reader) (g : Growing) : Prop where
  le : r.index ≤ g.chunks.length
  seen : r.waiting = true → r.seen ≤ g.version ∧ (r.seen = g.version → r.index = g.chunks.length)

theorem follows_start (g : Growing) : Follows {} g := ⟨Nat.zero_le _, nofun⟩

/-- A reader that finds no chunk at its place has given all of them. -/
theorem Follows.index_eq (h : r.Follows g) (hall : g.chunks[r.index]? = none) :
    r.index = g.chunks.length :=
  Nat.le_antisymm h.le (List.getElem?_eq_none_iff.1 hall)

/-- A body that has changed has a new version. -/
theorem Follows.grows (h : r.Follows g) (hchunks : g.chunks <+: g'.chunks)
    (hversion : g.version < g'.version) : r.Follows g' where
  le := Nat.le_trans h.le hchunks.length_le
  seen hw := by
    have hseen := (h.seen hw).1
    exact ⟨by omega, fun heq => by omega⟩

theorem Follows.turning (h : r.Follows g) (hr : r.step g = .turning r') :
    r'.Follows g ∧ r'.index = r.index := by
  cases look hr with
  | wakes => exact ⟨⟨h.le, nofun⟩, rfl⟩
  | rests hw hall => exact ⟨⟨h.le, fun _ => ⟨Nat.le_refl _, fun _ => h.index_eq hall⟩⟩, rfl⟩

theorem Follows.chunk {data : Bytes} (h : r.step g = .chunk data r') :
    r'.Follows g ∧ g.chunks.take r'.index = g.chunks.take r.index ++ [data] := by
  cases look h with
  | gives hw hdata =>
    refine ⟨⟨(List.getElem?_eq_some_iff.1 hdata).1, fun hw' => ?_⟩, ?_⟩
    · rw [hw] at hw'
      exact absurd hw' Bool.false_ne_true
    · rw [List.take_add_one, hdata]
      rfl

/-- **A reader ends** when nothing more will be written, and it has given everything. -/
theorem Follows.finish (h : r.Follows g) (hr : r.step g = .finish) :
    g.complete = true ∧ r.index = g.chunks.length := by
  cases look hr with
  | gone hw hseen hdetached => exact ⟨by simp [Growing.complete, hdetached], (h.seen hw).2 hseen⟩
  | ends hw hall hclosed => exact ⟨by simp [Growing.complete, hclosed], h.index_eq hall⟩

/-! ## A poll -/

theorem read_growing {bodies : List Growing} {id : Nat} (hg : bodies[id]? = some g) :
    r.read bodies (.growing id) = r.step g := by
  rw [read, List.getD_eq_getElem?_getD, hg, Option.getD_some]

/-- What a poll comes to for a reader that has given so many chunks: the next one, or the end if
there will be no more. -/
def answer (g : Growing) (given : Nat) : Reading :=
  match g.chunks[given]? with
  | some data => .chunk data { index := given + 1, seen := g.version }
  | none => if g.complete then .finish else .pending

/-- The reader after a look that gives nothing. -/
def turn (g : Growing) (r : Reader) : Option Reader :=
  match r.step g with
  | .turning r' => some r'
  | _ => none

theorem settle_turn (g : Growing) (fuel : Nat) (r : Reader) :
    settle (fun _ => [turn g]) (fuel + 1) r =
      match r.step g with
      | .turning r' => settle (fun _ => [turn g]) fuel r'
      | _ => r := by
  rw [settle, firstMove, turn]
  cases r.step g <;> rfl

/-- A reader that waits, and has seen all there is, stays where it is. -/
theorem Follows.poll_resting (h : r.Follows g) (hsink : g.closed = true → g.attached = false)
    (fuel : Nat) (hw : r.waiting = true) (hseen : r.seen = g.version) :
    (settle (fun _ => [turn g]) fuel r).step g = answer g r.index := by
  have hall : g.chunks[r.index]? = none := by
    rw [(h.seen hw).2 hseen]
    exact List.getElem?_eq_none (Nat.le_refl _)
  have hstep : r.step g = if g.attached then .pending else .finish := by
    cases hattached : g.attached <;> simp [step, hw, hseen, hattached]
  have hcomplete : g.complete = !g.attached := by
    cases hclosed : g.closed with
    | true => simp [Growing.complete, hclosed, hsink hclosed]
    | false => simp [Growing.complete, hclosed]
  have hsettle : settle (fun _ => [turn g]) fuel r = r := by
    cases fuel with
    | zero => rfl
    | succ fuel =>
      rw [settle_turn, hstep]
      cases g.attached <;> rfl
  rw [hsettle, hstep, answer, hall]
  simp only [hcomplete]
  cases g.attached <;> rfl

theorem Follows.poll_awake (h : r.Follows g) (hsink : g.closed = true → g.attached = false)
    (fuel : Nat) (hw : r.waiting = false) :
    (settle (fun _ => [turn g]) (fuel + 1) r).step g = answer g r.index := by
  rw [settle_turn]
  cases hr : r.step g with
  | chunk data r' =>
    cases look hr with
    | gives _ hdata => rw [hr, answer, hdata]; simp [hw]
  | finish =>
    obtain ⟨hcomplete, hindex⟩ := h.finish hr
    rw [hr, answer, List.getElem?_eq_none (Nat.le_of_eq hindex.symm)]
    simp [hcomplete]
  | turning r' =>
    obtain ⟨h', hindex⟩ := h.turning hr
    rw [← hindex]
    cases look hr with
    | wakes hw' => simp [hw] at hw'
    | rests => exact h'.poll_resting hsink fuel rfl rfl
  | pending =>
    cases look hr with
    | waits hw' => simp [hw] at hw'
  | failure text => cases look hr

/-- **What a poll comes to.**  A reader that looks until it has something to give, or has to wait,
gives the next chunk if there is one, and ends otherwise if and only if the sink is gone. -/
theorem Follows.poll (h : r.Follows g) (hsink : g.closed = true → g.attached = false)
    {bodies : List Growing} {id : Nat} (hg : bodies[id]? = some g) :
    (r.turned bodies (.growing id)).read bodies (.growing id) = answer g r.index := by
  have hturned : r.turned bodies (.growing id) = settle (fun _ => [turn g]) 4 r := by
    simp only [turned, read_growing hg]
    rfl
  rw [hturned, read_growing hg]
  by_cases hw : r.waiting = true
  · by_cases hseen : r.seen = g.version
    · exact h.poll_resting hsink 4 hw hseen
    · have hr : r.step g = .turning { r with waiting := false, seen := g.version } := by
        simp [step, hw, hseen]
      rw [settle_turn, hr]
      exact (h.turning hr).1.poll_awake hsink 2 rfl
  · exact h.poll_awake hsink 3 (by simpa using hw)

end Reader

/-! ## A sink and any number of readers -/

/-- A body with those who read it. -/
structure Publication where
  body : Growing := .empty
  readers : List Reader := []

namespace Publication

/-- What can happen to a body and its readers. -/
inductive Move where
  /-- The sink writes a chunk. -/
  | write (chunk : Bytes)
  /-- The sink closes the body. -/
  | close
  /-- The sink is dropped. -/
  | drop
  /-- A reader begins. -/
  | join
  /-- A reader looks. -/
  | look (i : Nat)

/-- What becomes of a body and its readers; `none` if it cannot happen, since the sink is gone,
there is no such reader, or the reader is left waiting. -/
def move (p : Publication) : Move → Option Publication
  | .write chunk => if p.body.attached then some { p with body := p.body.write chunk } else none
  | .close => if p.body.attached then some { p with body := p.body.close } else none
  | .drop => if p.body.attached then some { p with body := p.body.detach } else none
  | .join => some { p with readers := p.readers ++ [{}] }
  | .look i =>
    (p.readers[i]?).bind fun r =>
      match r.step p.body with
      | .turning r' | .chunk _ r' => some { p with readers := p.readers.set i r' }
      | .finish => some p
      | .pending | .failure _ => none

/-! ### The record -/

/-- The chunk that the sink writes. -/
def writes? (a : Publication × Move) : Option Bytes :=
  match a.2 with
  | .write chunk => some chunk
  | _ => none

/-- The sink is closed or dropped. -/
def Move.last : Move → Bool
  | .close | .drop => true
  | _ => false

/-- What a reader meets. -/
def meets? (i : Nat) (a : Publication × Move) : Option Reading :=
  match a.2 with
  | .look j => if j = i then (a.1.readers[i]?).map fun r => r.step a.1.body else none
  | _ => none

/-- The chunk that a reader gives. -/
def gives? (i : Nat) (a : Publication × Move) : Option Bytes :=
  match meets? i a with
  | some (.chunk data _) => some data
  | _ => none

section Record

variable (t : List (Publication × Move)) (i : Nat)

/-- The chunks written so far. -/
def written : List Bytes := t.filterMap writes?

/-- The sink has been closed or dropped. -/
def sinkGone : Bool := t.any fun a => a.2.last

/-- The chunks that a reader has given so far. -/
def given : List Bytes := t.filterMap (gives? i)

/-- A reader has ended. -/
def ended : Bool := t.any fun a => meets? i a == some .finish

variable {t i} {p : Publication} {m : Move}

theorem written_append : written (t ++ [(p, m)]) = written t ++ (writes? (p, m)).toList := by
  rw [written, List.filterMap_append, ← written]
  cases h : writes? (p, m) <;> simp [h]

theorem given_append : given (t ++ [(p, m)]) i = given t i ++ (gives? i (p, m)).toList := by
  rw [given, List.filterMap_append, ← given]
  cases h : gives? i (p, m) <;> simp [h]

theorem sinkGone_append : sinkGone (t ++ [(p, m)]) = (sinkGone t || m.last) := by
  simp [sinkGone]

theorem ended_append :
    ended (t ++ [(p, m)]) i = (ended t i || meets? i (p, m) == some .finish) := by
  simp [ended]

/-- What happens to others is nothing that a reader meets. -/
theorem meets?_eq_none (h : m ≠ .look i) : meets? i (p, m) = none := by
  cases m with
  | look j =>
    have hj : j ≠ i := fun hj => h (by rw [hj])
    simp [meets?, hj]
  | _ => rfl

theorem gives?_eq_none (h : meets? i (p, m) = none) : gives? i (p, m) = none := by
  rw [gives?, h]

theorem meets?_look {r : Reader} (hr : p.readers[i]? = some r) :
    meets? i (p, .look i) = some (r.step p.body) := by
  simp [meets?, hr]

end Record

/-! ### What a happening does -/

/-- What can happen, and what becomes of it. -/
inductive Turn (p : Publication) : Move → Publication → Prop
  | write {chunk : Bytes} (hattached : p.body.attached = true) :
      Turn p (.write chunk) { p with body := p.body.write chunk }
  | close (hattached : p.body.attached = true) : Turn p .close { p with body := p.body.close }
  | drop (hattached : p.body.attached = true) : Turn p .drop { p with body := p.body.detach }
  | join : Turn p .join { p with readers := p.readers ++ [{}] }
  | turn {i : Nat} {r r' : Reader} (hr : p.readers[i]? = some r)
      (hlook : r.step p.body = .turning r') :
      Turn p (.look i) { p with readers := p.readers.set i r' }
  | give {i : Nat} {r r' : Reader} {data : Bytes} (hr : p.readers[i]? = some r)
      (hlook : r.step p.body = .chunk data r') :
      Turn p (.look i) { p with readers := p.readers.set i r' }
  | finish {i : Nat} {r : Reader} (hr : p.readers[i]? = some r)
      (hlook : r.step p.body = .finish) : Turn p (.look i) p

theorem turn_of_move {p p' : Publication} {m : Move} (h : p.move m = some p') : Turn p m p' := by
  cases m with
  | write chunk =>
    simp only [move, Option.ite_none_right_eq_some, Option.some.injEq] at h
    exact h.2 ▸ .write h.1
  | close =>
    simp only [move, Option.ite_none_right_eq_some, Option.some.injEq] at h
    exact h.2 ▸ .close h.1
  | drop =>
    simp only [move, Option.ite_none_right_eq_some, Option.some.injEq] at h
    exact h.2 ▸ .drop h.1
  | join => exact Option.some.inj h ▸ .join
  | look i =>
    obtain ⟨r, hr, h⟩ := Option.bind_eq_some_iff.1 h
    cases hlook : r.step p.body with
    | turning r' => exact Option.some.inj (hlook ▸ h) ▸ .turn hr hlook
    | chunk data r' => exact Option.some.inj (hlook ▸ h) ▸ .give hr hlook
    | finish => exact Option.some.inj (hlook ▸ h) ▸ .finish hr hlook
    | pending | failure => simp [hlook] at h

/-- What holds after every run: the body is what has been written, and each reader has given the
chunks up to its place. -/
structure Kept (t : List (Publication × Move)) (p : Publication) : Prop where
  chunks : p.body.chunks = written t
  complete : p.body.complete = sinkGone t
  sink : p.body.closed = true → p.body.attached = false
  follows : ∀ (i : Nat) (r : Reader), p.readers[i]? = some r →
    r.Follows p.body ∧ given t i = p.body.chunks.take r.index
  ended : ∀ i, ended t i = true → p.body.complete = true ∧ given t i = p.body.chunks
  ahead : ∀ i, p.readers[i]? = none → given t i = []

theorem kept_start : Kept [] {} := by
  constructor <;>
    simp [written, given, sinkGone, Publication.ended, Growing.complete, Growing.empty]

/-- While there is a sink, nobody has ended. -/
theorem Kept.open {t : List (Publication × Move)} {p : Publication} (h : Kept t p)
    (hattached : p.body.attached = true) : p.body.closed = false ∧ sinkGone t = false := by
  have hclosed : p.body.closed = false := by
    cases hc : p.body.closed with
    | false => rfl
    | true => rw [h.sink hc] at hattached; exact hattached.symm
  rw [← h.complete, Growing.complete, hclosed, hattached]
  exact ⟨rfl, rfl⟩

section Turn

variable {t : List (Publication × Move)} {p p' : Publication} {m : Move}

/-- The sink adds to the body, and the readers are where they were. -/
theorem Kept.sink_turn (h : Kept t p) {body : Growing} (hattached : p.body.attached = true)
    (hm : ∀ i, m ≠ .look i) (hchunks : body.chunks = p.body.chunks ++ (writes? (p, m)).toList)
    (hcomplete : body.complete = m.last) (hsink : body.closed = true → body.attached = false)
    (hfollows : ∀ r : Reader, r.Follows p.body → r.Follows body) :
    Kept (t ++ [(p, m)]) { p with body } := by
  have hopen := (h.open hattached).2
  have hgiven (i : Nat) : given (t ++ [(p, m)]) i = given t i := by
    rw [given_append, gives?_eq_none (meets?_eq_none (hm i)), Option.toList_none, List.append_nil]
  refine ⟨?_, ?_, hsink, fun i r hr => ?_, fun i hend => ?_, fun i hi => ?_⟩
  · rw [written_append, ← h.chunks]
    exact hchunks
  · rw [sinkGone_append, hopen, Bool.false_or]
    exact hcomplete
  · obtain ⟨hr, hall⟩ := h.follows i r hr
    refine ⟨hfollows r hr, ?_⟩
    rw [hgiven, hall, hchunks, List.take_append_of_le_length hr.le]
  · -- nobody has ended before
    rw [ended_append, meets?_eq_none (hm i)] at hend
    have hgone := (h.ended i (by simpa using hend)).1
    rw [h.complete, hopen] at hgone
    exact absurd hgone Bool.false_ne_true
  · rw [hgiven]
    exact h.ahead i hi

/-- A reader looks, and the body is as it was. -/
theorem Kept.look_turn (h : Kept t p) {i : Nat} {r r' : Reader} (hr : p.readers[i]? = some r)
    (hfollows : r'.Follows p.body) (hgives : p.body.chunks.take r'.index =
      p.body.chunks.take r.index ++ (gives? i (p, .look i)).toList)
    {readers : List Reader} (hreaders : p.readers.set i r' = readers) :
    Kept (t ++ [(p, .look i)]) { p with readers } := by
  subst hreaders
  have hother {j : Nat} (hj : j ≠ i) : meets? j (p, .look i) = none :=
    meets?_eq_none fun heq => hj (Move.look.inj heq).symm
  have hgiven {j : Nat} (hj : j ≠ i) : given (t ++ [(p, .look i)]) j = given t j := by
    rw [given_append, gives?_eq_none (hother hj), Option.toList_none, List.append_nil]
  obtain ⟨hplace, hall⟩ := h.follows i r hr
  have hself : given (t ++ [(p, .look i)]) i = p.body.chunks.take r'.index := by
    rw [given_append, hall, hgives]
  have hlt : i < p.readers.length := (List.getElem?_eq_some_iff.1 hr).1
  refine ⟨?_, ?_, h.sink, fun j s hs => ?_, fun j hend => ?_, fun j hj => ?_⟩
  · rw [written_append, ← h.chunks]
    exact (List.append_nil _).symm
  · rw [sinkGone_append, ← h.complete]
    exact (Bool.or_false _).symm
  · by_cases hj : j = i
    · subst hj
      obtain rfl : r' = s := by simpa [hlt] using hs
      exact ⟨hfollows, hself⟩
    · rw [List.getElem?_set_ne (Ne.symm hj)] at hs
      rw [hgiven hj]
      exact h.follows j s hs
  · rw [ended_append, Bool.or_eq_true, beq_iff_eq] at hend
    by_cases hj : j = i
    · subst hj
      -- it has given everything before this look, and can give no more
      obtain ⟨hcomplete, hdone⟩ : p.body.complete = true ∧ given t j = p.body.chunks := by
        rcases hend with hend | hend
        · exact h.ended j hend
        · rw [meets?_look hr, Option.some.injEq] at hend
          obtain ⟨hcomplete, hindex⟩ := hplace.finish hend
          exact ⟨hcomplete, by rw [hall, hindex, List.take_length]⟩
      refine ⟨hcomplete, ?_⟩
      have hprefix : p.body.chunks ++ (gives? j (p, .look j)).toList <+: p.body.chunks := by
        rw [hall] at hdone
        rw [hdone] at hgives
        exact hgives ▸ List.take_prefix _ _
      have hnil : (gives? j (p, .look j)).toList = [] := by
        have hle := hprefix.length_le
        rw [List.length_append] at hle
        exact List.length_eq_zero_iff.1 (by omega)
      rw [given_append, hdone, hnil, List.append_nil]
    · rw [hother hj] at hend
      rw [hgiven hj]
      exact h.ended j (by simpa using hend)
  · have hj' : j ≠ i := by
      rintro rfl
      simp [hlt] at hj
    rw [hgiven hj']
    refine h.ahead j ?_
    rwa [List.getElem?_set_ne (Ne.symm hj')] at hj

theorem Kept.join_turn (h : Kept t p) :
    Kept (t ++ [(p, .join)]) { p with readers := p.readers ++ [{}] } := by
  have hgiven (i : Nat) : given (t ++ [(p, .join)]) i = given t i := by
    rw [given_append]
    exact List.append_nil _
  refine ⟨?_, ?_, h.sink, fun i r hr => ?_, fun i hend => ?_, fun i hi => ?_⟩
  · rw [written_append, ← h.chunks]
    exact (List.append_nil _).symm
  · rw [sinkGone_append, ← h.complete]
    exact (Bool.or_false _).symm
  · rw [hgiven]
    rcases Nat.lt_or_ge i p.readers.length with hlt | hge
    · rw [List.getElem?_append_left hlt] at hr
      exact h.follows i r hr
    · rw [List.getElem?_append_right hge, List.getElem?_singleton] at hr
      obtain rfl := Option.some.inj (Option.ite_none_right_eq_some.1 hr).2
      exact ⟨Reader.follows_start p.body, h.ahead i (List.getElem?_eq_none hge)⟩
  · rw [hgiven]
    exact h.ended i (by simpa [ended_append, meets?] using hend)
  · rw [hgiven]
    rw [List.getElem?_eq_none_iff, List.length_append] at hi
    exact h.ahead i (List.getElem?_eq_none (Nat.le_of_add_right_le hi))

/-- **A happening keeps all of it.** -/
theorem Kept.turn (h : Kept t p) (ht : Turn p m p') : Kept (t ++ [(p, m)]) p' := by
  cases ht with
  | @write chunk hattached =>
    obtain ⟨hclosed, -⟩ := h.open hattached
    refine h.sink_turn hattached nofun rfl ?_ h.sink fun r hr => ?_
    · simp [Growing.write, Growing.complete, hattached, hclosed, Move.last]
    · exact hr.grows (List.prefix_append _ _) (Nat.lt_succ_self _)
  | close hattached =>
    refine h.sink_turn hattached nofun (List.append_nil _).symm rfl (fun _ => rfl) fun r hr => ?_
    exact hr.grows (List.prefix_refl _) (Nat.lt_succ_self _)
  | drop hattached =>
    refine h.sink_turn hattached nofun (List.append_nil _).symm ?_ (fun _ => rfl)
      fun r hr => ⟨hr.le, hr.seen⟩
    simp [Growing.detach, Growing.complete, Move.last]
  | join => exact h.join_turn
  | @turn i r r' hr hlook =>
    obtain ⟨hfollows, hindex⟩ := (h.follows i r hr).1.turning hlook
    refine h.look_turn hr hfollows ?_ rfl
    simp [gives?, meets?_look hr, hlook, hindex]
  | @give i r r' data hr hlook =>
    obtain ⟨hfollows, htake⟩ := Reader.Follows.chunk hlook
    refine h.look_turn hr hfollows ?_ rfl
    simp [gives?, meets?_look hr, hlook, htake]
  | @finish i r hr hlook =>
    obtain ⟨hlt, hget⟩ := List.getElem?_eq_some_iff.1 hr
    refine h.look_turn hr (h.follows i r hr).1 ?_ (hget ▸ List.set_getElem_self hlt)
    simp [gives?, meets?_look hr, hlook]

end Turn

theorem Kept.of_run {t : List (Publication × Move)} {p : Publication}
    (hrun : Run Publication.move {} t p) : Kept t p := by
  induction hrun with
  | start => exact kept_start
  | next _ hm ih => exact ih.turn (turn_of_move hm)

/-- A reader is left waiting only if it has given everything, and more may come. -/
theorem Kept.of_waiting {t : List (Publication × Move)} {p : Publication} {i : Nat} {r : Reader}
    (h : Kept t p) (hr : p.readers[i]? = some r) (hmove : p.move (.look i) = none) :
    given t i = written t ∧ sinkGone t = false := by
  rw [move, hr, Option.bind_some] at hmove
  cases hlook : r.step p.body with
  | pending =>
    cases Reader.look hlook with
    | waits hw hseen hattached =>
      obtain ⟨hfollows, hall⟩ := h.follows i r hr
      refine ⟨?_, (h.open hattached).2⟩
      rw [hall, (hfollows.seen hw).2 hseen, List.take_length, h.chunks]
  | failure text => cases Reader.look hlook
  | turning | chunk | finish => simp [hlook] at hmove

/-- **Readers follow the sink.**  In whatever order a sink writes and ends, readers begin and
readers look,

* what a reader has given is a beginning of what has been written;
* a reader has ended only if the sink is gone and the reader has given everything;
* a reader that cannot look, since it is left waiting, has given everything, and the sink is still
  there;
* a reader that is polled gives the first chunk that it has not given; if there is none, it ends
  when the sink is gone, and waits otherwise. -/
theorem readers_follow {t : List (Publication × Move)} {p : Publication}
    (hrun : Run Publication.move {} t p) {i : Nat} {r : Reader} (hr : p.readers[i]? = some r) :
    given t i <+: written t ∧
    (ended t i = true → sinkGone t = true ∧ given t i = written t) ∧
    (p.move (.look i) = none → given t i = written t ∧ sinkGone t = false) ∧
    (r.turned [p.body] (.growing 0)).read [p.body] (.growing 0) =
      match (written t)[(given t i).length]? with
      | some data => .chunk data { index := (given t i).length + 1, seen := p.body.version }
      | none => if sinkGone t then .finish else .pending := by
  have h : Kept t p := Kept.of_run hrun
  obtain ⟨hfollows, hall⟩ := h.follows i r hr
  refine ⟨?_, fun hend => ?_, h.of_waiting hr, ?_⟩
  · rw [hall, h.chunks]
    exact List.take_prefix _ _
  · obtain ⟨hcomplete, hgiven⟩ := h.ended i hend
    exact ⟨h.complete ▸ hcomplete, h.chunks ▸ hgiven⟩
  · have hlength : (given t i).length = r.index := by
      rw [hall, List.length_take, Nat.min_eq_left hfollows.le]
    have hbody : [p.body][0]? = some p.body := rfl
    rw [hfollows.poll h.sink hbody, hlength, ← h.chunks, ← h.complete]
    rfl

/-- Two readers of one body.  The first gives a chunk and waits; then another chunk is written and
the sink is dropped.  The second begins late, gives both chunks and ends. -/
def twoReaders : List Move :=
  [.join, .write [1], .look 0, .look 0, .write [2], .join, .drop, .look 1, .look 1, .look 1,
    .look 1]

/-- The first reader is then not left waiting, and gives the second chunk when it is polled. -/
theorem readers_follow_twoReaders :
    ∃ t p r, Run Publication.move {} t p ∧ p.readers[0]? = some r ∧ r.waiting = true ∧
      written t = [[1], [2]] ∧ given t 0 = [[1]] ∧ p.move (.look 0) ≠ none ∧
      (r.turned [p.body] (.growing 0)).read [p.body] (.growing 0) =
        .chunk [2] { index := 2, seen := p.body.version } ∧
      ended t 1 = true ∧ sinkGone t = true ∧ given t 1 = written t := by
  let r := (follow Publication.move {} twoReaders).get rfl
  have hrun : Run Publication.move {} r.1 r.2 := run_of_follow (Option.some_get _).symm
  obtain ⟨-, -, hwaiting, hpoll⟩ := readers_follow (i := 0) hrun rfl
  obtain ⟨-, hend, -⟩ := readers_follow (i := 1) hrun rfl
  have hgiven : given r.1 0 = [[1]] := rfl
  refine ⟨r.1, r.2, _, hrun, rfl, rfl, rfl, hgiven, fun h => ?_, hpoll, rfl, hend rfl⟩
  exact absurd (hgiven.symm.trans (hwaiting h).1) (by decide)

end Publication
end EdgeCache
