import EdgeCache.Proofs.Origin.Deliveries
import EdgeCache.Proofs.Runs

/-!
# Splitting a response

An origin at work on a tee is watched by a consumer: it is told of the head, takes copies of the
chunks, and may go away at any time.  `Splitting` is the system of the two, of the gates that the
origin waits at, and of a client of which nothing is known: its link may be replaced by any other
between two happenings, so that it may refuse or hold up any write.

`Splits` is the protocol that both keep to, whatever the origin's script and however the two take
their steps (`split_protocol`).  It is read off the record of a run: the heads that were announced,
the chunks that the consumer has taken, those that the origin has passed to the tee, and the writes
that have gone to the client.  What the head and the writes are in terms of the script is said by
`Script.play`.
-/

set_option autoImplicit false

namespace EdgeCache

/-- An origin at work on a tee, with the gates it waits at. -/
structure Splitting where
  fetch : Fetch
  gates : Gates := []

namespace Splitting

/-- What can happen to an origin and its consumer. -/
inductive Move where
  /-- The origin takes a step. -/
  | step
  /-- A gate lets one more through. -/
  | release (gate : String)
  /-- Something becomes of the client's link. -/
  | relink (link : Link)
  /-- The consumer takes a chunk. -/
  | take
  /-- The consumer goes away. -/
  | unwatch

/-- What becomes of the origin; `none` if it cannot happen. -/
def move (s : Splitting) : Move → Option Splitting
  | .step => (s.fetch.step s.gates).map fun r => { fetch := r.1, gates := r.2.1 }
  | .release gate => some { s with gates := s.gates.release gate }
  | .relink link =>
    let tee := s.fetch.tee
    some { s with fetch := { s.fetch with tee := { tee with client := { tee.client with link } } } }
  | .take =>
    match s.fetch.receive with
    | (.chunk _, fetch) => some { s with fetch }
    | _ => none
  | .unwatch => some { s with fetch := s.fetch.unwatch }

/-! ## The record -/

/-- The head that the consumer learns of by a happening. -/
def announces? (p : Splitting × Move) : Option Head :=
  (p.1.move p.2).bind fun s =>
    if s.fetch.tee.announced = p.1.fetch.tee.announced then none else s.fetch.tee.announced

/-- The chunk that the consumer takes. -/
def takes? (p : Splitting × Move) : Option Bytes :=
  match p.2, p.1.fetch.receive.1 with
  | .take, .chunk data => some data
  | _, _ => none

/-- The chunk that the origin has passed to the tee. -/
def passes? (p : Splitting × Move) : Option Bytes :=
  match p.2 with
  | .step => p.1.fetch.passes
  | _ => none

/-- What goes to the client, with what it reports. -/
def writes? (p : Splitting × Move) : Option (Bytes × Option IoError) :=
  match p.2 with
  | .step => p.1.fetch.attempt
  | _ => none

section Record

variable (t : List (Splitting × Move))

/-- The heads that the consumer has been told of. -/
def announced : List Head := t.filterMap announces?

/-- The chunks that the consumer has taken. -/
def taken : List Bytes := t.filterMap takes?

/-- The chunks that the origin has passed to the tee. -/
def passed : List Bytes := t.filterMap passes?

/-- The chunks that have gone to the client, each with what the client reported. -/
def writes : List (Bytes × Option IoError) := t.filterMap writes?

variable {t} {p : Splitting × Move}

theorem announced_append : announced (t ++ [p]) = announced t ++ (announces? p).toList := by
  rw [announced, List.filterMap_append, ← announced]
  cases h : announces? p <;> simp [h]

theorem taken_append : taken (t ++ [p]) = taken t ++ (takes? p).toList := by
  rw [taken, List.filterMap_append, ← taken]
  cases h : takes? p <;> simp [h]

theorem passed_append : passed (t ++ [p]) = passed t ++ (passes? p).toList := by
  rw [passed, List.filterMap_append, ← passed]
  cases h : passes? p <;> simp [h]

theorem writes_append : writes (t ++ [p]) = writes t ++ (writes? p).toList := by
  rw [writes, List.filterMap_append, ← writes]
  cases h : writes? p <;> simp [h]

end Record

/-! ## The protocol -/

/-- The protocol between the origin and its consumer, for a script on a client, after a run that has
this record. -/
structure Splits (client : Client) (capacity : Nat) (isHead : Bool)
    (script : Script (Except OriginError Status)) (t : List (Splitting × Move)) (s : Splitting) :
    Prop where
  /-- The head is announced at most once, and it is the one that the client has. -/
  head : announced t = s.fetch.tee.client.head.toList
  /-- It is announced before there is a chunk to take. -/
  first : taken t ++ s.fetch.tee.buffer ≠ [] → (announced t).length = 1
  /-- When the origin has returned, the response is the one that its script delivers, concluded; and
  the head that was announced is the one committed, or made up for the result. -/
  returned : s.fetch.ending = some .returned → ∀ pattern, Follows pattern (writes t) →
    ∃ result d, script.play pattern ⟨client.headers, none, []⟩ = some (result, d) ∧
      announced t = [d.concludedHead result] ∧
      .of s.fetch.tee.client (writes t) = d.conclude isHead pattern result
  /-- When it has died, so has its script. -/
  died : ∀ message, s.fetch.ending = some (.died message) → ∀ pattern,
    Follows pattern (writes t) → script.play pattern ⟨client.headers, none, []⟩ = none
  /-- What the consumer has taken, with what it still can take, is a beginning of what the origin
  has passed; and all of it, unless the consumer has gone away. -/
  chunks : taken t ++ s.fetch.tee.buffer <+: passed t ∧
    (s.fetch.tee.consumed = true → taken t ++ s.fetch.tee.buffer = passed t)
  /-- Every chunk that was passed has gone to the client, whatever the client reported and whether
  or not there was a consumer; so has, at most, the one that is being passed. -/
  written : (writes t).map (·.1) = passed t ++ s.fetch.underway ∧
    (s.fetch.ending.isSome = true → (writes t).map (·.1) = passed t)
  /-- The buffer is bounded. -/
  room : s.fetch.tee.buffer.length ≤ max 1 capacity
  /-- Once the task is over, the origin does nothing more and no chunk follows those in the buffer;
  and the consumer meets the end only then, when it has taken everything. -/
  ended : (s.fetch.ending.isSome = true →
      (∀ gates, s.fetch.step gates = none) ∧ s.fetch.receive.1 ≠ .pending) ∧
    (s.fetch.receive.1 = .finish → s.fetch.ending.isSome = true ∧ taken t = passed t)
  /-- Without a consumer the origin is held up by its client and at gates only. -/
  alone : s.fetch.tee.consumed = false → s.fetch.ending = none → s.fetch.step s.gates = none →
    s.fetch.isHeld s.gates = true

/-- What is kept by everything that happens, and gives the protocol. -/
structure Kept (client : Client) (capacity : Nat) (isHead : Bool)
    (script : Script (Except OriginError Status)) (t : List (Splitting × Move)) (s : Splitting) :
    Prop where
  tallies : s.fetch.Tallies (writes t) (passed t)
  told : announced t = s.fetch.tee.announced.toList
  watched : s.fetch.tee.consumed = true → taken t ++ s.fetch.tee.buffer = passed t
  gone : s.fetch.tee.consumed = false → s.fetch.tee.buffer = [] ∧ taken t <+: passed t
  room : s.fetch.tee.buffer.length ≤ max 1 s.fetch.tee.capacity
  capacity : s.fetch.tee.capacity = capacity
  resumes : (Fetch.supervise isHead script).Resumes s.fetch.remaining ⟨client.headers, none, []⟩
    s.fetch.tee.client (writes t)
  ending : ∀ ending, s.fetch.ending = some ending → s.fetch.script = ending.script

section Move

variable {client : Client} {capacity : Nat} {isHead : Bool}
  {script : Script (Except OriginError Status)} {t : List (Splitting × Move)} {s s' : Splitting}
  {m : Move}

theorem kept_start (gates : Gates) (hc : client.head = none) :
    Kept client capacity isHead script [] ⟨.start client capacity isHead script, gates⟩ where
  tallies := ⟨hc.symm, fun _ => ⟨rfl, rfl⟩, nofun, rfl, fun _ => rfl, nofun⟩
  told := rfl
  watched _ := rfl
  gone := nofun
  room := Nat.zero_le _
  capacity := rfl
  resumes pattern _ := by
    rw [← hc]
    rfl
  ending := nofun

/-- A head that has been announced is announced no more. -/
theorem announced_move (hm : s.move m = some s')
    (hstays : ∀ head, s.fetch.tee.announced = some head → s'.fetch.tee.announced = some head)
    (h : announced t = s.fetch.tee.announced.toList) :
    announced (t ++ [(s, m)]) = s'.fetch.tee.announced.toList := by
  have hannounces : announces? (s, m) =
      if s'.fetch.tee.announced = s.fetch.tee.announced then none else s'.fetch.tee.announced := by
    rw [announces?, hm, Option.bind_some]
  rw [announced_append, h, hannounces]
  cases hann : s.fetch.tee.announced with
  | some head => simp [hstays head hann]
  | none => cases hann' : s'.fetch.tee.announced <;> simp

theorem Kept.step (h : Kept client capacity isHead script t s) (hm : s.move .step = some s') :
    Kept client capacity isHead script (t ++ [(s, .step)]) s' := by
  obtain ⟨⟨f, gates, event⟩, hs, rfl⟩ := Option.map_eq_some_iff.1 hm
  obtain ⟨hend, ht⟩ := Fetch.step_cases hs
  have htaken : taken (t ++ [(s, .step)]) = taken t := by
    rw [taken_append]
    exact List.append_nil _
  refine ⟨?_, ?_, fun hcons => ?_, fun hcons => ?_, ?_, ?_, ?_, ?_⟩
  · rw [writes_append, passed_append]
    exact h.tallies.turn hend ht
  · exact announced_move hm (fun head => h.tallies.announced_turn ht) h.told
  · rw [ht.consumed] at hcons
    rw [htaken, ht.buffer hcons (h.tallies.feeding hcons), ← List.append_assoc, h.watched hcons,
      passed_append]
    rfl
  · rw [ht.consumed] at hcons
    obtain ⟨hbuf, hprefix⟩ := h.gone hcons
    refine ⟨(ht.buffer_of_gone hcons).trans hbuf, ?_⟩
    rw [htaken, passed_append]
    exact hprefix.trans (List.prefix_append _ _)
  · rw [ht.capacity]
    exact ht.room h.room
  · exact ht.capacity.trans h.capacity
  · rw [writes_append]
    exact h.resumes.step fun pattern hp => Fetch.play_step hs h.tallies.half hp
  · exact fun ending => Fetch.script_of_ending hs

/-- Only steps of the origin pass or write anything. -/
theorem record_of_ne_step (hm : m ≠ .step) :
    passed (t ++ [(s, m)]) = passed t ∧ writes (t ++ [(s, m)]) = writes t := by
  cases m with
  | step => exact absurd rfl hm
  | _ =>
    rw [passed_append, writes_append]
    exact ⟨List.append_nil _, List.append_nil _⟩

theorem taken_of_ne_take (hm : m ≠ .take) : taken (t ++ [(s, m)]) = taken t := by
  cases m with
  | take => exact absurd rfl hm
  | _ =>
    rw [taken_append]
    exact List.append_nil _

/-- Something happens to the client's link and to the gates. -/
theorem Kept.elsewhere (h : Kept client capacity isHead script t s) {link : Link} {gates : Gates}
    (hm : s.move m = some s') (hstep : m ≠ .step) (htake : m ≠ .take)
    (hs : s' = ⟨{ s.fetch with
      tee := { s.fetch.tee with client := { s.fetch.tee.client with link } } }, gates⟩) :
    Kept client capacity isHead script (t ++ [(s, m)]) s' := by
  subst hs
  obtain ⟨hpassed, hwrites⟩ := record_of_ne_step (t := t) (s := s) hstep
  have htaken := taken_of_ne_take (t := t) (s := s) htake
  refine ⟨?_, announced_move hm (fun _ => id) h.told, ?_, ?_, h.room, h.capacity, ?_, h.ending⟩
  · rw [hpassed, hwrites]
    exact { h.tallies with }
  · rw [htaken, hpassed]
    exact h.watched
  · rw [htaken, hpassed]
    exact h.gone
  · rw [hwrites]
    exact h.resumes

theorem Kept.unwatch (h : Kept client capacity isHead script t s) :
    Kept client capacity isHead script (t ++ [(s, .unwatch)])
      { s with fetch := s.fetch.unwatch } := by
  obtain ⟨hpassed, hwrites⟩ := record_of_ne_step (t := t) (s := s) (m := .unwatch) nofun
  have htaken := taken_of_ne_take (t := t) (s := s) (m := .unwatch) nofun
  have htold := announced_move (s := s) (m := .unwatch) rfl (fun _ => id) h.told
  refine ⟨?_, htold, nofun, fun _ => ⟨rfl, ?_⟩, Nat.zero_le _, h.capacity, ?_, h.ending⟩
  · rw [hpassed, hwrites]
    exact { h.tallies with feeding := nofun }
  · rw [htaken, hpassed]
    cases hcons : s.fetch.tee.consumed with
    | true => exact h.watched hcons ▸ List.prefix_append _ _
    | false => exact (h.gone hcons).2
  · rw [hwrites]
    exact h.resumes

theorem Kept.take (h : Kept client capacity isHead script t s) (hm : s.move .take = some s') :
    Kept client capacity isHead script (t ++ [(s, .take)]) s' := by
  obtain ⟨hpassed, hwrites⟩ := record_of_ne_step (t := t) (s := s) (m := .take) nofun
  have hmove := hm
  rw [move] at hmove
  split at hmove
  · next data fetch hreceive =>
    obtain rfl := Option.some.inj hmove
    obtain ⟨rest, hcons, hbuf, rfl⟩ := Fetch.receive_chunk hreceive
    have htaken : taken (t ++ [(s, .take)]) = taken t ++ [data] := by
      rw [taken_append, takes?, hreceive]
      rfl
    refine ⟨?_, announced_move hm (fun _ => id) h.told, fun _ => ?_, fun hgone => ?_, ?_,
      h.capacity, ?_, h.ending⟩
    · rw [hpassed, hwrites]
      exact { h.tallies with }
    · rw [htaken, hpassed, ← h.watched hcons, hbuf, List.append_assoc]
      rfl
    · exact absurd (hcons.symm.trans hgone) (by simp)
    · have hroom := h.room
      rw [hbuf] at hroom
      exact Nat.le_of_succ_le hroom
    · rw [hwrites]
      exact h.resumes
  · exact absurd hmove (by simp)

/-- **Whatever happens keeps it.** -/
theorem Kept.move (h : Kept client capacity isHead script t s) (hm : s.move m = some s') :
    Kept client capacity isHead script (t ++ [(s, m)]) s' := by
  cases m with
  | step => exact h.step hm
  | release | relink => exact h.elsewhere hm nofun nofun (Option.some.inj hm).symm
  | take => exact h.take hm
  | unwatch => exact Option.some.inj hm ▸ h.unwatch

theorem Kept.of_run {gates : Gates} (hc : client.head = none)
    (hrun : Run Splitting.move ⟨.start client capacity isHead script, gates⟩ t s) :
    Kept client capacity isHead script t s := by
  induction hrun with
  | start => exact kept_start gates hc
  | next _ hm ih => exact ih.move hm

/-! ### What follows -/

/-- A chunk that is passed, taken or in the buffer comes after the head. -/
theorem Kept.prefix_passed (h : Kept client capacity isHead script t s) :
    taken t ++ s.fetch.tee.buffer <+: passed t := by
  cases hcons : s.fetch.tee.consumed with
  | true => exact h.watched hcons ▸ List.prefix_refl _
  | false =>
    obtain ⟨hbuf, hprefix⟩ := h.gone hcons
    rwa [hbuf, List.append_nil]

/-- A task that has ended has nothing left but its end. -/
theorem Kept.remaining (h : Kept client capacity isHead script t s) {ending : Ending}
    (hend : s.fetch.ending = some ending) : s.fetch.remaining = ending.script := by
  have hsilent := h.tallies.silent (by rw [hend]; rfl)
  rw [Fetch.remaining_eq (Fetch.halfway_eq_none h.tallies.half hsilent), h.ending ending hend]

/-- When the task has ended, its script has been played to the end. -/
theorem Kept.played (h : Kept client capacity isHead script t s) {ending : Ending}
    (hend : s.fetch.ending = some ending) {pattern : Nat → Option IoError}
    (hp : Follows pattern (writes t)) :
    ending.script.play pattern (.of s.fetch.tee.client (writes t)) =
      (script.play pattern ⟨client.headers, none, []⟩).map fun r =>
        ((), r.2.conclude isHead pattern r.1) := by
  rw [← Script.play_supervise, ← h.remaining hend]
  exact h.resumes pattern hp

theorem Kept.splits (h : Kept client capacity isHead script t s) :
    Splits client capacity isHead script t s := by
  have hhead : announced t = s.fetch.tee.client.head.toList := by
    rw [h.told, h.tallies.announced]
  refine ⟨hhead, fun hne => ?_, fun hend pattern hp => ?_, fun message hend pattern hp => ?_,
    ⟨h.prefix_passed, h.watched⟩, ⟨h.tallies.chunks, fun hend => ?_⟩, h.capacity ▸ h.room,
    ⟨fun hend => ⟨fun gates => ?_, ?_⟩, fun hfinish => ?_⟩, fun hcons hend hstep => ?_⟩
  · -- nothing is passed before the head is announced
    cases hann : s.fetch.tee.announced with
    | some head => rw [h.told, hann]; rfl
    | none =>
      have hprefix := h.prefix_passed
      rw [(h.tallies.quiet hann).2] at hprefix
      exact absurd (List.prefix_nil.1 hprefix) hne
  · obtain ⟨⟨result, d⟩, hplay, hconcluded⟩ := Option.map_eq_some_iff.1 (h.played hend hp).symm
    have hof := (Prod.mk.inj hconcluded).2.symm
    refine ⟨result, d, hplay, ?_, hof⟩
    have hclient : s.fetch.tee.client.head = some (d.concludedHead result) := by
      rw [← d.head_conclude isHead pattern result, ← hof]
      rfl
    rw [hhead, hclient]
    rfl
  · exact Option.map_eq_none_iff.1 (h.played hend hp).symm
  · have hsilent := h.tallies.silent hend
    rw [h.tallies.chunks, Fetch.underway_eq_nil (Fetch.halfway_eq_none h.tallies.half hsilent),
      List.append_nil]
  · obtain ⟨ending, hending⟩ := Option.isSome_iff_exists.1 hend
    rw [Fetch.step, hending]
  · rw [Fetch.receive, hend]
    split
    · simp
    · split <;> simp
  · have hcons : s.fetch.tee.consumed = true := by
      cases hcons : s.fetch.tee.consumed with
      | true => rfl
      | false => simp [Fetch.receive, hcons] at hfinish
    obtain ⟨hend, hbuf⟩ := Fetch.receive_end hcons (.inl hfinish)
    exact ⟨hend, by rw [← h.watched hcons, hbuf, List.append_nil]⟩
  · rcases Fetch.step_eq_none hstep with hover | hheld | ⟨hcons', -⟩
    · simp [hend] at hover
    · exact hheld
    · exact absurd (hcons.symm.trans hcons') (by simp)

end Move

/-- **The protocol of a response that is split**, for every script of an origin, every client that
is uncommitted and whatever becomes of its link, every capacity of the buffer, and every order in
which the origin and its consumer take their steps. -/
theorem split_protocol {client : Client} {capacity : Nat} {isHead : Bool}
    {script : Script (Except OriginError Status)} {gates : Gates} {t : List (Splitting × Move)}
    {s : Splitting} (hc : client.head = none)
    (hrun : Run Splitting.move ⟨.start client capacity isHead script, gates⟩ t s) :
    Splits client capacity isHead script t s :=
  (Kept.of_run hc hrun).splits

/-- A client that refuses the second write. -/
def refusesSecond : Client := { link := .tape { refuses := fun n => n == 1 } }

/-- Two chunks, of which the second is passed on after the client has refused the first copy of
it. -/
def twoChunks : Script (Except OriginError Status) :=
  .write [1] fun _ => .write [2] fun _ => .done (.ok .ok)

/-- With room for one chunk, the origin can pass the second only when the first has been taken. -/
def takesBetween : List Move := List.replicate 4 .step ++ [.take] ++ List.replicate 3 .step

/-- The head has then been announced before the chunks, both of which are passed to the consumer;
the client has been sent both and has refused one, and the task is over with a chunk left to
take. -/
theorem split_protocol_takesBetween :
    ∃ t s, Run Splitting.move ⟨.start refusesSecond 0 false twoChunks, []⟩ t s ∧
      refusesSecond.head = none ∧ s.fetch.ending = some .returned ∧
      announced t = [⟨.ok, {}⟩] ∧ taken t = [[1]] ∧ taken t ++ s.fetch.tee.buffer = passed t ∧
      passed t = [[1], [2]] ∧ writes t = [([1], none), ([2], some IoError.clientGone)] ∧
      (writes t).map (·.1) = passed t ∧ s.fetch.tee.buffer.length ≤ 1 ∧
      s.fetch.receive.1 ≠ .pending := by
  let start : Splitting := ⟨.start refusesSecond 0 false twoChunks, []⟩
  let r := (follow Splitting.move start takesBetween).get rfl
  have hrun : Run Splitting.move start r.1 r.2 := run_of_follow (Option.some_get _).symm
  have hsplits : Splits refusesSecond 0 false twoChunks r.1 r.2 := split_protocol rfl hrun
  have hend : r.2.fetch.ending = some .returned := rfl
  exact ⟨r.1, r.2, hrun, rfl, hend, hsplits.head, rfl, hsplits.chunks.2 rfl, rfl, rfl,
    hsplits.written.2 rfl, hsplits.room, (hsplits.ended.1 rfl).2⟩

end Splitting
end EdgeCache
