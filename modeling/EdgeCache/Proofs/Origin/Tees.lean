import EdgeCache.Exchange.Fetch

/-!
# An origin at work on a tee

A step of an origin may put a chunk on the link of the client, may be the end of passing a chunk to
the tee, and changes the task; `Fetch.Turn` says how the three belong together, and
`Fetch.step_cases` reads a step as a turn.  A chunk goes to the client first and into the buffer
afterwards, so for a moment it is under way between the two.

`Fetch.Tallies` is what an origin, its client and its buffer have in common at any time, given what
has been written to the client and what has been passed to the tee; a turn keeps it
(`Fetch.Tallies.turn`).  `Fetch.step_eq_none` says what an origin waits for that does not go on.
-/

set_option autoImplicit false

namespace EdgeCache

/-- The chunk that is taken, if there is one. -/
def Frame.chunk? : Frame → Option Bytes
  | chunk data => some data
  | _ => none

/-! ## Writes to a client -/

/-- What the client reports of a write of the chunk, if the next step ends it. -/
def Client.reports (c : Client) (chunk : Bytes) : Option (Option IoError) :=
  match c.write chunk with
  | .finished _ failure => some failure
  | _ => none

namespace Client

theorem reports_finished {c c' : Client} {chunk : Bytes} {failure : Option IoError}
    (h : c.write chunk = .finished c' failure) : c.reports chunk = some failure := by
  rw [reports, h]

/-- A client whose head is fixed takes a chunk in one step, and that changes only its link. -/
theorem write_cases {c : Client} (chunk : Bytes) (hc : c.isCommitted = true) :
    c.write chunk = .blocked ∨
      ∃ link failure, c.write chunk = .finished { c with link } failure := by
  rw [write]
  rw [hc, Bool.not_true, Bool.false_and]
  simp only [Bool.false_eq_true, if_false]
  rw [send]
  split
  · split
    · exact .inr ⟨_, _, rfl⟩
    · split
      · exact .inr ⟨_, _, rfl⟩
      · exact .inl rfl
  · split
    · exact .inr ⟨_, _, rfl⟩
    · exact .inr ⟨_, _, rfl⟩

theorem head_of_write {c c' : Client} {chunk : Bytes} {failure : Option IoError}
    (hc : c.isCommitted = true) (h : c.write chunk = .finished c' failure) : c'.head = c.head := by
  rcases write_cases chunk hc with hb | ⟨link, failure', hw⟩
  · rw [hb] at h
    exact absurd h (by simp)
  · rw [hw, Progress.finished.injEq] at h
    rw [← h.1]

theorem write_ne_partly {c c' : Client} {chunk : Bytes} (hc : c.isCommitted = true) :
    c.write chunk ≠ .partly c' := by
  rcases write_cases chunk hc with hb | ⟨link, failure', hw⟩
  · rw [hb]
    exact nofun
  · rw [hw]
    exact nofun

/-- The part of a write that is not its end fixes the head. -/
theorem isCommitted_of_partly {c c' : Client} {chunk : Bytes} (h : c.write chunk = .partly c') :
    c'.isCommitted = true := by
  cases hc : c.head with
  | some head => exact absurd h (write_ne_partly (by rw [isCommitted, hc]; rfl))
  | none =>
    rw [write] at h
    split at h
    · rw [Progress.partly.injEq] at h
      rw [← h, isCommitted, commit, hc]
      rfl
    · rw [send] at h
      split at h
      · split at h
        · exact absurd h (by simp)
        · split at h <;> exact absurd h (by simp)
      · split at h <;> exact absurd h (by simp)

@[simp] theorem head_edit (c : Client) (f : Headers → Headers) : (c.edit f).head = c.head := rfl

@[simp] theorem head_release (c : Client) : c.release.head = c.head := rfl

theorem head_commit {c : Client} (h : c.head = none) (status : Status) :
    (c.commit status).head = some ⟨status, c.headers⟩ := by
  rw [commit, h]

end Client

/-! ## Steps of an origin -/

namespace Fetch

/-- The chunk that the origin is passing to its writer. -/
def chunk? (f : Fetch) : Option Bytes :=
  match f.script with
  | .write chunk _ => some chunk
  | _ => none

/-- The chunk that the next step of the origin puts on the client's link, with what the client
reports. -/
def attempt (f : Fetch) : Option (Bytes × Option IoError) :=
  if f.tee.halfway.isNone && f.tee.isCommitted then
    f.chunk?.bind fun chunk => (f.tee.client.reports chunk).map (chunk, ·)
  else none

/-- The chunk that the origin has passed to its writer with the next step. -/
def passes (f : Fetch) : Option Bytes :=
  f.chunk?.bind fun chunk =>
    match f.tee.write chunk with
    | .finished _ _ => some chunk
    | _ => none

/-- One step of an origin: what is put on the client's link, what has been passed to the writer, and
what becomes of the task. -/
inductive Turn (f : Fetch) : Option (Bytes × Option IoError) → Option Bytes → Fetch → Prop
  | close {ending : Ending} (hs : f.chunk? = none) : Turn f none none (f.close ending)
  | edit {g : Headers → Headers} {rest : Script Unit} (hs : f.script = .edit g rest) :
      Turn f none none { f with script := rest, tee := f.tee.edit g }
  | look {rest : Script Unit} (hs : f.chunk? = none) : Turn f none none { f with script := rest }
  | commit {status : Status} {rest : Script Unit} (hs : f.script = .commit status rest) :
      Turn f none none { f with script := rest, tee := f.tee.commit status }
  | open {chunk : Bytes} {k : Option IoError → Script Unit} (hs : f.script = .write chunk k)
      (hh : f.tee.halfway = none) (hc : f.tee.isCommitted = false) :
      Turn f none none { f with tee := f.tee.commit .ok }
  | send {chunk : Bytes} {k : Option IoError → Script Unit} {c : Client} {failure : Option IoError}
      (hs : f.script = .write chunk k) (hh : f.tee.halfway = none) (hc : f.tee.isCommitted = true)
      (hw : f.tee.client.write chunk = .finished c failure) (hfeed : f.tee.feeding = true) :
      Turn f (some (chunk, failure)) none
        { f with tee := { f.tee with client := c, halfway := some failure } }
  | sendOnly {chunk : Bytes} {k : Option IoError → Script Unit} {c : Client}
      {failure : Option IoError} (hs : f.script = .write chunk k) (hh : f.tee.halfway = none)
      (hc : f.tee.isCommitted = true) (hw : f.tee.client.write chunk = .finished c failure)
      (hfeed : f.tee.feeding = false) :
      Turn f (some (chunk, failure)) (some chunk)
        { f with script := k failure, tee := { f.tee with client := c } }
  | feed {chunk : Bytes} {k : Option IoError → Script Unit} {failure : Option IoError}
      (hs : f.script = .write chunk k) (hh : f.tee.halfway = some failure)
      (hcons : f.tee.consumed = true) (hroom : f.tee.hasRoom = true) :
      Turn f none (some chunk)
        { f with
            script := k failure
            tee := { f.tee with buffer := f.tee.buffer ++ [chunk], halfway := none } }
  | unfed {chunk : Bytes} {k : Option IoError → Script Unit} {failure : Option IoError}
      (hs : f.script = .write chunk k) (hh : f.tee.halfway = some failure)
      (hcons : f.tee.consumed = false) :
      Turn f none (some chunk)
        { f with script := k failure, tee := { f.tee with feeding := false, halfway := none } }

theorem attempt_eq_none {f : Fetch} (h : f.chunk? = none) : f.attempt = none := by
  rw [attempt, h, Option.bind_none, ite_self]

theorem passes_eq_none {f : Fetch} (h : f.chunk? = none) : f.passes = none := by
  rw [passes, h, Option.bind_none]

/-- A write of a tee, in the terms of `Turn`. -/
theorem turn_of_write {f f' : Fetch} {chunk : Bytes} {k : Option IoError → Script Unit}
    (hs : f.script = .write chunk k)
    (h : (∃ t, f.tee.write chunk = .partly t ∧ f' = { f with tee := t }) ∨
      ∃ t failure, f.tee.write chunk = .finished t failure ∧
        f' = { f with script := k failure, tee := t }) :
    f.Turn f.attempt f.passes f' := by
  have hch : f.chunk? = some chunk := by rw [chunk?, hs]
  cases hh : f.tee.halfway with
  | some failure =>
    have hatt : f.attempt = none := by simp [attempt, hh]
    rw [hatt]
    cases hcons : f.tee.consumed with
    | false =>
      have hw : f.tee.write chunk =
          .finished { f.tee with feeding := false, halfway := none } failure := by
        simp [Tee.write, hh, Tee.feed, hcons]
      have hpass : f.passes = some chunk := by simp [passes, hch, hw]
      rw [hpass]
      simp only [hw, reduceCtorEq, false_and, exists_false, Progress.finished.injEq,
        false_or] at h
      obtain ⟨t, failure', ⟨rfl, rfl⟩, rfl⟩ := h
      exact .unfed hs hh hcons
    | true =>
      cases hroom : f.tee.hasRoom with
      | false =>
        have hw : f.tee.write chunk = .blocked := by simp [Tee.write, hh, Tee.feed, hcons, hroom]
        simp [hw] at h
      | true =>
        have hw : f.tee.write chunk =
            .finished { f.tee with buffer := f.tee.buffer ++ [chunk], halfway := none }
              failure := by
          simp [Tee.write, hh, Tee.feed, hcons, hroom]
        have hpass : f.passes = some chunk := by simp [passes, hch, hw]
        rw [hpass]
        simp only [hw, reduceCtorEq, false_and, exists_false, Progress.finished.injEq,
          false_or] at h
        obtain ⟨t, failure', ⟨rfl, rfl⟩, rfl⟩ := h
        exact .feed hs hh hcons hroom
  | none =>
    cases hc : f.tee.isCommitted with
    | false =>
      have hatt : f.attempt = none := by simp [attempt, hh, hc]
      have hw : f.tee.write chunk = .partly (f.tee.commit .ok) := by simp [Tee.write, hh, hc]
      have hpass : f.passes = none := by simp [passes, hch, hw]
      rw [hatt, hpass]
      simp only [hw, reduceCtorEq, false_and, exists_false, Progress.partly.injEq, or_false] at h
      obtain ⟨t, rfl, rfl⟩ := h
      exact .open hs hh hc
    | true =>
      have hatt : f.attempt = (f.tee.client.reports chunk).map (chunk, ·) := by
        simp [attempt, hh, hc, hch]
      rcases Client.write_cases chunk hc with hb | ⟨link, failure, hcw⟩
      · have hw : f.tee.write chunk = .blocked := by simp [Tee.write, hh, hc, hb]
        simp [hw] at h
      · rw [hatt, Client.reports_finished hcw]
        cases hfeed : f.tee.feeding with
        | true =>
          have hw : f.tee.write chunk = .partly { f.tee with
              client := { f.tee.client with link }, halfway := some failure } := by
            simp [Tee.write, hh, hc, hcw, hfeed]
          have hpass : f.passes = none := by simp [passes, hch, hw]
          rw [hpass]
          simp only [hw, reduceCtorEq, false_and, exists_false, Progress.partly.injEq,
            or_false] at h
          obtain ⟨t, rfl, rfl⟩ := h
          exact .send hs hh hc hcw hfeed
        | false =>
          have hw : f.tee.write chunk =
              .finished { f.tee with client := { f.tee.client with link } } failure := by
            simp [Tee.write, hh, hc, hcw, hfeed]
          have hpass : f.passes = some chunk := by simp [passes, hch, hw]
          rw [hpass]
          simp only [hw, reduceCtorEq, false_and, exists_false, Progress.finished.injEq,
            false_or] at h
          obtain ⟨t, failure', ⟨rfl, rfl⟩, rfl⟩ := h
          exact .sendOnly hs hh hc hcw hfeed

/-- **What a step of an origin is.** -/
theorem step_cases {f f' : Fetch} {gates gates' : Gates} {event : Option Event}
    (h : f.step gates = some (f', gates', event)) :
    f.ending = none ∧ f.Turn f.attempt f.passes f' := by
  rw [step] at h
  split at h
  · exact absurd h (by simp)
  · next hend =>
    refine ⟨hend, ?_⟩
    have hquiet : ∀ {g : Fetch}, f.chunk? = none → f.Turn none none g →
        f.Turn f.attempt f.passes g := by
      intro g hs ht
      rwa [attempt_eq_none hs, passes_eq_none hs]
    cases hs : f.script with
    | done u =>
      have hch : f.chunk? = none := by rw [chunk?, hs]
      simp only [hs, Option.some.injEq, Prod.mk.injEq] at h
      rw [← h.1]
      exact hquiet hch (.close hch)
    | die message =>
      have hch : f.chunk? = none := by rw [chunk?, hs]
      simp only [hs, Option.some.injEq, Prod.mk.injEq] at h
      rw [← h.1]
      exact hquiet hch (.close hch)
    | edit g rest =>
      have hch : f.chunk? = none := by rw [chunk?, hs]
      simp only [hs, Script.step, Option.some.injEq, Prod.mk.injEq] at h
      rw [← h.1]
      exact hquiet hch (.edit hs)
    | inspect k | observe k | emit e rest =>
      have hch : f.chunk? = none := by rw [chunk?, hs]
      simp only [hs, Script.step, Option.some.injEq, Prod.mk.injEq] at h
      rw [← h.1]
      exact hquiet hch (.look hch)
    | commit status rest =>
      have hch : f.chunk? = none := by rw [chunk?, hs]
      simp only [hs, Script.step, Option.some.injEq, Prod.mk.injEq] at h
      rw [← h.1]
      exact hquiet hch (.commit hs)
    | await gate ticket rest =>
      have hch : f.chunk? = none := by rw [chunk?, hs]
      cases ticket with
      | none =>
        simp only [hs, Script.step, Option.some.injEq, Prod.mk.injEq] at h
        rw [← h.1]
        exact hquiet hch (.look hch)
      | some ticket =>
        simp only [hs, Script.step] at h
        split at h
        · exact absurd h (by simp)
        · next m hm =>
          split at hm
          · simp only [Option.some.injEq, Prod.mk.injEq] at h hm
            rw [← h.1, ← hm]
            exact hquiet hch (.look hch)
          · exact absurd hm (by simp)
    | write chunk k =>
      refine turn_of_write hs ?_
      simp only [hs, Script.step] at h
      cases hw : Tee.writer.write chunk f.tee with
      | blocked => simp [hw] at h
      | partly t =>
        simp only [hw, Option.some.injEq, Prod.mk.injEq] at h
        exact .inl ⟨t, hw, by rw [← h.1, hs]⟩
      | finished t failure =>
        simp only [hw, Option.some.injEq, Prod.mk.injEq] at h
        exact .inr ⟨t, failure, hw, h.1.symm⟩

end Fetch

/-! ## Waiting for something from outside -/

/-- The client has no room for another chunk. -/
def Client.isFull (c : Client) : Bool :=
  match c.link with
  | .channel ch => !ch.abandoned && !ch.hasRoom
  | .tape _ => false

/-- The script is about to write and there is no room, or it stands at a gate that does not let it
pass. -/
def Script.isHeld {α : Type} (gates : Gates) (full : Bool) : Script α → Bool
  | .write _ _ => full
  | .await gate (some ticket) _ => !gates.lets gate ticket
  | _ => false

/-- The origin is not over, and its script is held up by the client or at a gate. -/
def Fetch.isHeld (gates : Gates) (f : Fetch) : Bool :=
  f.ending.isNone && f.script.isHeld gates (f.tee.halfway.isNone && f.tee.client.isFull)

theorem Client.isFull_of_blocked {c : Client} {chunk : Bytes} (h : c.write chunk = .blocked) :
    c.isFull = true := by
  rw [write] at h
  split at h
  · exact absurd h (by simp)
  · rw [send] at h
    rw [isFull]
    cases hl : c.link with
    | channel ch =>
      simp only [hl] at h ⊢
      split at h
      · exact absurd h (by simp)
      · next hab =>
        split at h
        · exact absurd h (by simp)
        · next hroom => simp [hab, hroom]
    | tape t =>
      simp only [hl] at h
      split at h <;> exact absurd h (by simp)

/-- A script whose next action does not happen has ended, or waits to write or at a gate. -/
theorem Script.step_eq_none {σ α : Type} {on : Writer σ} {gates : Gates} {writer : σ} {s : Script α}
    (h : s.step on gates writer = none) :
    (∃ a, s = .done a) ∨ (∃ message, s = .die message) ∨
      (∃ chunk k, s = .write chunk k ∧ on.write chunk writer = .blocked) ∨
      ∀ full, s.isHeld gates full = true := by
  cases s with
  | done a => exact .inl ⟨a, rfl⟩
  | die message => exact .inr (.inl ⟨message, rfl⟩)
  | write chunk k =>
    refine .inr (.inr (.inl ⟨chunk, k, rfl, ?_⟩))
    cases hw : on.write chunk writer with
    | blocked => rfl
    | partly w' => simp [Script.step, hw] at h
    | finished w' failure => simp [Script.step, hw] at h
  | await gate ticket rest =>
    cases ticket with
    | none => simp [Script.step] at h
    | some ticket =>
      refine .inr (.inr (.inr fun full => ?_))
      simpa [Script.step, Script.isHeld] using h
  | _ => simp [Script.step] at h

/-- A tee that waits to write waits for its client, or for room in its buffer. -/
theorem Tee.blocked_cases {t : Tee} {chunk : Bytes} (h : t.write chunk = .blocked) :
    (t.halfway = none ∧ t.client.isFull = true) ∨ (t.consumed = true ∧ t.buffer ≠ []) := by
  rw [Tee.write] at h
  split at h
  · refine .inr ?_
    rw [feed] at h
    split at h
    · exact absurd h (by simp)
    · next hfeed =>
      split at hfeed
      · exact absurd hfeed (by simp)
      · next hcons =>
        split at hfeed
        · exact absurd hfeed (by simp)
        · next hroom =>
          refine ⟨by simpa using hcons, ?_⟩
          rintro hempty
          simp only [hasRoom, hempty, List.length_nil, decide_eq_true_eq] at hroom
          omega
  · next hhalf =>
    split at h
    · exact absurd h (by simp)
    · split at h
      · next hc => exact .inl ⟨hhalf, Client.isFull_of_blocked hc⟩
      · exact absurd h (by simp)
      · split at h <;> exact absurd h (by simp)

/-- An origin that does not go on is over, or is held up, or waits for room in its buffer. -/
theorem Fetch.step_eq_none {f : Fetch} {gates : Gates} (h : f.step gates = none) :
    f.ending.isSome = true ∨ f.isHeld gates = true ∨
      (f.tee.consumed = true ∧ f.tee.buffer ≠ []) := by
  rw [Fetch.step] at h
  cases hend : f.ending with
  | some ending => exact .inl rfl
  | none =>
    simp only [hend] at h
    split at h
    · exact absurd h (by simp)
    · exact absurd h (by simp)
    · next hdone hdie =>
      split at h
      · next hnone =>
        rcases Script.step_eq_none hnone with ⟨a, ha⟩ | ⟨message, hm⟩ | ⟨chunk, k, hs, hw⟩ | hgate
        · exact absurd ha hdone
        · exact absurd hm (hdie message)
        · rcases Tee.blocked_cases hw with ⟨hhalf, hfull⟩ | hbuf
          · refine .inr (.inl ?_)
            rw [isHeld, hend, hs, hhalf, hfull]
            rfl
          · exact .inr (.inr hbuf)
        · refine .inr (.inl ?_)
          rw [isHeld, hend, hgate]
          rfl
      · exact absurd h (by simp)

/-! ## The consumer -/

namespace Fetch

variable {f f' : Fetch} {data : Bytes}

theorem receive_chunk (h : f.receive = (.chunk data, f')) :
    ∃ rest, f.tee.consumed = true ∧ f.tee.buffer = data :: rest ∧
      f' = { f with tee := { f.tee with buffer := rest } } := by
  rw [receive] at h
  split at h
  · simp at h
  · next hcons =>
    split at h
    · next chunk rest hbuf =>
      simp only [Prod.mk.injEq, Frame.chunk.injEq] at h
      obtain ⟨rfl, rfl⟩ := h
      exact ⟨rest, by simpa using hcons, hbuf, rfl⟩
    · split at h <;> simp at h

theorem receive_end (hcons : f.tee.consumed = true)
    (h : f.receive.1 = .finish ∨ f.receive.1 = .gone) :
    f.ending.isSome = true ∧ f.tee.buffer = [] := by
  rw [receive] at h
  rw [hcons] at h
  simp only [Bool.not_true, Bool.false_eq_true, if_false] at h
  split at h
  · simp at h
  · next hbuf =>
    split at h
    · next hend => exact ⟨hend, hbuf⟩
    · simp at h

end Fetch

/-! ## What an origin, its client and its buffer have in common -/

theorem Tee.announced_commit {t : Tee} (status : Status) (h : t.announced = t.client.head) :
    (t.commit status).announced = (t.commit status).client.head := by
  rw [Tee.commit, Tee.isCommitted, Client.isCommitted]
  cases hc : t.client.head with
  | some head => simpa using h
  | none => simp [Client.head_commit hc, Tee.headers]

/-- A commit changes nothing of a tee but its heads. -/
theorem Tee.commit_eq (t : Tee) (status : Status) :
    (t.commit status).buffer = t.buffer ∧ (t.commit status).halfway = t.halfway ∧
      (t.commit status).consumed = t.consumed ∧ (t.commit status).feeding = t.feeding ∧
      ((t.commit status).announced = none → t.announced = none) := by
  rw [Tee.commit]
  split <;> simp

theorem Tee.capacity_commit (t : Tee) (status : Status) :
    (t.commit status).capacity = t.capacity := by
  rw [Tee.commit]
  split <;> rfl

/-- The chunk that has gone to the client but not yet into the buffer. -/
def Fetch.underway (f : Fetch) : List Bytes :=
  if f.tee.halfway.isSome then f.chunk?.toList else []

namespace Fetch

variable {f f' : Fetch} {a : Option (Bytes × Option IoError)} {p : Option Bytes}
  {writes : List (Bytes × Option IoError)} {passed : List Bytes}

theorem halfway_eq_none (hhalf : f.tee.halfway.isSome = true → f.chunk?.isSome = true)
    (hch : f.chunk? = none) : f.tee.halfway = none := by
  cases hh : f.tee.halfway with
  | none => rfl
  | some failure => simp [hh, hch] at hhalf

theorem underway_eq_nil (hh : f.tee.halfway = none) : f.underway = [] := by
  simp [underway, hh]

theorem underway_eq {failure : Option IoError} {chunk : Bytes} {k : Option IoError → Script Unit}
    (hh : f.tee.halfway = some failure) (hs : f.script = .write chunk k) :
    f.underway = [chunk] := by
  simp [underway, hh, chunk?, hs]

/-- What holds of an origin when these writes have gone to its client and these chunks have been
passed to its tee: the head is that of the client, every chunk passed has gone to the client, and
nothing moves before the head. -/
structure Tallies (writes : List (Bytes × Option IoError)) (passed : List Bytes) (f : Fetch) :
    Prop where
  announced : f.tee.announced = f.tee.client.head
  quiet : f.tee.announced = none → f.tee.halfway = none ∧ passed = []
  half : f.tee.halfway.isSome = true → f.chunk?.isSome = true
  chunks : writes.map (·.1) = passed ++ f.underway
  feeding : f.tee.consumed = true → f.tee.feeding = true
  silent : f.ending.isSome = true → f.chunk? = none

/-- Before the head is announced nothing is committed. -/
theorem Tallies.announced_ne_none (h : f.Tallies writes passed)
    (hc : f.tee.isCommitted = true) : f.tee.announced ≠ none := by
  rw [h.announced]
  simpa [Tee.isCommitted, Client.isCommitted, Option.isSome_iff_ne_none] using hc

/-- A step in which no chunk moves. -/
theorem Tallies.still (h : f.Tallies writes passed) (hh : f.tee.halfway = none)
    (hh' : f'.tee.halfway = none) (hann : f'.tee.announced = f'.tee.client.head)
    (hmono : f'.tee.announced = none → f.tee.announced = none)
    (hcons : f'.tee.consumed = f.tee.consumed) (hfeed : f'.tee.feeding = f.tee.feeding)
    (hover : f'.ending.isSome = true → f'.chunk? = none) : f'.Tallies writes passed where
  announced := hann
  quiet hn := ⟨hh', (h.quiet (hmono hn)).2⟩
  half hs := by simp [hh'] at hs
  chunks := by rw [h.chunks, underway_eq_nil hh, underway_eq_nil hh']
  feeding hc := by rw [hfeed, h.feeding (hcons ▸ hc)]
  silent := hover

/-- **A step of an origin** keeps what it has in common with its client and its buffer. -/
theorem Tallies.turn (h : f.Tallies writes passed) (hend : f.ending = none) (ht : f.Turn a p f') :
    f'.Tallies (writes ++ a.toList) (passed ++ p.toList) := by
  have hworking : ∀ {g : Fetch}, g.ending = f.ending → g.ending.isSome = true →
      g.chunk? = none := fun hg hs => by simp [hg, hend] at hs
  -- most steps move no chunk
  have hstill : ∀ {g : Fetch}, g.Tallies writes passed →
      g.Tallies (writes ++ (none : Option (Bytes × Option IoError)).toList)
        (passed ++ (none : Option Bytes).toList) := by
    intro g hg
    simpa using hg
  cases ht with
  | close hs =>
    have hh := halfway_eq_none h.half hs
    exact hstill (h.still hh hh h.announced id rfl rfl fun _ => hs)
  | edit hs =>
    have hh := halfway_eq_none h.half (by rw [chunk?, hs])
    exact hstill (h.still hh hh h.announced id rfl rfl (hworking rfl))
  | look hs =>
    have hh := halfway_eq_none h.half hs
    exact hstill (h.still hh hh h.announced id rfl rfl (hworking rfl))
  | @commit status rest hs =>
    have hh := halfway_eq_none h.half (by rw [chunk?, hs])
    obtain ⟨-, hhalf, hcons, hfeed, hann⟩ := Tee.commit_eq f.tee status
    exact hstill (h.still hh (hhalf.trans hh) (Tee.announced_commit status h.announced) hann hcons
      hfeed (hworking rfl))
  | «open» hs hh hc =>
    obtain ⟨-, hhalf, hcons, hfeed, hann⟩ := Tee.commit_eq f.tee .ok
    exact hstill (h.still hh (hhalf.trans hh) (Tee.announced_commit .ok h.announced) hann hcons
      hfeed (hworking rfl))
  | @send chunk k c failure hs hh hc hwrite hfeed =>
    have hne := h.announced_ne_none hc
    refine ⟨?_, fun hn => absurd hn hne, fun _ => ?_, ?_, h.feeding, hworking rfl⟩
    · exact h.announced.trans (Client.head_of_write hc hwrite).symm
    · simp [chunk?, hs]
    · rw [List.map_append, h.chunks, underway_eq_nil hh]
      simp [underway, chunk?, hs]
  | @sendOnly chunk k c failure hs hh hc hwrite hfeed =>
    have hne := h.announced_ne_none hc
    refine ⟨?_, fun hn => absurd hn hne, ?_, ?_, h.feeding, hworking rfl⟩
    · exact h.announced.trans (Client.head_of_write hc hwrite).symm
    · simp [hh]
    · rw [List.map_append, h.chunks, underway_eq_nil hh]
      simp [underway, hh]
  | @feed chunk k failure hs hh hcons hroom =>
    have hne : f.tee.announced ≠ none := fun hn => by simp [(h.quiet hn).1] at hh
    refine ⟨h.announced, fun hn => absurd hn hne, by simp, ?_, h.feeding, hworking rfl⟩
    rw [List.map_append, h.chunks, underway_eq hh hs, underway_eq_nil rfl]
    simp
  | @unfed chunk k failure hs hh hcons =>
    have hne : f.tee.announced ≠ none := fun hn => by simp [(h.quiet hn).1] at hh
    refine ⟨h.announced, fun hn => absurd hn hne, by simp, ?_, fun hc => ?_, hworking rfl⟩
    · rw [List.map_append, h.chunks, underway_eq hh hs, underway_eq_nil rfl]
      simp
    · exact absurd (hcons.symm.trans hc) (by simp)

/-- An announced head stays. -/
theorem Tallies.announced_turn (h : f.Tallies writes passed) (ht : f.Turn a p f') {head : Head}
    (hann : f.tee.announced = some head) : f'.tee.announced = some head := by
  have hcommit : ∀ status, f.tee.commit status = f.tee := by
    intro status
    rw [Tee.commit, if_pos]
    rw [Tee.isCommitted, Client.isCommitted, ← h.announced, hann]
    rfl
  cases ht with
  | commit | «open» => simpa only [hcommit] using hann
  | _ => exact hann

theorem Turn.consumed (ht : f.Turn a p f') : f'.tee.consumed = f.tee.consumed := by
  cases ht with
  | commit | «open» => exact (Tee.commit_eq f.tee _).2.2.1
  | _ => rfl

/-- As long as there is a consumer, what is passed to the tee goes into the buffer. -/
theorem Turn.buffer (ht : f.Turn a p f') (hcons : f.tee.consumed = true)
    (hfeed : f.tee.feeding = true) : f'.tee.buffer = f.tee.buffer ++ p.toList := by
  cases ht with
  | commit | «open» =>
    rw [Option.toList_none, List.append_nil]
    exact (Tee.commit_eq f.tee _).1
  | sendOnly hs hh hc hw hfeed' => simp [hfeed] at hfeed'
  | feed => rfl
  | unfed hs hh hgone => simp [hcons] at hgone
  | _ => exact (List.append_nil _).symm

/-- Without a consumer nothing goes into the buffer. -/
theorem Turn.buffer_of_gone (ht : f.Turn a p f') (hcons : f.tee.consumed = false) :
    f'.tee.buffer = f.tee.buffer := by
  cases ht with
  | commit | «open» => exact (Tee.commit_eq f.tee _).1
  | feed hs hh hcons' => simp [hcons] at hcons'
  | _ => rfl

theorem Turn.capacity (ht : f.Turn a p f') : f'.tee.capacity = f.tee.capacity := by
  cases ht with
  | commit | «open» => exact Tee.capacity_commit f.tee _
  | _ => rfl

/-- A chunk goes into the buffer only if there is room. -/
theorem Turn.room (ht : f.Turn a p f') (h : f.tee.buffer.length ≤ max 1 f.tee.capacity) :
    f'.tee.buffer.length ≤ max 1 f.tee.capacity := by
  cases ht with
  | commit | «open» =>
    rw [(Tee.commit_eq f.tee _).1]
    exact h
  | feed hs hh hcons hroom =>
    rw [List.length_append, List.length_singleton]
    exact of_decide_eq_true hroom
  | _ => exact h

end Fetch
end EdgeCache
