import EdgeCache.Proofs.Origin.Deliveries

/-!
# What a client that accepts everything receives

A script that waits at no gate is run to its end by a client that refuses nothing.  What such a
client has received then is what the script plays when no write fails (`Script.Finishes.of_play`),
so an answer is found by playing its script, which is a computation, and holds of the actions taken
one by one.
-/

set_option autoImplicit false

namespace EdgeCache

/-- Taken action by action on a client, the script ends with a value and leaves the client so. -/
inductive Script.Finishes {α : Type} : Client → Script α → α → Client → Prop
  | done {c : Client} {a : α} : Finishes c (.done a) a c
  | next {c c' : Client} {s : Script α} {m : Moved Client α} {a : α}
      (h : s.step Client.writer [] c = some m) (hrest : Finishes m.writer m.script a c') :
      Finishes c s a c'

/-- A client that has received nothing, and accepts whatever is written. -/
structure Client.Receptive (c : Client) : Prop where
  uncommitted : c.head = none
  accepting : ∃ t, c.link = .tape t ∧ t.chunks = [] ∧ ∀ n, t.refuses n = false

theorem Client.Receptive.edit {c : Client} (h : c.Receptive) (f : Headers → Headers) :
    (c.edit f).Receptive :=
  ⟨h.uncommitted, h.accepting⟩

namespace Script

variable {α : Type}

/-- A script can end in one way only. -/
theorem Finishes.unique {s : Script α} {c c' c'' : Client} {a b : α} (h : Finishes c s a c')
    (h' : Finishes c s b c'') : a = b ∧ c' = c'' := by
  induction h with
  | done =>
    cases h' with
    | done => exact ⟨rfl, rfl⟩
    | next h => simp [Script.step] at h
  | next h _ ih =>
    cases h' with
    | done => simp [Script.step] at h
    | next h' hrest' =>
      obtain rfl := Option.some.inj (h.symm.trans h')
      exact ih hrest'

/-- On the client the script fixes this head, writes these chunks and ends with this value. -/
def Gives (s : Script α) (c : Client) (head : Head) (chunks : List Bytes) (a : α) : Prop :=
  ∃ c', Finishes c s a c' ∧ c'.head = some head ∧ c'.recorded = chunks

theorem Gives.unique {s : Script α} {c : Client} {head head' : Head} {chunks chunks' : List Bytes}
    {a b : α} (h : s.Gives c head chunks a) (h' : s.Gives c head' chunks' b) :
    head = head' ∧ chunks = chunks' ∧ a = b := by
  obtain ⟨c', hfinishes, hhead, rfl⟩ := h
  obtain ⟨c'', hfinishes', hhead', rfl⟩ := h'
  obtain ⟨rfl, rfl⟩ := hfinishes.unique hfinishes'
  exact ⟨Option.some.inj (hhead.symm.trans hhead'), rfl, rfl⟩

/-- The client is one that refuses nothing, and what it has received is the delivery. -/
structure Holds (c : Client) (d : Delivery) : Prop where
  headers : c.headers = d.headers
  head : c.head = d.head
  link : ∃ t, c.link = .tape t ∧ t.chunks = d.writes.map Prod.fst ∧ ∀ n, t.refuses n = false

theorem Holds.edit {c : Client} {d : Delivery} (h : Holds c d) (f : Headers → Headers) :
    Holds (c.edit f) (d.edit f) where
  headers := congrArg f h.headers
  head := h.head
  link := h.link

theorem Holds.commit {c : Client} {d : Delivery} (h : Holds c d) (status : Status) :
    Holds (c.commit status) (d.commit status) := by
  rw [Client.commit, Delivery.commit, ← h.head]
  cases hc : c.head with
  | some head => exact h
  | none => exact ⟨h.headers, by rw [h.headers], h.link⟩

/-- Once its head is fixed, a write to such a client is over at once. -/
theorem Holds.write {c : Client} {d : Delivery} (h : Holds c d) (hc : c.isCommitted = true)
    (chunk : Bytes) :
    ∃ c', c.write chunk = .finished c' none ∧ Holds c' (d.write chunk none) := by
  obtain ⟨t, hlink, hchunks, haccepts⟩ := h.link
  let t' : Tape := { t with attempts := t.attempts + 1, chunks := t.chunks ++ [chunk] }
  refine ⟨{ c with link := .tape t' }, ?_, ?_⟩
  · simp only [Client.write, hc, Client.send, hlink, haccepts, Bool.not_true, Bool.false_and,
      Bool.false_eq_true, if_false, t']
  · have hcommitted : d.head.isSome = true := h.head ▸ hc
    rw [Delivery.write, Delivery.commit_of_isSome hcommitted]
    exact ⟨h.headers, h.head, t', rfl, by simp [t', hchunks], haccepts⟩

/-- Before its head is fixed, the first step of a write fixes it. -/
theorem Holds.write_uncommitted {c : Client} {d : Delivery} (h : Holds c d)
    (hc : c.isCommitted = false) (chunk : Bytes) : c.write chunk = .partly (c.commit .ok) := by
  obtain ⟨t, hlink, -, haccepts⟩ := h.link
  simp [Client.write, hc, Client.commitsOnWrite, hlink, haccepts]

/-- **A client that refuses nothing receives what the script plays.** -/
theorem Finishes.of_play {s : Script α} (hs : s.Waitless) {c : Client} {d d' : Delivery} {a : α}
    (hc : Holds c d) (h : s.play (fun _ => none) d = some (a, d')) :
    ∃ c', Finishes c s a c' ∧ Holds c' d' := by
  induction hs generalizing c d with
  | done =>
    obtain ⟨rfl, rfl⟩ := Prod.mk.inj (Option.some.inj h)
    exact ⟨c, .done, hc⟩
  | die => cases h
  | edit _ ih =>
    obtain ⟨c', hrest, hc'⟩ := ih (hc.edit _) h
    exact ⟨c', .next rfl hrest, hc'⟩
  | @inspect k _ ih =>
    obtain ⟨c', hrest, hc'⟩ := ih d.headers hc h
    rw [← hc.headers] at hrest
    exact ⟨c', .next rfl hrest, hc'⟩
  | @observe k _ ih =>
    obtain ⟨c', hrest, hc'⟩ := ih d.head.isSome hc h
    rw [← hc.head] at hrest
    exact ⟨c', .next rfl hrest, hc'⟩
  | commit _ ih =>
    obtain ⟨c', hrest, hc'⟩ := ih (hc.commit _) h
    exact ⟨c', .next rfl hrest, hc'⟩
  | @write chunk k _ ih =>
    -- the write itself, when the head is fixed
    have hwrite : ∀ {c d}, Holds c d → c.isCommitted = true →
        (k none).play (fun _ => none) (d.write chunk none) = some (a, d') →
        ∃ c', Finishes c (.write chunk k) a c' ∧ Holds c' d' := by
      intro c d hc hcommitted h
      obtain ⟨c₁, hstep, hc₁⟩ := hc.write hcommitted chunk
      obtain ⟨c', hrest, hc'⟩ := ih none hc₁ h
      have hmoved :
          (Script.write chunk k).step Client.writer [] c = some ⟨k none, c₁, [], none⟩ := by
        simp only [Script.step, Client.writer, hstep]
      exact ⟨c', .next hmoved hrest, hc'⟩
    cases hcommitted : c.isCommitted with
    | true => exact hwrite hc hcommitted h
    | false =>
      have hcommits : (c.commit .ok).isCommitted = true := by
        rw [Client.isCommitted, (hc.commit .ok).head]
        exact Delivery.isSome_head_commit d .ok
      obtain ⟨c', hrest, hc'⟩ := hwrite (hc.commit .ok) hcommits (by rwa [Delivery.write_commit])
      have hmoved : (Script.write chunk k).step Client.writer [] c =
          some ⟨.write chunk k, c.commit .ok, [], none⟩ := by
        simp only [Script.step, Client.writer, hc.write_uncommitted hcommitted]
      exact ⟨c', .next hmoved hrest, hc'⟩
  | emit _ ih =>
    obtain ⟨c', hrest, hc'⟩ := ih hc h
    exact ⟨c', .next rfl hrest, hc'⟩

/-- What a script plays on an empty delivery is what it gives a client that accepts everything. -/
theorem Gives.of_play {s : Script α} (hs : s.Waitless) {c : Client} (hc : c.Receptive) {a : α}
    {d : Delivery} {head : Head} (h : s.play (fun _ => none) ⟨c.headers, none, []⟩ = some (a, d))
    (hhead : d.head = some head) : s.Gives c head (d.writes.map Prod.fst) a := by
  obtain ⟨t, hlink, hchunks, haccepts⟩ := hc.accepting
  have hholds : Holds c ⟨c.headers, none, []⟩ := ⟨rfl, hc.uncommitted, t, hlink, hchunks, haccepts⟩
  obtain ⟨c', hfinishes, hc'⟩ := Finishes.of_play hs hholds h
  obtain ⟨t', hlink', hchunks', -⟩ := hc'.link
  refine ⟨c', hfinishes, hc'.head.trans hhead, ?_⟩
  rw [Client.recorded, hlink']
  exact hchunks'

end Script
end EdgeCache
