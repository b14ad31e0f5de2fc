import EdgeCache.Proofs.Origin.Scripts
import EdgeCache.Proofs.Origin.Tees

/-!
# What a script delivers

What a script does depends on its writer only through what the writer shows it: the header fields,
whether the head is committed, and the outcomes of the writes.  `Script.play` runs a script on just
that — a `Delivery`, with the outcomes given beforehand — and so says what any writer delivers that
reports these outcomes.  Both writers of this library do: a client that fixes its head before the
first chunk goes out (`Client.play_step`), and a tee, whatever its client and its consumer do
(`Fetch.play_step`).
-/

set_option autoImplicit false

namespace EdgeCache

/-! ## Deliveries -/

/-- A response as far as it has come: the header fields, the head once it is committed, and the
chunks written with their outcomes. -/
structure Delivery where
  headers : Headers
  head : Option Head := none
  writes : List (Bytes × Option IoError) := []

namespace Delivery

def edit (f : Headers → Headers) (d : Delivery) : Delivery := { d with headers := f d.headers }

def commit (status : Status) (d : Delivery) : Delivery :=
  match d.head with
  | some _ => d
  | none => { d with head := some ⟨status, d.headers⟩ }

/-- One more chunk; a head is committed before it if there is none. -/
def write (chunk : Bytes) (failure : Option IoError) (d : Delivery) : Delivery :=
  { d.commit .ok with writes := d.writes ++ [(chunk, failure)] }

/-- What a client holds after these writes. -/
def of (c : Client) (writes : List (Bytes × Option IoError)) : Delivery :=
  ⟨c.headers, c.head, writes⟩

@[simp] theorem writes_of (c : Client) (writes : List (Bytes × Option IoError)) :
    (of c writes).writes = writes := rfl

theorem commit_of_isSome {d : Delivery} (h : d.head.isSome = true) (status : Status) :
    d.commit status = d := by
  obtain ⟨head, hhead⟩ := Option.isSome_iff_exists.1 h
  rw [commit, hhead]

theorem isSome_head_commit (d : Delivery) (status : Status) :
    (d.commit status).head.isSome = true := by
  rw [commit]
  cases h : d.head with
  | some head => simp [h]
  | none => rfl

@[simp] theorem writes_commit (d : Delivery) (status : Status) :
    (d.commit status).writes = d.writes := by
  rw [commit]
  cases d.head <;> rfl

theorem of_commit (c : Client) (status : Status) (writes : List (Bytes × Option IoError)) :
    of (c.commit status) writes = (of c writes).commit status := by
  cases h : c.head with
  | some head => simp only [of, commit, Client.commit, h]
  | none => simp only [of, commit, Client.commit, h]

theorem write_commit (d : Delivery) (chunk : Bytes) (failure : Option IoError) :
    (d.commit .ok).write chunk failure = d.write chunk failure := by
  rw [write, write, commit_of_isSome (isSome_head_commit d .ok), writes_commit]

end Delivery

/-- The outcomes of the writes are those that the pattern gives, in order. -/
def Follows (pattern : Nat → Option IoError) (writes : List (Bytes × Option IoError)) : Prop :=
  ∀ n p, writes[n]? = some p → p.2 = pattern n

namespace Follows

variable {pattern : Nat → Option IoError} {writes more : List (Bytes × Option IoError)}

theorem of_append (h : Follows pattern (writes ++ more)) : Follows pattern writes := by
  intro n p hp
  refine h n p ?_
  rw [List.getElem?_append_left (List.getElem?_eq_some_iff.1 hp).1, hp]

theorem last {p : Bytes × Option IoError} (h : Follows pattern (writes ++ [p])) :
    p.2 = pattern writes.length :=
  h writes.length p (by simp)

/-- All outcomes are those of a pattern. -/
theorem self (writes : List (Bytes × Option IoError)) :
    Follows (fun n => (writes[n]?).bind (·.2)) writes := by
  intro n p hp
  simp only [hp, Option.bind_some]

end Follows

/-! ## Playing a script -/

namespace Script

/-- What a script ends with and has delivered when the outcomes of its writes are those of the
pattern; `none` if it dies. -/
def play {α : Type} (pattern : Nat → Option IoError) :
    Script α → Delivery → Option (α × Delivery)
  | done a, d => some (a, d)
  | die _, _ => none
  | edit f rest, d => rest.play pattern (d.edit f)
  | inspect k, d => (k d.headers).play pattern d
  | observe k, d => (k d.head.isSome).play pattern d
  | commit status rest, d => rest.play pattern (d.commit status)
  | write chunk k, d =>
    (k (pattern d.writes.length)).play pattern (d.write chunk (pattern d.writes.length))
  | await _ _ rest, d => rest.play pattern d
  | emit _ rest, d => rest.play pattern d

variable {α β : Type} {pattern : Nat → Option IoError}

theorem play_bind (s : Script α) (k : α → Script β) (d : Delivery) :
    (s.bind k).play pattern d = (s.play pattern d).bind fun r => (k r.1).play pattern r.2 := by
  induction s generalizing d with
  | done | die => rfl
  | edit f rest ih | commit status rest ih | await gate ticket rest ih | emit e rest ih =>
    exact ih _
  | inspect g ih | observe g ih | write chunk g ih => exact ih _ _

/-- A script that does not die delivers, whatever becomes of its writes. -/
theorem Returns.play_isSome {s : Script α} (h : s.Returns) (pattern : Nat → Option IoError)
    (d : Delivery) : (s.play pattern d).isSome = true := by
  induction h generalizing d with
  | done => rfl
  | edit _ ih | commit _ ih | await _ ih | emit _ ih => exact ih _
  | inspect _ ih | observe _ ih | write _ ih => exact ih _ _

/-- After these writes, what is left of a script delivers from where the client is what the whole
script delivers from the start. -/
def Resumes (whole rest : Script α) (start : Delivery) (c : Client)
    (writes : List (Bytes × Option IoError)) : Prop :=
  ∀ pattern, Follows pattern writes → rest.play pattern (.of c writes) = whole.play pattern start

theorem Resumes.step {whole rest rest' : Script α} {start : Delivery} {c c' : Client}
    {writes more : List (Bytes × Option IoError)} (h : whole.Resumes rest start c writes)
    (hstep : ∀ pattern, Follows pattern (writes ++ more) →
      rest'.play pattern (.of c' (writes ++ more)) = rest.play pattern (.of c writes)) :
    whole.Resumes rest' start c' (writes ++ more) :=
  fun pattern hp => (hstep pattern hp).trans (h pattern hp.of_append)

/-- The script is about to write a chunk. -/
def isWriting : Script α → Bool
  | write _ _ => true
  | _ => false

theorem eq_write {s : Script α} (h : s.isWriting = true) : ∃ chunk k, s = write chunk k := by
  cases s with
  | write chunk k => exact ⟨chunk, k, rfl⟩
  | _ => simp [isWriting] at h

/-- Fixing the head is a part of a write. -/
theorem play_commit_ok (chunk : Bytes) (k : Option IoError → Script α) (d : Delivery) :
    (write chunk k).play pattern (d.commit .ok) = (write chunk k).play pattern d := by
  rw [play, play, Delivery.write_commit, Delivery.writes_commit]

end Script

/-! ## What becomes of a result -/

/-- The head of a response when the origin has ended with a result: the one that is committed, or
else one with the status returned, or that of a plain `502 Bad Gateway`. -/
def Delivery.concludedHead (d : Delivery) (result : Except OriginError Status) : Head :=
  match d.head, result with
  | some head, _ => head
  | none, .ok status => ⟨status, d.headers⟩
  | none, .error _ => ⟨.badGateway, Plain.describe .badGateway d.headers⟩

/-- The response when the origin has ended with a result.  A failure without a head is answered in
full, with the body unless the request was a `HEAD` request. -/
def Delivery.conclude (isHead : Bool) (pattern : Nat → Option IoError) (d : Delivery) :
    Except OriginError Status → Delivery
  | .ok status => d.commit status
  | .error _ =>
    if d.head.isSome then d
    else
      let answer := (d.edit (Plain.describe .badGateway)).commit .badGateway
      if isHead then answer
      else answer.write (Plain.body .badGateway) (pattern d.writes.length)

theorem Delivery.head_conclude (isHead : Bool) (pattern : Nat → Option IoError) (d : Delivery)
    (result : Except OriginError Status) :
    (d.conclude isHead pattern result).head = some (d.concludedHead result) := by
  cases result with
  | ok status =>
    cases hd : d.head with
    | some head => simp [conclude, concludedHead, commit, hd]
    | none => simp [conclude, concludedHead, commit, hd]
  | error cause =>
    cases hd : d.head with
    | some head => simp [conclude, concludedHead, hd]
    | none => cases isHead <;> simp [conclude, concludedHead, edit, commit, write, hd]

/-- **The task delivers what its origin delivers**, and concludes it. -/
theorem Script.play_supervise (isHead : Bool) (s : Script (Except OriginError Status))
    (pattern : Nat → Option IoError) (d : Delivery) :
    (Fetch.supervise isHead s).play pattern d =
      (s.play pattern d).map fun r => ((), r.2.conclude isHead pattern r.1) := by
  rw [Fetch.supervise, play_bind, Option.map_eq_bind]
  congr 1
  funext r
  obtain ⟨result, d'⟩ := r
  cases result with
  | ok status =>
    cases hd : d'.head with
    | some head => simp [ifUncommitted, play, Delivery.conclude, Delivery.commit, hd]
    | none => simp [ifUncommitted, play, Delivery.conclude, Delivery.commit, hd]
  | error cause =>
    cases hd : d'.head with
    | some head => simp [ifUncommitted, play, Delivery.conclude, hd]
    | none =>
      cases isHead <;>
        simp [ifUncommitted, plain, bind, play, Delivery.conclude, Delivery.edit, hd]

/-- The writer shows a script what is in the delivery. -/
structure Writer.Shows {σ : Type} (on : Writer σ) (view : σ → Delivery) : Prop where
  headers : ∀ w, on.headers w = (view w).headers
  isCommitted : ∀ w, on.isCommitted w = (view w).head.isSome
  edit : ∀ f w, view (on.edit f w) = (view w).edit f
  commit : ∀ status w, view (on.commit status w) = (view w).commit status

/-- An action that is no write leads on to the same delivery. -/
theorem Script.play_step {α σ : Type} {pattern : Nat → Option IoError} {on : Writer σ}
    {view : σ → Delivery} {gates : Gates} {w : σ} {s : Script α} {m : Moved σ α}
    (hview : on.Shows view) (h : s.step on gates w = some m) (hs : s.isWriting = false) :
    m.script.play pattern (view m.writer) = s.play pattern (view w) := by
  cases s with
  | done | die => simp [Script.step] at h
  | edit f rest =>
    obtain rfl := Option.some.inj h
    rw [play, hview.edit]
  | inspect k =>
    obtain rfl := Option.some.inj h
    rw [play, hview.headers]
  | observe k =>
    obtain rfl := Option.some.inj h
    rw [play, hview.isCommitted]
  | commit status rest =>
    obtain rfl := Option.some.inj h
    rw [play, hview.commit]
  | write chunk k => simp [isWriting] at hs
  | await gate ticket rest =>
    cases ticket with
    | none =>
      obtain rfl := Option.some.inj h
      rfl
    | some ticket =>
      simp only [Script.step, Option.ite_none_right_eq_some, Option.some.injEq] at h
      obtain ⟨-, rfl⟩ := h
      rfl
  | emit e rest =>
    obtain rfl := Option.some.inj h
    rfl

/-! ## Clients -/

/-- A write fixes the head before anything else, even if it fails. -/
def Link.commitsFirst : Link → Bool
  | .channel _ => true
  | .tape t => t.commitsFirst

/-- What the next step of the script puts on the link of its client, with what the client
reports. -/
def Script.attempt {α : Type} (c : Client) : Script α → Option (Bytes × Option IoError)
  | write chunk _ => (c.reports chunk).map (chunk, ·)
  | _ => none

namespace Client

theorem shows (writes : List (Bytes × Option IoError)) : writer.Shows (Delivery.of · writes) where
  headers _ := rfl
  isCommitted _ := rfl
  edit _ _ := rfl
  commit status c := Delivery.of_commit c status writes

/-- A client that fixes its head first, and has none yet, does nothing else in the first step of a
write. -/
theorem write_of_uncommitted {c : Client} (chunk : Bytes) (hfirst : c.link.commitsFirst = true)
    (hc : c.isCommitted = false) : c.write chunk = .partly (c.commit .ok) := by
  have hcommits : c.commitsOnWrite = true := by
    cases hlink : c.link with
    | channel => simp only [commitsOnWrite, hlink]
    | tape t =>
      rw [hlink, Link.commitsFirst] at hfirst
      simp only [commitsOnWrite, hlink, hfirst, Bool.true_or]
  simp only [write, hc, hcommits, Bool.not_false, Bool.and_self, if_true]

/-- A write to a client that has its head. -/
theorem play_write {α : Type} {pattern : Nat → Option IoError} {c c' : Client} {chunk : Bytes}
    {failure : Option IoError} {k : Option IoError → Script α}
    {writes : List (Bytes × Option IoError)} (hc : c.isCommitted = true)
    (hwrite : c.write chunk = .finished c' failure)
    (hpattern : Follows pattern (writes ++ [(chunk, failure)])) :
    (k failure).play pattern (.of c' (writes ++ [(chunk, failure)])) =
      (Script.write chunk k).play pattern (.of c writes) := by
  have hfailure : failure = pattern writes.length := hpattern.last
  have hcommit : (Delivery.of c writes).commit .ok = .of c writes :=
    Delivery.commit_of_isSome (d := .of c writes) hc .ok
  rw [Script.play, Delivery.write, hcommit, Delivery.writes_of, ← hfailure]
  rcases write_cases chunk hc with hblocked | ⟨link, failure', hfinished⟩
  · simp [hblocked] at hwrite
  · rw [hfinished, Progress.finished.injEq] at hwrite
    rw [← hwrite.1]
    rfl

/-- **A client delivers what the script plays**, if the outcomes of its writes are those of the
pattern. -/
theorem play_step {α : Type} {pattern : Nat → Option IoError} {gates : Gates} {c : Client}
    {s : Script α} {m : Moved Client α} {writes : List (Bytes × Option IoError)}
    (h : s.step writer gates c = some m) (hfirst : c.link.commitsFirst = true)
    (hpattern : Follows pattern (writes ++ (s.attempt c).toList)) :
    m.script.play pattern (.of m.writer (writes ++ (s.attempt c).toList)) =
      s.play pattern (.of c writes) := by
  cases hs : s.isWriting with
  | false =>
    have hattempt : s.attempt c = none := by
      cases s <;> first | rfl | simp [Script.isWriting] at hs
    rw [hattempt, Option.toList_none, List.append_nil]
    exact Script.play_step (shows writes) h hs
  | true =>
    obtain ⟨chunk, k, rfl⟩ := Script.eq_write hs
    cases hc : c.isCommitted with
    | false =>
      have hwrite := write_of_uncommitted chunk hfirst hc
      simp only [Script.step, writer, hwrite, Option.some.injEq] at h
      subst h
      simp only [Script.attempt, reports, hwrite, Option.map_none, Option.toList_none,
        List.append_nil]
      rw [Delivery.of_commit, Script.play_commit_ok]
    | true =>
      rcases write_cases chunk hc with hblocked | ⟨link, failure, hwrite⟩
      · simp [Script.step, writer, hblocked] at h
      · simp only [Script.step, writer, hwrite, Option.some.injEq] at h
        subst h
        simp only [Script.attempt, reports_finished hwrite, Option.map_some, Option.toList_some]
          at hpattern ⊢
        exact play_write hc hwrite hpattern

/-! ### What becomes of the link -/

theorem link_commit (c : Client) (status : Status) : (c.commit status).link = c.link := by
  rw [commit]
  cases c.head <;> rfl

theorem send_ne_partly {c c' : Client} {chunk : Bytes} : c.send chunk ≠ .partly c' := by
  intro h
  rw [send] at h
  split at h
  · split at h
    · exact absurd h (by simp)
    · split at h <;> exact absurd h (by simp)
  · split at h <;> exact absurd h (by simp)

/-- Putting a chunk on a link leaves what there is of it, but for the chunk and the counts: those of
what a channel has accepted, if it has not refused the chunk, and of the attempts on a tape. -/
theorem link_of_send {c c' : Client} {chunk : Bytes} {failure : Option IoError}
    (h : c.send chunk = .finished c' failure) :
    (∃ ch, c.link = .channel ch ∧ failure = some .clientGone ∧ c'.link = .channel ch) ∨
      (∃ ch, c.link = .channel ch ∧ failure = none ∧ c'.link = .channel { ch with
        queue := ch.queue ++ [chunk], accepted := ch.accepted + chunk.length }) ∨
      ∃ t chunks, c.link = .tape t ∧
        c'.link = .tape { t with attempts := t.attempts + 1, chunks } := by
  rw [send] at h
  cases hlink : c.link with
  | channel ch =>
    simp only [hlink] at h
    split at h
    · obtain ⟨rfl, rfl⟩ := Progress.finished.inj h
      exact .inl ⟨ch, rfl, rfl, hlink⟩
    · split at h
      · obtain ⟨rfl, rfl⟩ := Progress.finished.inj h
        exact .inr (.inl ⟨ch, rfl, rfl, rfl⟩)
      · exact absurd h (by simp)
  | tape t =>
    simp only [hlink] at h
    split at h
    all_goals
      rw [← (Progress.finished.inj h).1]
      exact .inr (.inr ⟨t, _, rfl, rfl⟩)

/-- A write ends by putting the chunk on the link. -/
theorem send_of_write {c c' : Client} {chunk : Bytes} {failure : Option IoError}
    (h : c.write chunk = .finished c' failure) : c.send chunk = .finished c' failure := by
  rw [write] at h
  split at h
  · exact absurd h (by simp)
  · exact h

/-- What goes before that leaves the link alone. -/
theorem link_of_partly {c c' : Client} {chunk : Bytes} (h : c.write chunk = .partly c') :
    c'.link = c.link := by
  rw [write] at h
  split at h
  · rw [← Progress.partly.inj h, link_commit]
  · exact absurd h send_ne_partly

/-- **A step of a script leaves the link alone, or puts a chunk on it.** -/
theorem link_step {α : Type} {gates : Gates} {c : Client} {s : Script α} {m : Moved Client α}
    (h : s.step writer gates c = some m) :
    (s.attempt c = none ∧ m.writer.link = c.link) ∨
      ∃ chunk failure, s.attempt c = some (chunk, failure) ∧
        c.send chunk = .finished m.writer failure := by
  cases s with
  | done | die => simp [Script.step] at h
  | edit | inspect | observe | emit =>
    obtain rfl := Option.some.inj h
    exact .inl ⟨rfl, rfl⟩
  | commit status rest =>
    obtain rfl := Option.some.inj h
    exact .inl ⟨rfl, c.link_commit status⟩
  | await gate ticket rest =>
    cases ticket with
    | none =>
      obtain rfl := Option.some.inj h
      exact .inl ⟨rfl, rfl⟩
    | some ticket =>
      simp only [Script.step, Option.ite_none_right_eq_some, Option.some.injEq] at h
      obtain ⟨-, rfl⟩ := h
      exact .inl ⟨rfl, rfl⟩
  | write chunk k =>
    simp only [Script.step, writer] at h
    split at h
    · exact absurd h (by simp)
    · next c' hw =>
      obtain rfl := Option.some.inj h
      refine .inl ⟨?_, link_of_partly hw⟩
      simp only [Script.attempt, reports, hw, Option.map_none]
    · next c' failure hw =>
      obtain rfl := Option.some.inj h
      refine .inr ⟨chunk, failure, ?_, send_of_write hw⟩
      simp only [Script.attempt, reports_finished hw, Option.map_some]

/-! ### A client stays of its kind -/

theorem commitsFirst_send {c c' : Client} {chunk : Bytes} {failure : Option IoError}
    (h : c.send chunk = .finished c' failure) : c'.link.commitsFirst = c.link.commitsFirst := by
  obtain ⟨ch, hlink, -, hlink'⟩ | ⟨ch, hlink, -, hlink'⟩ | ⟨t, chunks, hlink, hlink'⟩ :=
    link_of_send h
  all_goals simp only [hlink, hlink', Link.commitsFirst]

theorem commitsFirst_step {α : Type} {gates : Gates} {c : Client} {s : Script α}
    {m : Moved Client α} (h : s.step writer gates c = some m) :
    m.writer.link.commitsFirst = c.link.commitsFirst := by
  obtain ⟨-, hlink⟩ | ⟨chunk, failure, -, hsend⟩ := link_step h
  · rw [hlink]
  · exact commitsFirst_send hsend

end Client

/-! ### What a connection leaves alone -/

/-- This reading of a link does not depend on what waits in a channel, nor on whether the connection
is still there. -/
def Link.Lasting {β : Type} (g : Link → β) : Prop :=
  ∀ (ch : Channel) (queue : List Bytes) (abandoned : Bool),
    g (.channel { ch with queue, abandoned }) = g (.channel ch)

namespace Link.Lasting

variable {β : Type} {g : Link → β}

theorem next (hg : Lasting g) (r : Reception) (c : Client) :
    g (r.next c).2.2.link = g c.link := by
  cases r with
  | waiting | gone => rfl
  | canned rest => cases rest <;> rfl
  | streaming =>
    cases hlink : c.link with
    | tape tape => simp only [Reception.next, hlink]
    | channel ch =>
      cases hq : ch.queue with
      | nil => simp only [Reception.next, hlink, hq]
      | cons chunk rest =>
        simp only [Reception.next, hlink, hq]
        exact hg ch rest ch.abandoned

theorem abandon (hg : Lasting g) (c : Client) : g c.abandon.link = g c.link := by
  rw [Client.abandon]
  cases hlink : c.link with
  | channel ch => exact hg ch [] true
  | tape tape => simp only [hlink]

end Link.Lasting

/-! ## Tees -/

/-- What is left of the script of a task that has ended in this way. -/
def Ending.script : Ending → Script Unit
  | .returned => .done ()
  | .died message => .die message

theorem Tee.shows (writes : List (Bytes × Option IoError)) :
    Tee.writer.Shows fun t => .of t.client writes where
  headers _ := rfl
  isCommitted _ := rfl
  edit _ _ := rfl
  commit status t := by
    show Delivery.of (t.commit status).client writes = _
    rw [Tee.commit]
    split
    · next hc => exact (Delivery.commit_of_isSome (d := .of t.client writes) hc status).symm
    · exact Delivery.of_commit t.client status writes

namespace Fetch

variable {f f' : Fetch} {gates gates' : Gates} {event : Option Event}
  {writes : List (Bytes × Option IoError)} {pattern : Nat → Option IoError}

/-- What is left of the origin's script after the write under way. -/
def remaining (f : Fetch) : Script Unit :=
  match f.tee.halfway, f.script with
  | some failure, .write _ k => k failure
  | _, s => s

theorem remaining_eq (h : f.tee.halfway = none) : f.remaining = f.script := by
  rw [remaining, h]

/-- A step of an origin ends the task, as its script says, or is a step of the script. -/
theorem script_step (h : f.step gates = some (f', gates', event)) :
    (∃ ending, f' = f.close ending ∧ f.script = ending.script) ∨
      ∃ m, f.script.step Tee.writer gates f.tee = some m ∧
        f' = { f with script := m.script, tee := m.writer } := by
  rw [step] at h
  split at h
  · exact absurd h (by simp)
  · split at h
    · next hs => exact .inl ⟨_, (congrArg Prod.fst (Option.some.inj h)).symm, hs⟩
    · next message hs => exact .inl ⟨_, (congrArg Prod.fst (Option.some.inj h)).symm, hs⟩
    · split at h
      · exact absurd h (by simp)
      · next m hm => exact .inr ⟨m, hm, (congrArg Prod.fst (Option.some.inj h)).symm⟩

/-- When a task has ended, its script has ended in the same way. -/
theorem script_of_ending (h : f.step gates = some (f', gates', event)) {ending : Ending}
    (hend : f'.ending = some ending) : f'.script = ending.script := by
  rcases script_step h with ⟨ending', rfl, hscript⟩ | ⟨m, -, rfl⟩
  · obtain rfl : ending' = ending := Option.some.inj hend
    exact hscript
  · have hnone : f.ending = none := (step_cases h).1
    simp [hnone] at hend

theorem isWriting_eq_false (h : f.chunk? = none) : f.script.isWriting = false := by
  rw [chunk?] at h
  cases hs : f.script with
  | write chunk k => simp [hs] at h
  | _ => rfl

/-- **A tee delivers what the script plays**, if the outcomes of its client's writes are those of
the pattern. -/
theorem play_step (h : f.step gates = some (f', gates', event))
    (hhalf : f.tee.halfway.isSome = true → f.chunk?.isSome = true)
    (hpattern : Follows pattern (writes ++ f.attempt.toList)) :
    f'.remaining.play pattern (.of f'.tee.client (writes ++ f.attempt.toList)) =
      f.remaining.play pattern (.of f.tee.client writes) := by
  have hstep := script_step h
  obtain ⟨-, hturn⟩ := step_cases h
  -- a step that is no write
  have hstill : f.chunk? = none → (f.tee.halfway = none → f'.tee.halfway = none) →
      f'.remaining.play pattern (.of f'.tee.client (writes ++ none.toList)) =
        f.remaining.play pattern (.of f.tee.client writes) := by
    intro hch hh'
    have hh := halfway_eq_none hhalf hch
    rw [Option.toList_none, List.append_nil, remaining_eq (hh' hh), remaining_eq hh]
    rcases hstep with ⟨ending, rfl, -⟩ | ⟨m, hm, rfl⟩
    · rfl
    · exact Script.play_step (Tee.shows writes) hm (isWriting_eq_false hch)
  generalize f.attempt = a at hturn hpattern ⊢
  generalize f.passes = p at hturn
  cases hturn with
  | close hch | look hch => exact hstill hch id
  | edit hs => exact hstill (by rw [chunk?, hs]) id
  | commit hs =>
    exact hstill (by rw [chunk?, hs]) fun hh => (Tee.commit_eq f.tee _).2.1.trans hh
  | «open» hs hh hc =>
    have hh' : (f.tee.commit .ok).halfway = none := (Tee.commit_eq f.tee .ok).2.1.trans hh
    rw [Option.toList_none, List.append_nil, remaining_eq hh', remaining_eq hh, hs]
    have hcommit := (Tee.shows writes).commit .ok f.tee
    rw [show Delivery.of (f.tee.commit .ok).client writes = _ from hcommit, Script.play_commit_ok]
  | send hs hh hc hwrite | sendOnly hs hh hc hwrite =>
    simp only [remaining, hs, hh]
    exact Client.play_write hc hwrite hpattern
  | feed hs hh | unfed hs hh =>
    simp only [remaining, hs, hh, Option.toList_none, List.append_nil]

end Fetch

end EdgeCache
