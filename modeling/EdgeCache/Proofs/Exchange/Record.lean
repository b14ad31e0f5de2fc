import EdgeCache.Proofs.Exchange.Moves
import EdgeCache.Proofs.Origin.Tees

/-!
# What a run has written

A `History` is the record of a run of a world: what has happened, each in the world it happened in.
Three things are read off it for each exchange:

* `writes`: the chunks that were put on the link of its client, each with what the client reported;
* `received`: those among them that the client took;
* `passed`: the chunks that the origin has passed to its writer.

They are counted when a write is over, for a write may take several steps.  On a miss the two differ
for a moment, since a chunk goes to the client first and into the tee's buffer afterwards.
-/

set_option autoImplicit false

namespace EdgeCache

/-- What has happened, each with the world it happened in. -/
abbrev History := List (World × World.Happening)

theorem Client.head_present {c : Client} (front : Front) (e : Entry) (h : c.head = none) :
    (c.present front e).head =
      some ⟨e.head.status, (front.mark .hit c.headers).appendAll e.head.headers⟩ := by
  rw [present, head_commit (by rw [head_edit, h])]
  rfl

/-! ## What is written in a step of an exchange -/

/-- The chunk that the front is writing to the client. -/
def Stage.chunk? : Stage → Option Bytes
  | .relaying _ _ _ chunk => some chunk
  | .forwarding (.write chunk _) => some chunk
  | _ => none

/-- The chunk that the next step of a task puts on the client's link, with what the client
reports. -/
def Exchange.attempt (x : Exchange) : Actor → Option (Bytes × Option IoError)
  | .front => x.stage.chunk?.bind fun chunk => (x.own.reports chunk).map (chunk, ·)
  | .origin => x.fetch.bind Fetch.attempt
  | .copier => none

/-- The chunk that has been passed to the origin's writer with the next step of a task. -/
def Exchange.passes (x : Exchange) : Actor → Option Bytes
  | .origin => x.fetch.bind Fetch.passes
  | _ => none

namespace History

/-- What a happening puts on the link of the client of an exchange. -/
def writing (i : Nat) (p : World × World.Happening) : Option (Bytes × Option IoError) :=
  match p.2 with
  | .step j actor => if j = i then (p.1.exchanges[i]?).bind (·.attempt actor) else none
  | _ => none

/-- What a happening ends to pass to the writer of the origin of an exchange. -/
def passing (i : Nat) (p : World × World.Happening) : Option Bytes :=
  match p.2 with
  | .step j actor => if j = i then (p.1.exchanges[i]?).bind (·.passes actor) else none
  | _ => none

/-- The chunks that were put on the link of the client of an exchange, each with what the client
reported. -/
def writes (t : History) (i : Nat) : List (Bytes × Option IoError) := t.filterMap (writing i)

/-- The chunks that the client of an exchange took. -/
def received (t : History) (i : Nat) : List Bytes :=
  (t.writes i).filterMap fun p => if p.2.isNone then some p.1 else none

/-- The chunks that the origin of an exchange has passed to its writer. -/
def passed (t : History) (i : Nat) : List Bytes := t.filterMap (passing i)

section

variable {t : History} {w : World} {i j : Nat} {x : Exchange} {actor : Actor}

theorem writes_step (hx : w.exchanges[i]? = some x) :
    writes (t ++ [(w, .step i actor)]) i = t.writes i ++ (x.attempt actor).toList := by
  rw [writes, List.filterMap_append]
  congr 1
  have hw : writing i (w, .step i actor) = x.attempt actor := by
    simp only [writing, if_true, hx, Option.bind_some]
  cases h : x.attempt actor <;> simp [hw, h]

theorem passed_step (hx : w.exchanges[i]? = some x) :
    passed (t ++ [(w, .step i actor)]) i = t.passed i ++ (x.passes actor).toList := by
  rw [passed, List.filterMap_append]
  congr 1
  have hw : passing i (w, .step i actor) = x.passes actor := by
    simp only [passing, if_true, hx, Option.bind_some]
  cases h : x.passes actor <;> simp [hw, h]

theorem writes_step_ne (hij : j ≠ i) :
    writes (t ++ [(w, .step i actor)]) j = t.writes j := by
  simp [writes, writing, Ne.symm hij]

theorem passed_step_ne (hij : j ≠ i) :
    passed (t ++ [(w, .step i actor)]) j = t.passed j := by
  simp [passed, passing, Ne.symm hij]

theorem writes_outside {a : World.Happening} (ha : ∀ i actor, a ≠ .step i actor) :
    writes (t ++ [(w, a)]) j = t.writes j := by
  cases a with
  | step i actor => exact absurd rfl (ha i actor)
  | _ => simp [writes, writing]

theorem passed_outside {a : World.Happening} (ha : ∀ i actor, a ≠ .step i actor) :
    passed (t ++ [(w, a)]) j = t.passed j := by
  cases a with
  | step i actor => exact absurd rfl (ha i actor)
  | _ => simp [passed, passing]

theorem writes_append (t t' : History) (i : Nat) : writes (t ++ t') i = t.writes i ++ t'.writes i :=
  List.filterMap_append

theorem passed_append (t t' : History) (i : Nat) : passed (t ++ t') i = t.passed i ++ t'.passed i :=
  List.filterMap_append

theorem writes_front (hx : w.exchanges[i]? = some x) (h : x.stage.chunk? = none) :
    writes (t ++ [(w, .step i .front)]) i = t.writes i := by
  simp [writes_step hx, Exchange.attempt, h]

theorem passed_front (hx : w.exchanges[i]? = some x) :
    passed (t ++ [(w, .step i .front)]) i = t.passed i := by
  simp [passed_step hx, Exchange.passes]

theorem writes_copier (hx : w.exchanges[i]? = some x) :
    writes (t ++ [(w, .step i .copier)]) i = t.writes i := by
  simp [writes_step hx, Exchange.attempt]

theorem passed_copier (hx : w.exchanges[i]? = some x) :
    passed (t ++ [(w, .step i .copier)]) i = t.passed i := by
  simp [passed_step hx, Exchange.passes]

/-- If every write was taken, what was received is what was written. -/
theorem received_eq (h : ∀ p ∈ t.writes i, p.2 = none) :
    t.received i = (t.writes i).map (·.1) := by
  rw [received]
  generalize t.writes i = l at h
  induction l with
  | nil => rfl
  | cons p l ih =>
    have hp : p.2 = none := h p List.mem_cons_self
    simpa [hp] using ih fun q hq => h q (List.mem_cons_of_mem _ hq)

end

end History
end EdgeCache
