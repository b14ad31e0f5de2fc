import EdgeCache.Proofs.Exchange.Reading
import EdgeCache.Proofs.Exchange.Record

/-!
# What an origin writes and what is copied

Two invariants of the exchanges that ask their origin.

* `Watched`: the head that the tee has announced is that of the client; the chunks written to the
  client are those passed to the tee, and perhaps the one under way between the two; and while
  nothing empties the buffer, it holds all that has been passed.
* `Pumps`: what has been stored in a body, what the pump has in hand and what is still in the buffer
  is, in this order, what has been passed.  The body is closed exactly when the pump has stopped,
  and the origin is over by then.
-/

set_option autoImplicit false

namespace EdgeCache

/-- The chunk that a copier has in hand. -/
def Copying.inHand : Copying → List Bytes
  | .writing chunk => [chunk]
  | _ => []

namespace World

/-- By a happening the origin is asked on behalf of an exchange. -/
def Asks (front : Front) (j : Nat) (p : World × Happening) : Prop :=
  ∃ x visit previous expiration, p.2 = .step j .front ∧ p.1.exchanges[j]? = some x ∧
    x.stage = .visiting visit ∧ p.1.store.handed visit = some previous ∧
    (∀ held, previous = some held → held.entry.isPublic = false) ∧
    p.1.clock.add? front.settings.defaultWindow = some expiration

/-- What is true of the origin of an exchange, at any time. -/
structure Watched (front : Front) (t : History) (i : Nat) (copier : Option Copier) (f : Fetch) :
    Prop where
  asked : ∃ p ∈ t, Asks front i p
  announced : f.tee.announced = f.tee.client.head
  quiet : f.tee.announced = none → f.tee.halfway = none ∧ t.passed i = []
  half : f.tee.halfway.isSome = true → f.chunk?.isSome = true
  chunks : (t.writes i).map (·.1) = t.passed i ++ f.underway
  feeding : f.tee.consumed = true → f.tee.feeding = true
  buffer : copier = none → f.tee.consumed = true → f.tee.buffer = t.passed i
  silent : f.ending.isSome = true → f.chunk? = none
  /-- A drain that has stopped has seen the end. -/
  drained : copier = some (.drain true) → f.ending.isSome = true ∧ f.tee.buffer = []

/-- What is true of a pump and its body. -/
structure Pumps (front : Front) (t : History) (i : Nat) (f : Fetch) (g : Growing) (sink : Nat)
    (failed : Bool) (doing : Copying) : Prop where
  announced : f.tee.announced.isSome = true
  consumed : f.tee.consumed = true
  chunks : failed = false → g.chunks ++ doing.inHand ++ f.tee.buffer = t.passed i
  closed : g.closed = true ↔ doing = .stopped
  exhausted : doing = .closing ∨ doing = .stopped → f.ending.isSome = true ∧ f.tee.buffer = []
  faulty : failed = true → ∃ n text, front.faults.writing sink n = some text

section Frame

variable {front : Front} {t t' : History} {i : Nat} {copier : Option Copier} {f f' : Fetch}
  {g : Growing} {sink : Nat} {failed : Bool} {doing : Copying}

theorem Watched.frame (h : Watched front t i copier f) (ht : ∀ p ∈ t, p ∈ t')
    (hw : t'.writes i = t.writes i) (hp : t'.passed i = t.passed i) :
    Watched front t' i copier f where
  asked := by
    obtain ⟨p, hp, ha⟩ := h.asked
    exact ⟨p, ht p hp, ha⟩
  announced := h.announced
  quiet hn := by
    rw [hp]
    exact h.quiet hn
  half := h.half
  chunks := by rw [hw, hp, h.chunks]
  feeding := h.feeding
  buffer hc hcons := by rw [hp, h.buffer hc hcons]
  silent := h.silent
  drained := h.drained

theorem Pumps.frame (h : Pumps front t i f g sink failed doing) (hp : t'.passed i = t.passed i) :
    Pumps front t' i f g sink failed doing :=
  { h with chunks := fun hf => by rw [hp, h.chunks hf] }

theorem Watched.relinked (h : Watched front t i copier f) (link : Link) :
    Watched front t i copier
      { f with tee := { f.tee with client := { f.tee.client with link } } } :=
  { h with }

theorem Pumps.relinked (h : Pumps front t i f g sink failed doing) (link : Link) :
    Pumps front t i { f with tee := { f.tee with client := { f.tee.client with link } } } g sink
      failed doing :=
  ⟨h.announced, h.consumed, h.chunks, h.closed, h.exhausted, h.faulty⟩

end Frame

/-! ## The origin takes a step -/

section Origin

variable {front : Front} {t t' : History} {i : Nat} {copier : Option Copier} {f f' : Fetch}
  {a : Option (Bytes × Option IoError)} {p : Option Bytes}

theorem Watched.tallies (h : Watched front t i copier f) :
    f.Tallies (t.writes i) (t.passed i) :=
  ⟨h.announced, h.quiet, h.half, h.chunks, h.feeding, h.silent⟩

/-- While the origin is at work no drain has stopped. -/
theorem Watched.ne_drained (h : Watched front t i copier f) (hend : f.ending = none) :
    copier ≠ some (.drain true) := by
  intro hc
  have := (h.drained hc).1
  simp [hend] at this

/-- **A step of the origin** keeps what is true of it. -/
theorem Watched.origin (h : Watched front t i copier f) (hend : f.ending = none)
    (ht : f.Turn a p f') (hmem : ∀ q ∈ t, q ∈ t') (hw : t'.writes i = t.writes i ++ a.toList)
    (hp : t'.passed i = t.passed i ++ p.toList) : Watched front t' i copier f' := by
  have htallies := h.tallies.turn hend ht
  rw [← hw, ← hp] at htallies
  refine ⟨?_, htallies.announced, htallies.quiet, htallies.half, htallies.chunks,
    htallies.feeding, fun hcop hcons => ?_, htallies.silent,
    fun hc => absurd hc (h.ne_drained hend)⟩
  · obtain ⟨q, hq, ha⟩ := h.asked
    exact ⟨q, hmem q hq, ha⟩
  · rw [ht.consumed] at hcons
    rw [ht.buffer hcons (h.feeding hcons), h.buffer hcop hcons, hp]

/-- An announced head stays. -/
theorem Watched.announced_origin (h : Watched front t i copier f) (ht : f.Turn a p f') {head : Head}
    (hann : f.tee.announced = some head) : f'.tee.announced = some head :=
  h.tallies.announced_turn ht hann

theorem Pumps.origin {g : Growing} {sink : Nat} {failed : Bool} {doing : Copying}
    (h : Pumps front t i f g sink failed doing) (hwatched : Watched front t i copier f)
    (hend : f.ending = none) (ht : f.Turn a p f') (hp : t'.passed i = t.passed i ++ p.toList) :
    Pumps front t' i f' g sink failed doing := by
  obtain ⟨head, hhead⟩ := Option.isSome_iff_exists.1 h.announced
  have hann := hwatched.announced_origin ht hhead
  have hbusy : ¬ (doing = .closing ∨ doing = .stopped) := by
    intro hd
    have := (h.exhausted hd).1
    simp [hend] at this
  refine ⟨by rw [hann]; rfl, ht.consumed.trans h.consumed, fun hfailed => ?_, h.closed,
    fun hd => absurd hd hbusy, h.faulty⟩
  rw [ht.buffer h.consumed (hwatched.feeding h.consumed), hp, ← h.chunks hfailed,
    ← List.append_assoc]

end Origin

/-! ## The consumer -/

section Consumer

variable {front : Front} {t t' : History} {i : Nat} {copier copier' : Option Copier} {f f' : Fetch}
  {g : Growing} {sink : Nat} {failed : Bool} {data : Bytes}

/-- Once there is a copier, what is in the buffer is its own affair. -/
theorem Watched.copying (h : Watched front t i copier f) (hcop : copier'.isSome = true)
    (rest : List Bytes)
    (hdrained : copier' = some (.drain true) → f.ending.isSome = true ∧ rest = []) :
    Watched front t i copier' { f with tee := { f.tee with buffer := rest } } :=
  { h with buffer := fun hn => by simp [hn] at hcop, drained := hdrained }

/-- A consumer that goes away leaves nothing to be filled. -/
theorem Watched.unwatched (h : Watched front t i copier f) : Watched front t i copier f.unwatch :=
  { h with
    feeding := by simp [Fetch.unwatch]
    buffer := by simp [Fetch.unwatch]
    drained := fun hc => ⟨(h.drained hc).1, rfl⟩ }

theorem Pumps.taken (h : Pumps front t i f g sink failed .taking)
    (hr : f.receive = (.chunk data, f')) :
    Pumps front t i f' g sink failed (if failed then .taking else .writing data) := by
  obtain ⟨rest, -, hbuf, rfl⟩ := Fetch.receive_chunk hr
  refine ⟨h.announced, h.consumed, fun hfailed => ?_, ?_, ?_, h.faulty⟩
  · rw [← h.chunks hfailed, hbuf, hfailed]
    simp [Copying.inHand]
  · rw [h.closed]
    cases failed <;> simp
  · cases failed <;> simp

theorem Pumps.ended (h : Pumps front t i f g sink failed .taking)
    (hr : f.receive.1 = .finish ∨ f.receive.1 = .gone) :
    Pumps front t i f g sink failed .closing :=
  { h with
    chunks := h.chunks
    closed := by simpa using h.closed
    exhausted := fun _ => Fetch.receive_end h.consumed hr }

theorem Pumps.write (h : Pumps front t i f g sink failed (.writing data)) :
    Pumps front t i f (g.write data) sink failed .taking where
  announced := h.announced
  consumed := h.consumed
  chunks hfailed := by
    rw [← h.chunks hfailed]
    simp [Growing.write, Copying.inHand]
  closed := by simpa [Growing.write] using h.closed
  exhausted hd := by simp at hd
  faulty := h.faulty

theorem Pumps.writeFail {n : Nat} {text : String}
    (h : Pumps front t i f g sink failed (.writing data))
    (hw : front.faults.writing sink n = some text) : Pumps front t i f g sink true .taking where
  announced := h.announced
  consumed := h.consumed
  chunks hfailed := by simp at hfailed
  closed := by simpa using h.closed
  exhausted hd := by simp at hd
  faulty _ := ⟨n, text, hw⟩

theorem Pumps.stop (h : Pumps front t i f g sink failed .closing) :
    Pumps front t i f g.close sink failed .stopped where
  announced := h.announced
  consumed := h.consumed
  chunks := h.chunks
  closed := by simp [Growing.close]
  exhausted _ := h.exhausted (.inl rfl)
  faulty := h.faulty

/-- A pump begins with an empty body, when nothing has been taken out of the buffer. -/
theorem Pumps.start (h : Watched front t i none f) (hcons : f.tee.consumed = true)
    (hann : f.tee.announced.isSome = true) :
    Pumps front t i f Growing.empty sink false .taking where
  announced := hann
  consumed := hcons
  chunks _ := h.buffer rfl hcons
  closed := by simp [Growing.empty]
  exhausted hd := by simp at hd
  faulty hf := by simp at hf

end Consumer

end World
end EdgeCache
