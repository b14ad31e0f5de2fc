import EdgeCache.Proofs.Exchange.Liveness
import EdgeCache.Proofs.Exchange.Returns

/-!
# Sinks that fail

A pump writes the chunks of a response into a sink that may fail to take them, and may fail to be
closed.  What is asked of the sink is read off the record of a run: the writes that were tried
(`History.attempted`), the chunks that were taken from the origin (`History.consumed`), and the
sinks that were closed (`History.closings`).

`Drives` is what these have in common at any time.  `Persists` is what follows: the writes are those
of the chunks in their order, up to the first that fails; the chunks after it are taken all the
same; the sink is closed once, when the origin has ended and everything has been taken; and neither
the client nor the outcome of the call learns of a failure.
-/

set_option autoImplicit false

namespace EdgeCache

/-! ## The record -/

/-- The write that the next step of a copier tries, with how it fails if it does. -/
def Exchange.stores (front : Front) (x : Exchange) : Actor → Option (Bytes × Option String)
  | .copier =>
    match x.copier with
    | some (.pump sink _ _ writes _ (.writing data)) =>
      some (data, front.faults.writing sink writes)
    | _ => none
  | _ => none

/-- The chunk that the next step of a pump takes from its origin. -/
def Exchange.takes (x : Exchange) : Actor → Option Bytes
  | .copier =>
    match x.copier with
    | some (.pump _ _ _ _ _ .taking) => x.fetch.bind (·.receive.1.chunk?)
    | _ => none
  | _ => none

/-- The sink that the next step of a pump closes. -/
def Exchange.closes (x : Exchange) : Actor → Option Nat
  | .copier =>
    match x.copier with
    | some (.pump sink _ _ _ _ .closing) => some sink
    | _ => none
  | _ => none

namespace History

variable {β : Type}

/-- What a step of an exchange does. -/
def deed? (act : Exchange → Actor → Option β) (i : Nat) (p : World × World.Happening) : Option β :=
  match p.2 with
  | .step j actor => if j = i then (p.1.exchanges[i]?).bind (act · actor) else none
  | _ => none

/-- What the steps of an exchange have done. -/
def deeds (t : History) (act : Exchange → Actor → Option β) (i : Nat) : List β :=
  t.filterMap (deed? act i)

/-- The writes that were tried into the sink of an exchange. -/
def attempted (t : History) (front : Front) (i : Nat) : List (Bytes × Option String) :=
  t.deeds (Exchange.stores front) i

/-- The chunks that the pump of an exchange has taken. -/
def consumed (t : History) (i : Nat) : List Bytes := t.deeds Exchange.takes i

/-- The sinks that the pump of an exchange has closed, each as often as it has done so. -/
def closings (t : History) (i : Nat) : List Nat := t.deeds Exchange.closes i

section

variable {act : Exchange → Actor → Option β} {t : History} {w : World} {i j : Nat} {x : Exchange}
  {actor : Actor}

theorem deeds_step (hx : w.exchanges[i]? = some x) :
    deeds (t ++ [(w, .step i actor)]) act i = t.deeds act i ++ (act x actor).toList := by
  have hdeed : deed? act i (w, .step i actor) = act x actor := by
    simp only [deed?, if_true, hx, Option.bind_some]
  cases h : act x actor <;> simp [deeds, hdeed, h]

theorem deeds_step_of_none (hx : w.exchanges[i]? = some x) (h : act x actor = none) :
    deeds (t ++ [(w, .step i actor)]) act i = t.deeds act i := by
  rw [deeds_step hx, h, Option.toList_none, List.append_nil]

theorem deeds_step_ne (hij : j ≠ i) :
    deeds (t ++ [(w, .step i actor)]) act j = t.deeds act j := by
  simp [deeds, deed?, Ne.symm hij]

theorem deeds_outside {a : World.Happening} (ha : ∀ i actor, a ≠ .step i actor) :
    deeds (t ++ [(w, a)]) act j = t.deeds act j := by
  cases a with
  | step i actor => exact absurd rfl (ha i actor)
  | _ => simp [deeds, deed?]

/-- Nothing has been done by an exchange that has not begun. -/
theorem deeds_unborn {front : Front} {w₀ : World} (hrun : Run (World.happen front) w₀ t w)
    (hi : w.exchanges.length ≤ i) : t.deeds act i = [] := by
  rw [deeds, List.filterMap_eq_nil_iff]
  intro p hp
  have hnone : p.1.exchanges[i]? = none :=
    List.getElem?_eq_none (Nat.le_trans ((World.length_le_of_run hrun).2 p hp) hi)
  rw [deed?, hnone]
  cases p.2 <;> simp

end

end History

/-! ## The writes of a stream -/

/-- The writes of these chunks, the first of which is the write of number `n`, up to the first that
fails. -/
def attempts (fails : Nat → Option String) : Nat → List Bytes → List (Bytes × Option String)
  | _, [] => []
  | n, chunk :: rest =>
    (chunk, fails n) :: if fails n = none then attempts fails (n + 1) rest else []

section Attempts

variable {fails : Nat → Option String} {n : Nat} {chunks : List Bytes} {chunk : Bytes}

/-- As long as no write has failed, there is one for each chunk. -/
theorem attempts_length (h : ∀ p ∈ attempts fails n chunks, p.2 = none) :
    (attempts fails n chunks).length = chunks.length := by
  induction chunks generalizing n with
  | nil => rfl
  | cons c rest ih =>
    rw [attempts] at h ⊢
    have hn : fails n = none := h (c, fails n) List.mem_cons_self
    rw [if_pos hn] at h ⊢
    simp [ih fun p hp => h p (List.mem_cons_of_mem _ hp)]

theorem attempts_append (h : ∀ p ∈ attempts fails n chunks, p.2 = none) :
    attempts fails n (chunks ++ [chunk]) =
      attempts fails n chunks ++ [(chunk, fails (n + chunks.length))] := by
  induction chunks generalizing n with
  | nil => simp [attempts]
  | cons c rest ih =>
    rw [List.cons_append, attempts, attempts] at *
    have hn : fails n = none := h (c, fails n) List.mem_cons_self
    rw [if_pos hn] at h
    rw [if_pos hn, if_pos hn, ih fun p hp => h p (List.mem_cons_of_mem _ hp), List.cons_append,
      List.length_cons, Nat.add_right_comm, Nat.add_assoc]

/-- After a failure there are no more. -/
theorem attempts_append_of_failed (h : ∃ p ∈ attempts fails n chunks, p.2 ≠ none) :
    attempts fails n (chunks ++ [chunk]) = attempts fails n chunks := by
  induction chunks generalizing n with
  | nil => simp [attempts] at h
  | cons c rest ih =>
    rw [List.cons_append, attempts, attempts] at *
    by_cases hn : fails n = none
    · rw [if_pos hn] at h ⊢
      rw [if_pos hn, ih ?_]
      simpa [hn] using h
    · rw [if_neg hn, if_neg hn]

end Attempts

namespace World

/-- What is true of a pump and what it has asked of its sink. -/
structure Drives (front : Front) (t : History) (i : Nat) (f : Fetch) (sink : Nat) (failed : Bool)
    (writes : Nat) (doing : Copying) : Prop where
  stream : t.consumed i ++ f.tee.buffer = t.passed i
  order : attempts (front.faults.writing sink) 0 (t.consumed i) =
    t.attempted front i ++ doing.inHand.map fun data => (data, front.faults.writing sink writes)
  count : (t.attempted front i).length = writes
  failed : failed = true ↔ ∃ p ∈ t.attempted front i, p.2 ≠ none
  closings : t.closings i = if doing = .stopped then [sink] else []

/-- What is true of the copier of an exchange, and nothing has been asked of a sink without one. -/
def Sinking (front : Front) (t : History) (i : Nat) (x : Exchange) : Prop :=
  match x.copier with
  | some (.pump sink _ failed writes _ doing) =>
    ∃ f, x.fetch = some f ∧ Drives front t i f sink failed writes doing
  | _ => t.attempted front i = [] ∧ t.consumed i = [] ∧ t.closings i = []

section Sinking

variable {front : Front} {t t' : History} {w w' b : World} {i : Nat} {x x' y : Exchange}
  {actor : Actor} {f f' : Fetch} {sink id writes stored : Nat} {failed : Bool} {doing : Copying}
  {data : Bytes}

/-- The origin may pass a chunk on. -/
theorem Drives.pass {chunk? : Option Bytes} (h : Drives front t i f sink failed writes doing)
    (hbuffer : f'.tee.buffer = f.tee.buffer ++ chunk?.toList)
    (hpassed : t'.passed i = t.passed i ++ chunk?.toList)
    (hattempted : t'.attempted front i = t.attempted front i)
    (hconsumed : t'.consumed i = t.consumed i) (hclosings : t'.closings i = t.closings i) :
    Drives front t' i f' sink failed writes doing where
  stream := by rw [hconsumed, hbuffer, hpassed, ← List.append_assoc, h.stream]
  order := by rw [hconsumed, hattempted, h.order]
  count := by rw [hattempted, h.count]
  failed := by rw [hattempted, h.failed]
  closings := by rw [hclosings, h.closings]

theorem Drives.frame (h : Drives front t i f sink failed writes doing)
    (hpassed : t'.passed i = t.passed i) (hattempted : t'.attempted front i = t.attempted front i)
    (hconsumed : t'.consumed i = t.consumed i) (hclosings : t'.closings i = t.closings i)
    (hbuffer : f'.tee.buffer = f.tee.buffer) :
    Drives front t' i f' sink failed writes doing := by
  have hnothing (chunks : List Bytes) : chunks = chunks ++ (none : Option Bytes).toList :=
    (List.append_nil _).symm
  exact h.pass (hbuffer.trans (hnothing _)) (hpassed.trans (hnothing _)) hattempted hconsumed
    hclosings

/-- Only steps of a pump ask something of a sink. -/
theorem Sinking.frame (h : Sinking front t i x) (hpassed : t'.passed i = t.passed i)
    (hattempted : t'.attempted front i = t.attempted front i)
    (hconsumed : t'.consumed i = t.consumed i) (hclosings : t'.closings i = t.closings i)
    (hcopier : y.copier = x.copier)
    (hfetch : ∀ f, x.fetch = some f →
      ∃ f', y.fetch = some f' ∧ f'.tee.buffer = f.tee.buffer) : Sinking front t' i y := by
  rw [Sinking] at h ⊢
  rw [hcopier]
  split at h
  · obtain ⟨f, hf, hdrives⟩ := h
    obtain ⟨f', hf', hbuffer⟩ := hfetch f hf
    exact ⟨f', hf', hdrives.frame hpassed hattempted hconsumed hclosings hbuffer⟩
  · rw [hattempted, hconsumed, hclosings]
    exact h

/-- The exchange has no pump. -/
def Unpumped (x : Exchange) : Prop := x.copier = none ∨ ∃ stopped, x.copier = some (.drain stopped)

theorem sinking_iff_of_unpumped (hx : Unpumped x) : Sinking front t i x ↔
    t.attempted front i = [] ∧ t.consumed i = [] ∧ t.closings i = [] := by
  rw [Sinking]
  rcases hx with hx | ⟨stopped, hx⟩ <;> rw [hx]

theorem sinking_iff (hx : x.copier = some (.pump sink id failed writes stored doing)) :
    Sinking front t i x ↔
      ∃ f, x.fetch = some f ∧ Drives front t i f sink failed writes doing := by
  rw [Sinking, hx]

/-- Without a pump nothing is asked of a sink. -/
theorem Sinking.unpumped (h : Sinking front t i x) (hx : Unpumped x) (hy : Unpumped y)
    (hattempted : t'.attempted front i = t.attempted front i)
    (hconsumed : t'.consumed i = t.consumed i) (hclosings : t'.closings i = t.closings i) :
    Sinking front t' i y := by
  rw [sinking_iff_of_unpumped hy, hattempted, hconsumed, hclosings]
  exact (sinking_iff_of_unpumped hx).1 h

/-- A pump begins when nothing has been taken out of the buffer. -/
theorem Drives.start (h : t.attempted front i = [] ∧ t.consumed i = [] ∧ t.closings i = [])
    (hbuffer : f.tee.buffer = t.passed i) : Drives front t i f sink false 0 .taking where
  stream := by rw [h.2.1, hbuffer, List.nil_append]
  order := by rw [h.1, h.2.1]; rfl
  count := by rw [h.1]; rfl
  failed := by simp [h.1]
  closings := by rw [h.2.2]; rfl

/-- The pump takes a chunk; if a write has failed before, that is all. -/
theorem Drives.take (h : Drives front t i f sink failed writes .taking)
    (hreceive : f.receive = (.chunk data, f')) (hpassed : t'.passed i = t.passed i)
    (hattempted : t'.attempted front i = t.attempted front i)
    (hconsumed : t'.consumed i = t.consumed i ++ [data])
    (hclosings : t'.closings i = t.closings i) :
    Drives front t' i f' sink failed writes (if failed then .taking else .writing data) := by
  obtain ⟨rest, -, hbuffer, rfl⟩ := Fetch.receive_chunk hreceive
  have horder : attempts (front.faults.writing sink) 0 (t.consumed i) = t.attempted front i := by
    simpa [Copying.inHand] using h.order
  refine ⟨?_, ?_, by rw [hattempted, h.count], by rw [hattempted, h.failed], ?_⟩
  · rw [hconsumed, hpassed, ← h.stream, hbuffer, List.append_assoc]
    rfl
  · rw [hconsumed, hattempted]
    cases hfailed : failed with
    | true =>
      have hsome := h.failed.1 hfailed
      rw [← horder] at hsome ⊢
      simp [attempts_append_of_failed hsome, Copying.inHand]
    | false =>
      have hall : ∀ p ∈ t.attempted front i, p.2 = none := fun p hp =>
        Decidable.byContradiction fun hne => by simp [h.failed.2 ⟨p, hp, hne⟩] at hfailed
      rw [← horder] at hall
      rw [attempts_append hall, horder, Nat.zero_add, ← attempts_length hall, horder, h.count]
      rfl
  · rw [hclosings, h.closings]
    cases failed <;> rfl

/-- The pump has written the chunk that it had in hand, or failed to. -/
theorem Drives.wrote {failed' : Bool} (h : Drives front t i f sink failed writes (.writing data))
    (hfailed' : failed' = true ↔ failed = true ∨ front.faults.writing sink writes ≠ none)
    (hpassed : t'.passed i = t.passed i)
    (hattempted : t'.attempted front i =
      t.attempted front i ++ [(data, front.faults.writing sink writes)])
    (hconsumed : t'.consumed i = t.consumed i) (hclosings : t'.closings i = t.closings i) :
    Drives front t' i f sink failed' (writes + 1) .taking where
  stream := by rw [hconsumed, hpassed, h.stream]
  order := by
    rw [hconsumed, hattempted, h.order]
    simp [Copying.inHand]
  count := by rw [hattempted, List.length_append, h.count]; rfl
  failed := by
    rw [hfailed', h.failed, hattempted]
    simp [or_and_right, exists_or]
  closings := by rw [hclosings, h.closings]; rfl

/-- The pump goes on without asking anything of the sink. -/
theorem Drives.becomes {doing' : Copying} (h : Drives front t i f sink failed writes doing)
    (hidle : doing.inHand = []) (hidle' : doing'.inHand = []) (hpassed : t'.passed i = t.passed i)
    (hattempted : t'.attempted front i = t.attempted front i)
    (hconsumed : t'.consumed i = t.consumed i)
    (hclosings : t'.closings i = if doing' = .stopped then [sink] else []) :
    Drives front t' i f sink failed writes doing' where
  stream := by rw [hconsumed, hpassed, h.stream]
  order := by rw [hconsumed, hattempted, h.order, hidle, hidle']
  count := by rw [hattempted, h.count]
  failed := by rw [hattempted, h.failed]
  closings := hclosings

/-- A turn without a pump asks nothing of a sink. -/
theorem Sinking.turn_unpumped (h : Sinking front t i x) (hx : w.exchanges[i]? = some x)
    (hunpumped : Unpumped x) (hy : Unpumped y) :
    Sinking front (t ++ [(w, .step i actor)]) i y := by
  have hnone : x.stores front actor = none ∧ x.takes actor = none ∧ x.closes actor = none := by
    rcases hunpumped with hcop | ⟨stopped, hcop⟩ <;> cases actor <;>
      simp [Exchange.stores, Exchange.takes, Exchange.closes, hcop]
  exact h.unpumped hunpumped hy (History.deeds_step_of_none hx hnone.1)
    (History.deeds_step_of_none hx hnone.2.1) (History.deeds_step_of_none hx hnone.2.2)

/-- A write asks the sink for what was in hand, whether or not it fails. -/
theorem Sinking.wrote {failed' : Bool} {stored' : Nat} (h : Sinking front t i x)
    (hx : w.exchanges[i]? = some x)
    (hcop : x.copier = some (.pump sink id failed writes stored (.writing data)))
    (hy : y.copier = some (.pump sink id failed' (writes + 1) stored' .taking))
    (hfetch : y.fetch = x.fetch)
    (hfailed' : failed' = true ↔ failed = true ∨ front.faults.writing sink writes ≠ none) :
    Sinking front (t ++ [(w, .step i .copier)]) i y := by
  obtain ⟨f, hf, hdrives⟩ := (sinking_iff hcop).1 h
  refine (sinking_iff hy).2 ⟨f, hfetch.trans hf, hdrives.wrote hfailed' (History.passed_copier hx)
    ?_ (History.deeds_step_of_none hx (by simp [Exchange.takes, hcop]))
    (History.deeds_step_of_none hx (by simp [Exchange.closes, hcop]))⟩
  exact (History.deeds_step hx).trans (by simp [Exchange.stores, hcop, History.attempted])

/-- **A turn of the exchange** keeps what is true of its pump and its sink. -/
theorem Sinking.turn (h : Sinking front t i x) (ho : Orderly front t w)
    (hx : w.exchanges[i]? = some x) (ht : Turn front w i x actor x' b) :
    Sinking front (t ++ [(w, .step i actor)]) i x' := by
  have hc := ho.course i x hx
  -- a turn of the front that leaves origin and copier alone
  have hidle : ∀ {y : Exchange}, actor = .front → y.copier = x.copier → y.fetch = x.fetch →
      Sinking front (t ++ [(w, .step i actor)]) i y := by
    rintro y rfl hcop hfetch
    exact h.frame (History.passed_front hx) (History.deeds_step_of_none hx rfl)
      (History.deeds_step_of_none hx rfl) (History.deeds_step_of_none hx rfl) hcop
      fun f hf => ⟨f, hfetch ▸ hf, rfl⟩
  cases ht with
  | ask hs hh =>
    have hcop := (hc.fresh_of_handed hs hh).copier
    exact h.turn_unpumped hx (.inl hcop) (.inl hcop)
  | decideFail hs | openFail hs | loseHead hs =>
    obtain ⟨slot, previous, f, expiration, -, -, -, -, -, hcop, -⟩ := hc.fetching hs
    exact h.turn_unpumped hx (.inl hcop) (.inl hcop)
  | discard lines hs =>
    obtain ⟨slot, previous, f, expiration, -, -, -, -, -, hcop, -⟩ := hc.fetching hs
    exact h.turn_unpumped hx (.inl hcop) (.inr ⟨false, rfl⟩)
  | drain hcop => exact h.turn_unpumped hx (.inr ⟨false, hcop⟩) (.inr ⟨false, hcop⟩)
  | drained hcop => exact h.turn_unpumped hx (.inr ⟨false, hcop⟩) (.inr ⟨true, rfl⟩)
  | @keep visit draft f head verdict lines hs hf =>
    obtain ⟨slot, previous, f', expiration, -, -, -, hf', hcons, hcop, -⟩ := hc.fetching hs
    obtain rfl : f = f' := Option.some.inj (hf.symm.trans hf')
    have hbuffer := (ho.watched i x f hx hf).buffer hcop hcons
    refine (sinking_iff rfl).2 ⟨f, hf, ?_⟩
    exact (Drives.start ((sinking_iff_of_unpumped (.inl hcop)).1 h) hbuffer).frame
      (History.passed_front hx) (History.deeds_step_of_none hx rfl)
      (History.deeds_step_of_none hx rfl) (History.deeds_step_of_none hx rfl) rfl
  | @origin f f' gates event hf hs =>
    obtain ⟨hend, hturn⟩ := Fetch.step_cases hs
    cases hcop : x.copier with
    | none => exact h.turn_unpumped hx (.inl hcop) (.inl rfl)
    | some copier =>
      cases copier with
      | drain stopped => exact h.turn_unpumped hx (.inr ⟨stopped, hcop⟩) (.inr ⟨stopped, rfl⟩)
      | pump sink id failed writes stored doing =>
        obtain ⟨f₀, hf₀, hdrives⟩ := (sinking_iff hcop).1 h
        obtain rfl : f = f₀ := Option.some.inj (hf.symm.trans hf₀)
        obtain ⟨f₀, g, hf₀, -, hp⟩ := ho.pumps i x sink id failed writes stored doing hx hcop
        obtain rfl : f = f₀ := Option.some.inj (hf.symm.trans hf₀)
        have hbuffer := hturn.buffer hp.consumed ((ho.watched i x f hx hf).feeding hp.consumed)
        refine (sinking_iff rfl).2 ⟨f', rfl, hdrives.pass hbuffer ?_
          (History.deeds_step_of_none hx rfl) (History.deeds_step_of_none hx rfl)
          (History.deeds_step_of_none hx rfl)⟩
        rw [History.passed_step hx, Exchange.passes, hf, Option.bind_some]
  | @pump sink id writes stored failed f f' data hcop hf hr =>
    obtain ⟨f₀, hf₀, hdrives⟩ := (sinking_iff hcop).1 h
    obtain rfl : f = f₀ := Option.some.inj (hf.symm.trans hf₀)
    have htakes : x.takes .copier = some data := by
      simp [Exchange.takes, hcop, hf, hr, Frame.chunk?]
    refine (sinking_iff rfl).2 ⟨f', rfl, hdrives.take hr (History.passed_copier hx)
      (History.deeds_step_of_none hx (by simp [Exchange.stores, hcop])) ?_
      (History.deeds_step_of_none hx (by simp [Exchange.closes, hcop]))⟩
    exact (History.deeds_step hx).trans (by rw [htakes]; rfl)
  | @pumped sink id writes stored failed f hcop hf hr =>
    obtain ⟨f₀, hf₀, hdrives⟩ := (sinking_iff hcop).1 h
    obtain rfl : f = f₀ := Option.some.inj (hf.symm.trans hf₀)
    have htakes : x.takes .copier = none := by
      rcases hr with hr | hr <;> simp [Exchange.takes, hcop, hf, hr, Frame.chunk?]
    refine (sinking_iff rfl).2 ⟨f, hf, hdrives.becomes rfl rfl (History.passed_copier hx)
      (History.deeds_step_of_none hx (by simp [Exchange.stores, hcop]))
      (History.deeds_step_of_none hx htakes) ?_⟩
    exact (History.deeds_step_of_none hx (by simp [Exchange.closes, hcop])).trans hdrives.closings
  | writeFail lines hcop hw => exact h.wrote hx hcop rfl rfl (by simp [hw])
  | write hcop hw => exact h.wrote hx hcop rfl rfl (by simp [hw])
  | @stop sink id writes stored failed lines hcop =>
    obtain ⟨f, hf, hdrives⟩ := (sinking_iff hcop).1 h
    refine (sinking_iff rfl).2 ⟨f, hf, hdrives.becomes rfl rfl (History.passed_copier hx)
      (History.deeds_step_of_none hx (by simp [Exchange.stores, hcop]))
      (History.deeds_step_of_none hx (by simp [Exchange.takes, hcop])) ?_⟩
    refine (History.deeds_step hx).trans ?_
    rw [← History.closings, hdrives.closings]
    simp [Exchange.closes, hcop]
  | _ => exact hidle rfl rfl rfl

end Sinking

/-! ## The run -/

/-- What a pump has done of the body that its exchange fetches, whatever its sink fails to do. -/
structure Persists (front : Front) (t : History) (w : World) (i : Nat) (x : Exchange) (f : Fetch)
    (sink : Nat) (doing : Copying) : Prop where
  /-- Of the chunks that it has taken, it has tried to write each up to the first that failed, in
  their order, or is about to. -/
  order : attempts (front.faults.writing sink) 0 (t.consumed i) = t.attempted front i ++
    doing.inHand.map fun data => (data, front.faults.writing sink (t.attempted front i).length)
  /-- What it has not taken of the stream is in the buffer. -/
  stream : t.consumed i ++ f.tee.buffer = t.passed i
  /-- It takes its next step, unless it has stopped or there is nothing to take yet. -/
  goes : doing = .stopped ∨ (∃ w', w.step front i .copier = some w') ∨
    f.ending = none ∧ f.tee.buffer = []
  /-- It closes the sink once, and stops. -/
  closings : t.closings i = if doing = .stopped then [sink] else []
  /-- By then the stream has ended, all of it has been taken, and all writes have been tried. -/
  stopped : doing = .stopped → f.ending.isSome = true ∧ t.consumed i = t.passed i ∧
    t.attempted front i = attempts (front.faults.writing sink) 0 (t.passed i)
  /-- A client that takes everything has got what the origin has written. -/
  client : (∀ p ∈ t.writes i, p.2 = none) → t.received i = t.passed i ++ f.underway ∧
    (f.ending.isSome = true → t.received i = t.passed i)
  /-- The call returns when the pump has stopped, and without an error. -/
  outcome : ∀ o, x.returned? = some o → doing = .stopped ∧ o.error = none

section Run

variable {front : Front} {t : History} {w w₀ : World} {i : Nat} {x : Exchange} {f : Fetch}
  {sink id writes stored : Nat} {failed : Bool} {doing : Copying}

theorem sinking_of_run (h₀ : w₀.Blank) (hrun : Run (World.happen front) w₀ t w)
    (htidy : ∀ p ∈ t, Tidy p.2) :
    ∀ (i : Nat) (x : Exchange), w.exchanges[i]? = some x → Sinking front t i x := by
  refine each_of_run (P := fun t _ i x => Sinking front t i x) h₀ hrun htidy ?_ ?_ ?_ ?_
  · intro t w i x actor x' b _ _ ho hx ht hsinking
    exact hsinking.turn ho hx ht
  · intro t w i x actor x' b j y _ _ _ hij _ hsinking
    exact hsinking.frame (History.passed_step_ne hij) (History.deeds_step_ne hij)
      (History.deeds_step_ne hij) (History.deeds_step_ne hij) rfl fun f hf => ⟨f, hf, rfl⟩
  · intro t w a w' i x y _ hout _ _ hr hsinking
    refine hsinking.frame (History.passed_outside hout.noStep) (History.deeds_outside hout.noStep)
      (History.deeds_outside hout.noStep) (History.deeds_outside hout.noStep) hr.copier
      fun f hf => ?_
    obtain ⟨link, hy⟩ := hr.fetch_eq_some hf
    exact ⟨_, hy, rfl⟩
  · intro t w w' request client access hrun
    have hnothing : ∀ {β : Type} (act : Exchange → Actor → Option β),
        History.deeds (t ++ [(w, .arrive request client access)]) act w.exchanges.length = [] :=
      fun act => (History.deeds_outside (by simp)).trans (History.deeds_unborn hrun (Nat.le_refl _))
    exact (sinking_iff_of_unpumped (.inl rfl)).2 ⟨hnothing _, hnothing _, hnothing _⟩

/-- What a call with a pump returns: its pump has stopped, and there is no error. -/
theorem Returns.of_pump {o : Handled} (h : Returns x o) (hasked : Asked x)
    (hcop : x.copier = some (.pump sink id failed writes stored doing)) :
    doing = .stopped ∧ o.error = none := by
  obtain ⟨-, hjoins, f, hf, -⟩ := hasked
  rw [hcop] at hjoins
  rcases h with ⟨⟨-, hnone, -⟩, -⟩ | ⟨r, herror, hacc, -, hover⟩
  · simp [hf] at hnone
  · have hstopped := hover hjoins
    rw [hcop] at hstopped
    refine ⟨by simpa [Copier.isOver] using hstopped, ?_⟩
    cases hacc with
    | replayed hnone => simp [hf] at hnone
    | stored => exact herror
    | headless _ _ _ hj | abandoned _ _ _ hj => simp [hjoins] at hj

/-- **Sinks may fail.**  At any time of a call with a pump, whichever writes and closings of its
sink fail: the pump has tried to write the chunks of the stream in their order up to the first that
failed, and takes the others all the same; it closes the sink once, when the stream has ended; and
neither the client nor the outcome of the call learns of a failure.  And the pump comes to rest: as
long as no more requests arrive, only finitely many steps are taken. -/
theorem pump_persists (h₀ : w₀.Blank) (hrun : Run (World.happen front) w₀ t w)
    (htidy : ∀ p ∈ t, Tidy p.2) (hx : w.exchanges[i]? = some x)
    (hcop : x.copier = some (.pump sink id failed writes stored doing)) :
    (∃ f, x.fetch = some f ∧ Persists front t w i x f sink doing) ∧
      Acc (fun w' w => Proceeds front w w') w := by
  have ho := Orderly.of_run hrun h₀ htidy
  have hc := ho.course i x hx
  refine ⟨?_, ho.terminates_meanwhile⟩
  obtain ⟨f, hf, hdrives⟩ := (sinking_iff hcop).1 (sinking_of_run h₀ hrun htidy i x hx)
  obtain ⟨f', g, hf', -, hp⟩ := ho.pumps i x sink id failed writes stored doing hx hcop
  obtain rfl : f = f' := Option.some.inj (hf.symm.trans hf')
  have hwatched := ho.watched i x f hx hf
  have hall : doing = .stopped → t.consumed i = t.passed i := by
    intro hstopped
    rw [← hdrives.stream, (hp.exhausted (.inr hstopped)).2, List.append_nil]
  have hasked : Asked x := hc.asked_of_copier (by rw [hcop]; rfl)
  refine ⟨f, hf, ?_, hdrives.stream, ?_, hdrives.closings, fun hstopped => ?_, fun htaken => ?_,
    fun o ho => ?_⟩
  · rw [hdrives.count]
    exact hdrives.order
  · cases hstep : w.copierStep front i with
    | some w' => exact .inr (.inl ⟨w', hstep⟩)
    | none =>
      refine (copierStep_eq_none hx hcop hf hstep).imp (fun hover => ?_) .inr
      simpa [Copier.isOver] using hover
  · refine ⟨(hp.exhausted (.inr hstopped)).1, hall hstopped, ?_⟩
    rw [← hall hstopped, hdrives.order, hstopped]
    simp [Copying.inHand]
  · rw [History.received_eq htaken, hwatched.chunks]
    refine ⟨rfl, fun hend => ?_⟩
    rw [Fetch.underway_eq_nil (Fetch.halfway_eq_none hwatched.half (hwatched.silent hend)),
      List.append_nil]
  · exact ((reckoned_of_run h₀ hrun htidy i x hx).1.returns ho).of_pump hasked hcop

end Run

/-- A request whose client takes what it is given, and its course when the sink takes nothing. -/
def crampedCall : List Happening :=
  let steps (actor : Actor) (n : Nat) := List.replicate n (Happening.step 0 actor)
  .arrive { method := .get, uri := .asterisk } { link := .tape {} } none ::
    (steps .front 10 ++ steps .origin 1 ++ steps .front 5 ++ steps .origin 3 ++ steps .copier 1 ++
      steps .origin 3 ++ steps .front 1 ++ steps .copier 4 ++ steps .front 2)

/-- A sink that is full from the start is asked to take the first of two chunks, and is closed after
the second; the client has got both. -/
theorem pump_persists_crampedCall :
    ∃ (t : History) (w : World) (x : Exchange), Run (World.happen cramped) {} t w ∧
      w.exchanges[0]? = some x ∧ t.attempted cramped 0 = [([1], some "full")] ∧
      t.closings 0 = [0] ∧ t.received 0 = [[1], [2]] ∧
      ∀ o, x.returned? = some o → o.error = none := by
  let r := (follow (World.happen cramped) {} crampedCall).get rfl
  have hfollow : follow (World.happen cramped) {} crampedCall = some r := (Option.some_get _).symm
  have htidy : ∀ p ∈ r.1, Tidy p.2 := by
    intro p hp
    have hmem : p.2 ∈ crampedCall := map_snd_of_follow hfollow ▸ List.mem_map_of_mem hp
    rintro request client access ha
    simp [ha, crampedCall] at hmem
    exact ⟨by rw [hmem.2.1], by rw [hmem.2.1]⟩
  let x := (r.2.exchanges[0]?).get rfl
  have hx : r.2.exchanges[0]? = some x := (Option.some_get _).symm
  obtain ⟨⟨f, hf, hpersists⟩, -⟩ :=
    pump_persists ⟨rfl, rfl, rfl⟩ (run_of_follow hfollow) htidy hx rfl
  have hended : f.ending.isSome = true := (hpersists.stopped rfl).1
  have htaken : ∀ p ∈ History.writes r.1 0, p.2 = none := by
    have hwrites : History.writes r.1 0 = [([1], none), ([2], none)] := rfl
    rw [hwrites]
    simp
  exact ⟨r.1, r.2, x, run_of_follow hfollow, hx, (hpersists.stopped rfl).2.2, hpersists.closings,
    (hpersists.client htaken).2 hended, fun o ho => (hpersists.outcome o ho).2⟩

end World
end EdgeCache
