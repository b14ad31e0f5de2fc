import EdgeCache.Proofs.Exchange.Transparency
import Mathlib.Algebra.GroupWithZero.Nat

/-!
# What channels have accepted

A channel counts the bytes of the chunks that it accepts.  `accepted_of_run` says that the count is
right at any time: it is the total length of the chunks that the client has received since the
exchange began, whoever has written them, and whether or not the connection has taken them out again
or has gone away.

Only what is put on a link changes the count, so a turn adds to it what it attempts to write and is
not refused (`Turn.gains`), and what comes from outside leaves it alone (`link_happen`).
-/

set_option autoImplicit false

namespace EdgeCache

/-- The total length of the chunks that a channel has accepted. -/
def Link.accepted? : Link → Option Nat
  | .channel ch => some ch.accepted
  | .tape _ => none

/-- The total length of chunks. -/
def total (chunks : List Bytes) : Nat := (chunks.map List.length).sum

theorem total_append (a b : List Bytes) : total (a ++ b) = total a + total b := by
  simp [total]

/-- What an attempt to write, if there is one, adds to the count. -/
def gain : Option (Bytes × Option IoError) → Nat
  | some (chunk, none) => chunk.length
  | _ => 0

/-- The second link counts what the first one does, and what an attempt adds. -/
def Gains (link : Link) (attempt : Option (Bytes × Option IoError)) (link' : Link) : Prop :=
  link'.accepted? = link.accepted?.map (· + gain attempt)

theorem Gains.refl (link : Link) : Gains link none link := by
  rw [Gains]
  cases link.accepted? <;> rfl

/-! ## Clients -/

namespace Client

theorem gains_send {c c' : Client} {chunk : Bytes} {failure : Option IoError}
    (h : c.send chunk = .finished c' failure) : Gains c.link (some (chunk, failure)) c'.link := by
  obtain ⟨ch, hlink, rfl, hlink'⟩ | ⟨ch, hlink, rfl, hlink'⟩ | ⟨t, chunks, hlink, hlink'⟩ :=
    link_of_send h
  all_goals
    rw [hlink, hlink']
    rfl

/-- The end of a write adds the chunk, unless it is refused. -/
theorem gains_write {c c' : Client} {chunk : Bytes} {failure : Option IoError}
    (h : c.write chunk = .finished c' failure) : Gains c.link (some (chunk, failure)) c'.link :=
  gains_send (send_of_write h)

theorem gains_step {α : Type} {gates : Gates} {c : Client} {s : Script α} {m : Moved Client α}
    (h : s.step writer gates c = some m) : Gains c.link (s.attempt c) m.writer.link := by
  obtain ⟨hattempt, hlink⟩ | ⟨chunk, failure, hattempt, hsend⟩ := link_step h
  · rw [hattempt, hlink]
    exact .refl _
  · rw [hattempt]
    exact gains_send hsend

theorem bytesSent_of_accepted {c : Client} {n : Nat} (h : c.link.accepted? = some n) :
    c.bytesSent = n := by
  rw [bytesSent]
  cases hlink : c.link with
  | channel ch =>
    rw [hlink] at h
    exact Option.some.inj h
  | tape tape => simp [hlink, Link.accepted?] at h

end Client

theorem Fetch.Turn.gains {f f' : Fetch} {a : Option (Bytes × Option IoError)} {p : Option Bytes}
    (ht : f.Turn a p f') : Gains f.tee.client.link a f'.tee.client.link := by
  have hcommit : ∀ status, Gains f.tee.client.link none (f.tee.commit status).client.link := by
    intro status
    rw [Tee.commit]
    split
    · exact .refl _
    · show Gains f.tee.client.link none (f.tee.client.commit status).link
      rw [Client.link_commit]
      exact .refl _
  cases ht with
  | close | edit | look | feed | unfed => exact .refl _
  | commit | «open» => exact hcommit _
  | send _ _ _ hw | sendOnly _ _ _ hw => exact Client.gains_write hw

/-! ## Exchanges -/

namespace World

section Turn

variable {front : Front} {t : History} {w w' b : World} {a : Happening} {i : Nat}
  {x x' y : Exchange} {actor : Actor}

/-- **A turn adds to the count what it attempts to write**, unless it is refused. -/
theorem Turn.gains (hc : Course front t w i x) (ht : Turn front w i x actor x' b) :
    Gains x.client.link (x.attempt actor) x'.client.link := by
  -- the client is that of the front
  have hown : x.fetch = none → x'.fetch = none → Gains x.own.link (x.attempt actor) x'.own.link →
      Gains x.client.link (x.attempt actor) x'.client.link := by
    intro hf hf' h
    rwa [Exchange.client, Exchange.client, hf, hf']
  -- or the turn has nothing to do with it
  have hidle : x.attempt actor = none → x'.client.link = x.client.link →
      Gains x.client.link (x.attempt actor) x'.client.link := by
    intro hatt hlink
    rw [hatt, hlink]
    exact .refl _
  have hquiet : x.stage.chunk? = none → x.attempt .front = none := Exchange.attempt_front
  cases ht with
  | enter h | leave _ h | step h | turn h | read h | discard _ h | keep _ h | join _ h | close _ h
  | report h => exact hidle (hquiet (by rw [h]; rfl)) rfl
  | skip h =>
    exact hidle (hquiet (by rw [h]; rfl))
      (by simp only [Exchange.client, (hc.arrived h).fetch]; rfl)
  | forward h hm =>
    have hf := (hc.forwarding h).1.2.1
    refine hown hf hf ?_
    rw [Exchange.attempt_forwarding h]
    exact Client.gains_step hm
  | forwarded h | dieForwarding h =>
    have hf := (hc.forwarding h).1.2.1
    exact hidle (hquiet (by rw [h]; rfl)) (by simp only [Exchange.client, hf]; rfl)
  | replay h hh | replayHead h hh =>
    have hf := (hc.fresh_of_handed h hh).fetch
    refine hidle (hquiet (by rw [h]; rfl)) ?_
    simp only [Exchange.client, hf]
    exact Client.link_commit _ _
  | ask h hh | dieAsking h hh =>
    have hf := (hc.fresh_of_handed h hh).fetch
    exact hidle (hquiet (by rw [h]; rfl)) (by simp only [Exchange.client, hf]; rfl)
  | readAll h | readFailed _ h =>
    obtain ⟨e, slot, n, -, hr, -⟩ := hc.replaying h
    exact hidle (hquiet (by rw [h]; rfl)) (by simp only [Exchange.client, hr.fetch]; rfl)
  | relayPartly h hw =>
    obtain ⟨e, slot, n, -, hr, -⟩ := hc.relaying h
    exact absurd hw (Client.write_ne_partly (by rw [Client.isCommitted, hr.head]; rfl))
  | relay h hw | relayFailed h hw =>
    obtain ⟨e, slot, n, -, hr, -⟩ := hc.relaying h
    refine hown hr.fetch hr.fetch ?_
    rw [Exchange.attempt, h, Stage.chunk?, Option.bind_some, Client.reports_finished hw,
      Option.map_some]
    have hgains := Client.gains_write hw
    exact hgains
  | decideFail h hf | openFail h hf | loseHead h hf =>
    exact hidle (hquiet (by rw [h]; rfl)) (by simp only [Exchange.client, hf]; rfl)
  | origin hf hs =>
    simp only [Exchange.client, Exchange.attempt, hf, Option.bind_some]
    exact (Fetch.step_cases hs).2.gains
  | drain _ hf hr | pump _ hf hr =>
    obtain ⟨rest, -, -, rfl⟩ := Fetch.receive_chunk hr
    exact hidle rfl (by simp only [Exchange.client, hf])
  | drained | pumped | writeFail | write | stop => exact hidle rfl rfl

end Turn

theorem total_received_step {t : History} {w : World} {i : Nat} {x : Exchange} {actor : Actor}
    (hx : w.exchanges[i]? = some x) :
    total (History.received (t ++ [(w, .step i actor)]) i) =
      total (t.received i) + gain (x.attempt actor) := by
  rw [History.received, History.writes_step hx, List.filterMap_append, total_append,
    ← History.received]
  congr 1
  rcases x.attempt actor with _ | ⟨chunk, _ | failure⟩ <;> simp [total, gain]

theorem Turn.access {front : Front} {w b : World} {i : Nat} {x x' : Exchange} {actor : Actor}
    (ht : Turn front w i x actor x' b) : x'.access = x.access := by
  cases ht <;> rfl

theorem Relinked.access {x y : Exchange} (h : Relinked x y) : y.access = x.access := by
  cases h with
  | own link hf hy | tee link hf hy => rw [hy]

/-- **The count is right at any time**: it is what the client arrived with, and the total length of
the chunks that it has received since. -/
theorem accepted_of_run {front : Front} {t : History} {w₀ w₁ w : World} {request : Request}
    {client : Client} {access : Option Log.Access} (h₀ : w₀.Blank)
    (hrun : Run (World.happen front) w₀ t w) (htidy : ∀ p ∈ t, Tidy p.2)
    (harrived : (w₁, .arrive request client access) ∈ t) :
    ∃ x, w.exchanges[w₁.exchanges.length]? = some x ∧ x.request = request ∧ x.access = access ∧
      x.client.link.accepted? =
        client.link.accepted?.map (· + total (t.received w₁.exchanges.length)) := by
  refine since_arrival (P := fun t _ x => x.request = request ∧ x.access = access ∧
    x.client.link.accepted? =
      client.link.accepted?.map (· + total (t.received w₁.exchanges.length))) h₀ hrun htidy harrived
    ?_ ?_ ?_ ?_
  · intro t w _ ho
    have hnone : History.received (t ++ [(w₁, .arrive request client access)])
        w₁.exchanges.length = [] := by
      rw [History.received, History.writes_outside (a := .arrive request client access) (by simp),
        (ho.unborn _ (Nat.le_refl _)).1]
      rfl
    rw [hnone]
    refine ⟨rfl, rfl, ?_⟩
    show client.link.accepted? = _
    cases client.link.accepted? <;> rfl
  · rintro t w x actor x' b hrun htidy - - hx ht ⟨hrequest, haccess, hcount⟩
    refine ⟨ht.request.trans hrequest, ht.access.trans haccess, ?_⟩
    have hgains := ht.gains ((Orderly.of_run hrun h₀ htidy).course _ x hx)
    rw [Gains, hcount] at hgains
    rw [hgains, total_received_step hx, Option.map_map]
    congr 1
    funext n
    exact Nat.add_assoc _ _ _
  · rintro t w i x y actor x' b - hi ⟨hrequest, haccess, hcount⟩
    refine ⟨hrequest, haccess, ?_⟩
    rw [hcount, History.received, History.received, History.writes_step_ne hi]
  · rintro t w a w' x y h hout hx hy hr ⟨hrequest, haccess, hcount⟩
    refine ⟨hr.request.trans hrequest, hr.access.trans haccess, ?_⟩
    have hlasting : Link.Lasting Link.accepted? := fun _ _ _ => rfl
    rw [(link_happen hlasting h hout.noStep hx hy).2, hcount, History.received, History.received,
      History.writes_outside hout.noStep]

end World
end EdgeCache
