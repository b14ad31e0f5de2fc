import EdgeCache.Proofs.Exchange.Counts
import EdgeCache.Proofs.Exchange.Liveness
import EdgeCache.Proofs.Exchange.Logging
import EdgeCache.Proofs.Exchange.Returns

/-!
# One line for each request

The line for a request is written by the front, and what it says of the body is counted by the
channel, which an origin of its own may be writing to.  `one_access_line` says that the two agree:
with the default policy, and a store that can open a body for every response, there is exactly one
line for every request, and its count is final.

What it takes is that a call does not return before its origin has ended.  The front awaits the
origin if it has stored something; and if it has not, then it has given up the response for want of
a head, which it learns from the end of the origin (`Heeded`).  So whatever has returned is over
(`isOver_of_outcome`), and writes nothing any more (`quiet_of_isOver`).
-/

set_option autoImplicit false

namespace EdgeCache

theorem Link.commitsFirst_of_accepted {link : Link} {n : Nat} (h : link.accepted? = some n) :
    link.commitsFirst = true := by
  cases link with
  | channel ch => rfl
  | tape tape => simp [accepted?] at h

/-- The entry with what is known at the end: the outcome, the bytes of the body and the time. -/
def Log.Access.completed (entry : Access) (outcome : Handled) (sent : Nat) (now : Instant) :
    Access :=
  { entry with
      status := outcome.status.code, bodyBytes := sent
      requestTime := entry.time.instant.microsUntil now, cacheStatus := some outcome.cache.text }

namespace World

/-! ## The calendar -/

/-- The end of the calendar is a century away at least. -/
def InTime (w : World) : Prop := w.clock.seconds + Settings.Cache.longestWindow ≤ Instant.latest

section InTime

variable {front : Front} {w w' : World}

/-- Then it reaches to the end of every lifetime. -/
theorem InTime.add?_ne_none (h : w.InTime) (seconds : Nat) :
    w.clock.add? (Settings.Cache.window seconds) ≠ none := by
  have hle : Settings.Cache.window seconds ≤ Settings.Cache.longestWindow := Nat.min_le_right _ _
  rw [InTime] at h
  simp only [Instant.add?, ne_eq, ite_eq_right_iff, reduceCtorEq, imp_false, Decidable.not_not]
  omega

theorem InTime.not_late (h : w.InTime) : ¬ Late front w := h.add?_ne_none _

/-- The default policy can always tell what to do with a response. -/
theorem InTime.judges (h : w.InTime) (hpolicy : front.policy = .byStatus front.settings)
    (request : Request) (head : Head) (text : String) :
    front.policy request head w.clock ≠ .error text := by
  rw [hpolicy, Policy.byStatus]
  cases hadd : w.clock.add? front.settings.ttlWindow with
  | none => exact absurd hadd (h.add?_ne_none _)
  | some expiration => simp

/-- It has not been later before. -/
theorem InTime.before {a : Happening} (h : w'.InTime) (ha : w.happen front a = some w') :
    w.InTime := by
  have hle := Instant.le_iff.1 (clock_le ha)
  rw [InTime] at h ⊢
  omega

theorem InTime.of_turn {b : World} {i : Nat} {x x' : Exchange} {actor : Actor}
    (h : (b.put i x').InTime) (ht : Turn front w i x actor x' b) : w.InTime := by
  have hclock : (b.put i x').clock = w.clock := ht.clock
  rwa [InTime, hclock] at h

end InTime

/-! ## What has returned is over -/

/-- Where the consumer has gone away, the origin has ended without a head. -/
def Heeded (x : Exchange) : Prop :=
  ∀ f, x.fetch = some f → f.tee.consumed = false →
    f.tee.announced = none ∧ f.ending.isSome = true

section Run

variable {front : Front} {t : History} {w w' w₀ b : World} {i : Nat} {x x' y : Exchange}
  {actor : Actor} {outcome : Handled}

theorem Heeded.turn (h : Heeded x) (ht : Turn front w i x actor x' b)
    (hjudges : ∀ head text, front.policy x.request head w.clock ≠ .error text)
    (hopening : ∀ sink, front.faults.opening sink = none) : Heeded x' := by
  intro f' hf' hgone
  cases ht with
  | ask =>
    obtain rfl := Option.some.inj hf'
    simp [Fetch.start] at hgone
  | decideFail _ hf hhead hpol => exact absurd hpol (hjudges _ _)
  | openFail _ hf hhead hpol hv ho => simp [hopening] at ho
  | loseHead _ hf hhead hend =>
    obtain rfl := Option.some.inj hf'
    exact ⟨hhead, hend⟩
  | origin hf hs =>
    obtain rfl := Option.some.inj hf'
    obtain ⟨hend, hturn⟩ := Fetch.step_cases hs
    obtain ⟨-, hended⟩ := h _ hf (hturn.consumed.symm.trans hgone)
    simp [hend] at hended
  | drain _ hf hr | pump _ hf hr =>
    obtain rfl := Option.some.inj hf'
    obtain ⟨rest, hcons, -, rfl⟩ := Fetch.receive_chunk hr
    simp [hcons] at hgone
  | _ => exact h f' hf' hgone

theorem Heeded.relinked (h : Heeded x) (hr : Relinked x y) : Heeded y := by
  intro f' hf' hgone
  cases hf : x.fetch with
  | none => simp [hr.fetch_eq_none hf] at hf'
  | some f =>
    obtain ⟨link, hlink⟩ := hr.fetch_eq_some hf
    obtain rfl := Option.some.inj (hlink.symm.trans hf')
    exact h f hf hgone

theorem heeded_of_run (h₀ : w₀.Blank) (hrun : Run (World.happen front) w₀ t w)
    (htidy : ∀ p ∈ t, Tidy p.2) (hpolicy : front.policy = .byStatus front.settings)
    (hopening : ∀ sink, front.faults.opening sink = none) (hin : w.InTime) :
    ∀ (i : Nat) (x : Exchange), w.exchanges[i]? = some x → Heeded x := by
  suffices hsuff : ∀ (i : Nat) (x : Exchange), w.exchanges[i]? = some x → w.InTime → Heeded x from
    fun i x hx => hsuff i x hx hin
  refine each_of_run (P := fun _ w _ x => w.InTime → Heeded x) h₀ hrun htidy ?_ ?_ ?_ ?_
  · intro t w i x actor x' b _ _ _ _ ht hheeded hin
    have hbefore := hin.of_turn ht
    exact (hheeded hbefore).turn ht (hbefore.judges hpolicy x.request) hopening
  · intro t w i x actor x' b j y _ _ ht _ _ hheeded hin
    exact hheeded (hin.of_turn ht)
  · intro t w a w' i x y ha _ _ _ hr hheeded hin
    exact (hheeded (hin.before ha)).relinked hr
  · exact fun _ _ f hf => by simp at hf

/-- The origin of a call that has returned has ended: it was awaited, or its end is why the call has
returned. -/
theorem Returns.ended (h : Returns x outcome) (hheeded : Heeded x)
    (hasked : ∀ f, x.fetch = some f → Asked x) {f : Fetch} (hf : x.fetch = some f) :
    f.ending.isSome = true := by
  rcases h with ⟨⟨-, hnone, -⟩, -⟩ | ⟨r, -, hacc, hawaited, -⟩
  · simp [hf] at hnone
  · cases hacc with
    | replayed hnone => simp [hf] at hnone
    | stored _ _ _ hjoins =>
      obtain ⟨f', hf', hend⟩ := hawaited hjoins
      obtain rfl := Option.some.inj (hf.symm.trans hf')
      exact hend
    | headless hf' _ hend =>
      obtain rfl := Option.some.inj (hf.symm.trans hf')
      exact hend
    | abandoned _ _ _ hjoins =>
      obtain ⟨-, hcopier, f', hf', hconsumed⟩ := hasked f hf
      obtain rfl := Option.some.inj (hf.symm.trans hf')
      exact (hheeded f hf (hconsumed.trans (hcopier.symm.trans hjoins))).2

/-- And so has its copier, if it has one. -/
theorem Returns.copier_over (h : Returns x outcome)
    (hasked : x.copier.isSome = true → Asked x) : x.copier.all Copier.isOver = true := by
  rcases h with ⟨⟨-, -, hnone, -⟩, -⟩ | ⟨r, -, -, -, hover⟩
  · rw [hnone]
    rfl
  · cases hcopier : x.copier with
    | none => rfl
    | some copier =>
      have hjoins := (hasked (by rw [hcopier]; rfl)).2.1
      rw [hcopier] at hjoins
      rw [← hcopier]
      exact hover hjoins

/-- **What has returned is over**, with the default policy and a store that opens a body when it is
asked to. -/
theorem isOver_of_outcome (h₀ : w₀.Blank) (hrun : Run (World.happen front) w₀ t w)
    (htidy : ∀ p ∈ t, Tidy p.2) (hpolicy : front.policy = .byStatus front.settings)
    (hopening : ∀ sink, front.faults.opening sink = none) (hin : w.InTime)
    (hx : w.exchanges[i]? = some x) (houtcome : x.outcome? = some outcome) : x.isOver = true := by
  have hc := (Orderly.of_run hrun h₀ htidy).course i x hx
  have hstage : x.stage = .finished outcome := by
    rw [Exchange.outcome?] at houtcome
    split at houtcome <;> simp_all
  have hreturned : x.returned? = some outcome := by rw [Exchange.returned?, hstage]
  have hreturns := (reckoned_of_run h₀ hrun htidy i x hx).1.returns hreturned
  have hasked : ∀ f, x.fetch = some f → Asked x := fun f hf =>
    (hc.asked_of_fetch hf).resolve_right (by simp [hstage])
  have horigin : x.fetch.all (·.ending.isSome) = true := by
    cases hf : x.fetch with
    | none => rfl
    | some f =>
      exact hreturns.ended (heeded_of_run h₀ hrun htidy hpolicy hopening hin i x hx) hasked hf
  rw [Exchange.isOver, houtcome, horigin, hreturns.copier_over hc.asked_of_copier]
  rfl

/-- **What is over writes nothing any more**, neither to its client nor to the log. -/
theorem quiet_of_isOver (hrun : Run (World.happen front) w t w') (hx : w.exchanges[i]? = some x)
    (hover : x.isOver = true) : t.writes i = [] ∧ t.accessLines front i = [] := by
  suffices hsuff : (∃ y, w'.exchanges[i]? = some y ∧ y.isOver = true) ∧
      t.writes i = [] ∧ t.accessLines front i = [] from hsuff.2
  induction hrun with
  | start => exact ⟨⟨x, hx, hover⟩, rfl, rfl⟩
  | next _ ha ih =>
    obtain ⟨⟨y, hy, hover⟩, hwrites, hlines⟩ := ih
    rcases happen_cases ha with ⟨j, actor, y', z, b, rfl, hy', ht, rfl⟩ | hout
    · have hij : i ≠ j := by
        rintro rfl
        obtain rfl := Option.some.inj (hy.symm.trans hy')
        simp [ht.isOver_eq_false] at hover
      refine ⟨⟨y, (ht.exchange_ne hij).trans hy, hover⟩, ?_, ?_⟩
      · rw [History.writes_step_ne hij, hwrites]
      · rw [History.accessLines_step_ne hij, hlines]
    · obtain ⟨z, hz, hr⟩ := hout.still i y hy
      refine ⟨⟨z, hz, hr.isOver.trans hover⟩, ?_, ?_⟩
      · rw [History.writes_outside hout.noStep, hwrites]
      · rw [History.accessLines_outside hout.noStep, hlines]

/-! ## The line -/

/-- **A turn brings no outcome, and no line for the exchange, unless it reports**: then it changes
nothing of the exchange but its stage. -/
theorem Turn.reports (ht : Turn front w i x actor x' b) (hnone : x.outcome? = none) :
    (x'.outcome? = none ∧ x.accessLine front w.clock actor = []) ∨
      ∃ outcome, x.stage = .reporting outcome ∧ actor = .front ∧
        x' = { x with stage := .finished outcome } := by
  cases ht with
  | report hs => exact .inr ⟨_, hs, rfl, rfl⟩
  | origin | drain | drained | pump | pumped | writeFail | write | stop => exact .inl ⟨hnone, rfl⟩
  | step hs | relayPartly hs =>
    exact .inl ⟨hnone, by rw [Exchange.accessLine]; simp only [hs]⟩
  | enter hs | skip hs | forward hs | forwarded hs | dieForwarding hs | replay hs | replayHead hs
  | ask hs | dieAsking hs | leave _ hs | turn hs | read hs | readAll hs | readFailed _ hs | relay hs
  | relayFailed hs | decideFail hs | discard _ hs | openFail hs | keep _ hs | loseHead hs
  | join _ hs | close _ hs =>
    exact .inl ⟨rfl, by rw [Exchange.accessLine]; simp only [hs]⟩

/-- What has been recorded for an exchange: its line, once it has an outcome. -/
structure Recorded (front : Front) (t : History) (i : Nat) (entry : Log.Access) (x : Exchange) :
    Prop where
  before : x.outcome? = none → t.accessLines front i = []
  after : ∀ outcome, x.outcome? = some outcome → ∃ now, t.accessLines front i =
    [⟨.access, (entry.completed outcome (total (t.received i)) now).format front.accessFormat⟩]

theorem Recorded.frame {t' : History} {entry : Log.Access} (h : Recorded front t i entry x)
    (hlines : t'.accessLines front i = t.accessLines front i) (hwrites : t'.writes i = t.writes i)
    (houtcome : y.outcome? = x.outcome?) : Recorded front t' i entry y where
  before := by
    rw [hlines, houtcome]
    exact h.before
  after := by
    rw [hlines, houtcome, History.received, hwrites]
    exact h.after

/-- **A turn of an exchange that is not over yet records it, if it reports.** -/
theorem Recorded.turn {entry : Log.Access} (h : Recorded front t i entry x)
    (hx : w.exchanges[i]? = some x) (ha : w.happen front (.step i actor) = some w')
    (ht : Turn front w i x actor x' b) (hnone : x.outcome? = none) (haccess : x.access = some entry)
    (hcount : x.client.link.accepted? = some (total (t.received i))) :
    Recorded front (t ++ [(w, .step i actor)]) i entry x' := by
  have hlines := History.accessLines_step (t := t) ha hx
  rw [h.before hnone, List.nil_append] at hlines
  rcases ht.reports hnone with ⟨hnone', hline⟩ | ⟨outcome, hs, rfl, rfl⟩
  · rw [hline] at hlines
    exact ⟨fun _ => hlines, fun outcome houtcome => by simp [hnone'] at houtcome⟩
  · refine ⟨fun hnone' => by simp [Exchange.outcome?] at hnone', fun outcome' houtcome => ?_⟩
    obtain rfl : outcome = outcome' := Option.some.inj houtcome
    refine ⟨w.clock, ?_⟩
    have hquiet : x.attempt .front = none := Exchange.attempt_front (by rw [hs]; rfl)
    have htotal : total (History.received (t ++ [(w, .step i .front)]) i) =
        total (t.received i) := by
      rw [total_received_step hx, hquiet]
      rfl
    rw [hlines, htotal, ← Client.bytesSent_of_accepted hcount]
    simp only [Exchange.accessLine, hs, haccess]
    rfl

theorem recorded_of_run {w₁ : World} {request : Request} {capacity : Nat} {entry : Log.Access}
    (h₀ : w₀.Blank) (hrun : Run (World.happen front) w₀ t w) (htidy : ∀ p ∈ t, Tidy p.2)
    (hpolicy : front.policy = .byStatus front.settings)
    (hopening : ∀ sink, front.faults.opening sink = none) (hin : w.InTime)
    (harrived : (w₁, .arrive request (.ofChannel capacity) (some entry)) ∈ t) :
    ∃ x, w.exchanges[w₁.exchanges.length]? = some x ∧
      Recorded front t w₁.exchanges.length entry x := by
  suffices hsuff : ∃ x, w.exchanges[w₁.exchanges.length]? = some x ∧
      (w.InTime → Recorded front t w₁.exchanges.length entry x) by
    obtain ⟨x, hx, hrecorded⟩ := hsuff
    exact ⟨x, hx, hrecorded hin⟩
  refine since_arrival (P := fun t w x => w.InTime → Recorded front t w₁.exchanges.length entry x)
    h₀ hrun htidy harrived ?_ ?_ ?_ ?_
  · refine fun {t w} hrun _ _ => ⟨fun _ => ?_, fun _ houtcome => ?_⟩
    · rw [History.accessLines_outside
          (a := .arrive request (.ofChannel capacity) (some entry)) nofun,
        History.accessLines_unborn hrun (Nat.le_refl _)]
    · simp [Exchange.outcome?] at houtcome
  · intro t w x actor x' b hrun htidy harrived h hx ht hrecorded hin
    have hbefore := hin.before h
    -- an exchange that takes a turn has no outcome yet
    have hnone : x.outcome? = none := by
      refine Option.eq_none_iff_forall_ne_some.2 fun outcome houtcome => ?_
      have hover := isOver_of_outcome h₀ hrun htidy hpolicy hopening hbefore hx houtcome
      simp [ht.isOver_eq_false] at hover
    obtain ⟨y, hy, -, haccess, hcount⟩ := accepted_of_run h₀ hrun htidy harrived
    obtain rfl : x = y := Option.some.inj (hx.symm.trans hy)
    refine (hrecorded hbefore).turn hx h ht hnone haccess (hcount.trans ?_)
    show some (0 + total (History.received t w₁.exchanges.length)) = _
    rw [Nat.zero_add]
  · intro t w i x y actor x' b ht hi hrecorded hin
    exact (hrecorded (hin.of_turn ht)).frame (History.accessLines_step_ne hi)
      (History.writes_step_ne hi) rfl
  · intro t w a w' x y h hout _ _ hr hrecorded hin
    refine (hrecorded (hin.before h)).frame (History.accessLines_outside hout.noStep)
      (History.writes_outside hout.noStep) ?_
    rw [Exchange.outcome?, Exchange.outcome?, hr.stage]

/-- With an origin that returns, the front does not die. -/
theorem isDead_eq_false_of_returns {n : Nat} (h₀ : w₀.Blank)
    (hrun : Run (World.happen front) w₀ t w) (htidy : ∀ p ∈ t, Tidy p.2) (hin : w.InTime)
    (hx : w.exchanges[i]? = some x) (hcount : x.client.link.accepted? = some n)
    (hreturns : (front.respond i x.request).Returns) : x.isDead = false := by
  obtain ⟨-, hforwards⟩ := delivers_of_run h₀ hrun htidy i x hx
  have hc := (Orderly.of_run hrun h₀ htidy).course i x hx
  cases hdead : x.isDead with
  | false => rfl
  | true =>
    rcases (Steady.of_run h₀ hrun htidy i x hx).dead hdead with hskip | hlate
    · have hown : x.client = x.own := by
        rw [Exchange.client, hforwards.fetch_eq_none hc hskip]
      rw [hown] at hcount
      rw [← hdead]
      exact hforwards.isDead_eq_false hskip (Link.commitsFirst_of_accepted hcount) hreturns
    · exact absurd hlate hin.not_late

end Run

/-- **There is one line for each request.**  Let a request arrive with a channel to its client and
an entry for the access log.  The policy is the default one, the store opens a body when it is asked
to, the calendar does not end within a century, and the origin returns, as sites and proxies do
(`Site.returns`, `Proxy.returns`); what else happens, in what order the tasks take turns, and when
the connection takes chunks or goes away, may be anything.

As long as the request has no outcome, there is no line for it in the log.  When it has one, there
is exactly one line, which has the status of the outcome and the total length of all chunks that the
channel has accepted; and from then on no chunk is accepted, and no line is added.  It comes to
that: if no task can take a step, and none waits for something from outside, then it has an outcome;
and there is no run with infinitely many steps unless requests keep arriving. -/
theorem one_access_line {front : Front} {t : History} {w₀ w₁ w : World} {request : Request}
    {capacity : Nat} {entry : Log.Access} (h₀ : w₀.Blank)
    (hrun : Run (World.happen front) w₀ t w) (htidy : ∀ p ∈ t, Tidy p.2)
    (hpolicy : front.policy = .byStatus front.settings)
    (hopening : ∀ sink, front.faults.opening sink = none) (hin : w.InTime)
    (hreturns : (front.respond w₁.exchanges.length request).Returns)
    (harrived : (w₁, .arrive request (.ofChannel capacity) (some entry)) ∈ t) :
    ∃ x, w.exchanges[w₁.exchanges.length]? = some x ∧ x.request = request ∧
      (t.accessLines front w₁.exchanges.length).Sublist w.log ∧
      (x.outcome? = none → t.accessLines front w₁.exchanges.length = []) ∧
      (∀ outcome, x.outcome? = some outcome →
        (∃ now, t.accessLines front w₁.exchanges.length =
          [⟨.access, (entry.completed outcome (total (t.received w₁.exchanges.length)) now).format
            front.accessFormat⟩]) ∧
        ∀ (t' : History) (w' : World), Run (World.happen front) w t' w' →
          t'.writes w₁.exchanges.length = [] ∧
          t'.accessLines front w₁.exchanges.length = []) ∧
      (Stuck front w → x.outcome?.isSome = true) ∧
      Acc (fun w' w => Proceeds front w w') w := by
  have ho := Orderly.of_run hrun h₀ htidy
  obtain ⟨x, hx, hrecorded⟩ := recorded_of_run h₀ hrun htidy hpolicy hopening hin harrived
  obtain ⟨y, hy, hrequest, -, hcount⟩ := accepted_of_run h₀ hrun htidy harrived
  obtain rfl : x = y := Option.some.inj (hx.symm.trans hy)
  refine ⟨x, hx, hrequest, History.accessLines_sublist hrun, hrecorded.before,
    fun outcome houtcome => ⟨hrecorded.after outcome houtcome, fun t' w' hrun' => ?_⟩,
    fun hstuck => ?_, ho.terminates_meanwhile⟩
  · exact quiet_of_isOver hrun' hx
      (isOver_of_outcome h₀ hrun htidy hpolicy hopening hin hx houtcome)
  · have halive : x.isDead = false :=
      isDead_eq_false_of_returns h₀ hrun htidy hin hx hcount (hrequest ▸ hreturns)
    rcases (isOver_cases ((hstuck.stalled ho).isOver ho hx trivial)).1 with
      ⟨outcome, hstage⟩ | hdead
    · rw [Exchange.outcome?, hstage]
      rfl
    · simp [halive] at hdead

/-- A front with the default settings, for an origin that writes two chunks. -/
def twoChunks : Front :=
  .byDefault {} none fun _ _ => .write [1] fun _ => .write [2] fun _ => .done (.ok .ok)

/-- The entry of a request at the beginning of the calendar. -/
def firstEntry : Log.Access := { time := { instant := default } }

/-- A request whose client goes away after the first chunk. -/
def leaving : List Happening :=
  .arrive { method := .get, uri := .asterisk } (.ofChannel 4) (some firstEntry) ::
    (List.replicate 10 (.step 0 .front) ++ List.replicate 3 (.step 0 .origin) ++ [.abandon 0] ++
      List.replicate 4 (.step 0 .origin) ++ List.replicate 6 (.step 0 .front) ++
      List.replicate 6 (.step 0 .copier) ++ List.replicate 2 (.step 0 .front))

theorem tidy_leaving : ∀ a ∈ leaving, Tidy a := by
  rintro a ha request client access rfl
  simp only [leaving, List.mem_cons, Happening.arrive.injEq, List.mem_append, List.mem_replicate,
    reduceCtorEq, and_false, List.not_mem_nil, or_false] at ha
  rw [ha.2.1]
  exact ⟨rfl, rfl⟩

/-- The origin has written both chunks, and the line counts the one that was accepted. -/
theorem one_access_line_leaving :
    ∃ (t : History) (w : World) (x : Exchange) (now : Instant),
      Run (World.happen twoChunks) {} t w ∧ w.exchanges[0]? = some x ∧
      x.outcome? = some ⟨.ok, .miss, none⟩ ∧
      t.writes 0 = [([1], none), ([2], some .clientGone)] ∧
      t.accessLines twoChunks 0 =
        [⟨.access, (firstEntry.completed ⟨.ok, .miss, none⟩ 1 now).format "combined"⟩] := by
  let r := (follow (World.happen twoChunks) {} leaving).get rfl
  have hfollow : follow (World.happen twoChunks) {} leaving = some r := (Option.some_get _).symm
  have htidy : ∀ p ∈ r.1, Tidy p.2 := fun p hp =>
    tidy_leaving _ (map_snd_of_follow hfollow ▸ List.mem_map_of_mem hp)
  have hin : r.2.InTime := by
    show (0 : Int) + Settings.Cache.longestWindow ≤ Instant.latest
    decide
  obtain ⟨x, hx, -, -, -, hafter, -⟩ := one_access_line ⟨rfl, rfl, rfl⟩
    (run_of_follow hfollow) htidy rfl (fun _ => rfl) hin
    (.write fun _ => .write fun _ => .done) (.head _)
  have houtcome : x.outcome? = some ⟨.ok, .miss, none⟩ := by
    obtain rfl := Option.some.inj hx
    rfl
  have hwrites : History.writes r.1 0 = [([1], none), ([2], some .clientGone)] := rfl
  obtain ⟨⟨now, hline⟩, -⟩ := hafter _ houtcome
  exact ⟨r.1, r.2, x, now, run_of_follow hfollow, hx, houtcome, hwrites, hline⟩

end World
end EdgeCache
