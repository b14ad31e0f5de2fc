import EdgeCache.Exchange.Front
import EdgeCache.Origin.Proxy
import EdgeCache.Origin.Site
import EdgeCache.Proofs.Origin.Deliveries

/-!
# What heads a script commits

`Script.Leads H P` is the weakest condition on what a script starts from, so that it commits only
heads for which `H` holds and `P` holds where it ends, whatever becomes of its writes.  It is a
statement about the script alone; both writers keep it, step by step (`Client.leads_step`,
`Fetch.leads_step`).

An origin is *truthful* if it returns the status that it has committed.  Files and proxies are, and
they do return.
-/

set_option autoImplicit false

namespace EdgeCache

namespace Script

/-- Starting from this delivery, and whatever becomes of its writes, the script commits only heads
for which `H` holds, and where it ends `P` holds of its value and of what is delivered then.  The
writes themselves are left out of the delivery. -/
def Leads {α : Type} (H : Head → Prop) (P : α → Delivery → Prop) : Script α → Delivery → Prop
  | done a, d => P a d
  | die _, _ => True
  | edit f rest, d => rest.Leads H P (d.edit f)
  | inspect k, d => (k d.headers).Leads H P d
  | observe k, d => (k d.head.isSome).Leads H P d
  | commit status rest, d =>
    (d.head = none → H ⟨status, d.headers⟩) ∧ rest.Leads H P (d.commit status)
  | write _ k, d =>
    -- a client may refuse a chunk before the head is fixed
    (d.head = none → H ⟨.ok, d.headers⟩ ∧ ∀ e, (k (some e)).Leads H P d) ∧
      ∀ failure, (k failure).Leads H P (d.commit .ok)
  | await _ _ rest, d => rest.Leads H P d
  | emit _ rest, d => rest.Leads H P d

section

variable {α β : Type} {H : Head → Prop} {P : α → Delivery → Prop} {Q : β → Delivery → Prop}

theorem Leads.bind {s : Script α} {k : α → Script β} {d : Delivery} (h : s.Leads H P d)
    (hk : ∀ a d, P a d → (k a).Leads H Q d) : (s.bind k).Leads H Q d := by
  induction s generalizing d with
  | done a => exact hk a d h
  | die => trivial
  | edit f rest ih | await gate ticket rest ih | emit e rest ih => exact ih h
  | inspect g ih | observe g ih => exact ih _ h
  | commit status rest ih => exact ⟨h.1, ih h.2⟩
  | write chunk g ih =>
    exact ⟨fun hd => ⟨(h.1 hd).1, fun e => ih _ ((h.1 hd).2 e)⟩, fun failure => ih _ (h.2 failure)⟩

/-- A write that is over, before the head is fixed only if it has failed. -/
theorem Leads.written {chunk : Bytes} {k : Option IoError → Script α} {d : Delivery}
    {failure : Option IoError} (h : (write chunk k).Leads H P d)
    (hfailed : d.head = none → failure.isSome = true) : (k failure).Leads H P d := by
  cases hd : d.head with
  | none =>
    obtain ⟨e, rfl⟩ := Option.isSome_iff_exists.1 (hfailed hd)
    exact (h.1 hd).2 e
  | some head =>
    rw [← Delivery.commit_of_isSome (d := d) (by rw [hd]; rfl) .ok]
    exact h.2 failure

/-- Fixing the head is a part of a write. -/
theorem Leads.commit_ok {chunk : Bytes} {k : Option IoError → Script α} {d : Delivery}
    (h : (write chunk k).Leads H P d) : (write chunk k).Leads H P (d.commit .ok) := by
  have hsome := Delivery.isSome_head_commit d .ok
  refine ⟨fun hnone => by simp [hnone] at hsome, fun failure => ?_⟩
  rw [Delivery.commit_of_isSome hsome]
  exact h.2 failure

end

end Script

/-! ## Writers -/

/-- The head, if one is committed, is one for which `H` holds. -/
def Delivery.Meets (H : Head → Prop) (d : Delivery) : Prop := ∀ head, d.head = some head → H head

theorem Delivery.Meets.commit {H : Head → Prop} {d : Delivery} {status : Status} (h : d.Meets H)
    (hnew : d.head = none → H ⟨status, d.headers⟩) : (d.commit status).Meets H := by
  intro head hhead
  rw [Delivery.commit] at hhead
  cases hd : d.head with
  | some head' => exact h head (by simpa only [hd] using hhead)
  | none =>
    simp only [hd, Option.some.injEq] at hhead
    exact hhead ▸ hnew hd

section Step

variable {α σ : Type} {H : Head → Prop} {P : α → Delivery → Prop} {on : Writer σ}
  {view : σ → Delivery} {gates : Gates} {w : σ} {s : Script α} {m : Moved σ α}

/-- An action that is no write. -/
theorem Script.Leads.step (hview : on.Shows view) (h : s.Leads H P (view w))
    (hmeets : (view w).Meets H) (hm : s.step on gates w = some m) (hs : s.isWriting = false) :
    m.script.Leads H P (view m.writer) ∧ (view m.writer).Meets H := by
  cases s with
  | done | die => simp [Script.step] at hm
  | edit f rest =>
    obtain rfl := Option.some.inj hm
    rw [hview.edit]
    exact ⟨h, hmeets⟩
  | inspect k =>
    obtain rfl := Option.some.inj hm
    rw [hview.headers]
    exact ⟨h, hmeets⟩
  | observe k =>
    obtain rfl := Option.some.inj hm
    rw [hview.isCommitted]
    exact ⟨h, hmeets⟩
  | commit status rest =>
    obtain rfl := Option.some.inj hm
    rw [hview.commit]
    exact ⟨h.2, hmeets.commit h.1⟩
  | write chunk k => simp [isWriting] at hs
  | await gate ticket rest =>
    cases ticket with
    | none =>
      obtain rfl := Option.some.inj hm
      exact ⟨h, hmeets⟩
    | some ticket =>
      simp only [Script.step, Option.ite_none_right_eq_some, Option.some.injEq] at hm
      obtain ⟨-, rfl⟩ := hm
      exact ⟨h, hmeets⟩
  | emit e rest =>
    obtain rfl := Option.some.inj hm
    exact ⟨h, hmeets⟩

end Step

namespace Client

/-- How far a write has come: the head has been fixed, or the write is over; before the head is
fixed it is over only if it has failed. -/
theorem write_outcomes {c : Client} (chunk : Bytes) :
    c.write chunk = .blocked ∨ (c.head = none ∧ c.write chunk = .partly (c.commit .ok)) ∨
      ∃ link failure, c.write chunk = .finished { c with link } failure ∧
        (c.head = none → failure.isSome = true) := by
  cases hc : c.isCommitted with
  | true =>
    rcases write_cases chunk hc with hblocked | ⟨link, failure, hw⟩
    · exact .inl hblocked
    · refine .inr (.inr ⟨link, failure, hw, fun hnone => ?_⟩)
      simp [isCommitted, hnone] at hc
  | false =>
    have hnone : c.head = none := by simpa [isCommitted] using hc
    rw [write, hc]
    cases hfirst : c.commitsOnWrite with
    | true => exact .inr (.inl ⟨hnone, rfl⟩)
    | false =>
      refine .inr (.inr ?_)
      rw [commitsOnWrite] at hfirst
      cases hlink : c.link with
      | channel ch => simp [hlink] at hfirst
      | tape tape =>
        simp only [hlink, Bool.or_eq_false_iff, Bool.not_eq_false'] at hfirst
        simp only [send, hlink, hfirst.2, Bool.false_eq_true, Bool.and_false, if_false, if_true]
        exact ⟨_, _, rfl, fun _ => rfl⟩

/-- A write that is over has changed only the link of a client whose head is fixed. -/
theorem of_written {c c' : Client} {chunk : Bytes} {failure : Option IoError}
    (hc : c.isCommitted = true) (h : c.write chunk = .finished c' failure) :
    Delivery.of c' [] = .of c [] := by
  rcases write_cases chunk hc with hblocked | ⟨link, failure', hw⟩
  · simp [hblocked] at h
  · rw [hw, Progress.finished.injEq] at h
    rw [← h.1]
    rfl

/-- **A client is led to where the script leads**, with a head that the script may commit. -/
theorem leads_step {α : Type} {H : Head → Prop} {P : α → Delivery → Prop} {gates : Gates}
    {c : Client} {s : Script α} {m : Moved Client α} (h : s.Leads H P (.of c []))
    (hmeets : (Delivery.of c []).Meets H) (hm : s.step writer gates c = some m) :
    m.script.Leads H P (.of m.writer []) ∧ (Delivery.of m.writer []).Meets H := by
  cases hs : s.isWriting with
  | false => exact h.step (shows []) hmeets hm hs
  | true =>
    obtain ⟨chunk, k, rfl⟩ := Script.eq_write hs
    rcases write_outcomes (c := c) chunk with hw | ⟨hnone, hw⟩ | ⟨link, failure, hw, hfailed⟩
    · simp [Script.step, writer, hw] at hm
    · simp only [Script.step, writer, hw, Option.some.injEq] at hm
      subst hm
      rw [Delivery.of_commit]
      exact ⟨h.commit_ok, hmeets.commit fun hd => (h.1 hd).1⟩
    · simp only [Script.step, writer, hw, Option.some.injEq] at hm
      subst hm
      exact ⟨h.written hfailed, hmeets⟩

end Client

namespace Fetch

/-- **The client of a tee is led to where the script leads**, with a head that the script may
commit. -/
theorem leads_step {H : Head → Prop} {P : Unit → Delivery → Prop} {f f' : Fetch}
    {gates gates' : Gates} {event : Option Event} (h : f.script.Leads H P (.of f.tee.client []))
    (hmeets : (Delivery.of f.tee.client []).Meets H)
    (hhalf : f.tee.halfway.isSome = true → f.tee.isCommitted = true)
    (hstep : f.step gates = some (f', gates', event)) :
    f'.script.Leads H P (.of f'.tee.client []) ∧ (Delivery.of f'.tee.client []).Meets H := by
  cases hs : f.script.isWriting with
  | false =>
    rcases script_step hstep with ⟨ending, rfl, -⟩ | ⟨m, hm, rfl⟩
    · exact ⟨h, hmeets⟩
    · exact h.step (Tee.shows []) hmeets hm hs
  | true =>
    obtain ⟨chunk, k, hscript⟩ := Script.eq_write hs
    obtain ⟨-, hturn⟩ := step_cases hstep
    generalize f.attempt = a at hturn
    generalize f.passes = p at hturn
    rw [hscript] at h
    -- what has gone to the client has gone after the head
    have hwritten : ∀ {chunk' k'} (failure : Option IoError), f.script = .write chunk' k' →
        f.tee.isCommitted = true → (k' failure).Leads H P (.of f.tee.client []) := by
      intro chunk' k' failure hs' hc
      rw [hscript, Script.write.injEq] at hs'
      refine hs'.2 ▸ h.written fun hnone => ?_
      rw [Tee.isCommitted, Client.isCommitted, show f.tee.client.head = none from hnone] at hc
      exact absurd hc (by simp)
    cases hturn with
    | close hch | look hch => simp [chunk?, hscript] at hch
    | edit hs' | commit hs' => simp [hscript] at hs'
    | «open» =>
      have hcommit := (Tee.shows []).commit .ok f.tee
      rw [show Delivery.of (f.tee.commit .ok).client [] = _ from hcommit, hscript]
      exact ⟨h.commit_ok, hmeets.commit fun hd => (h.1 hd).1⟩
    | send hs' hh hc hw =>
      rw [show Delivery.of _ [] = _ from Client.of_written hc hw, hscript]
      exact ⟨h, hmeets⟩
    | sendOnly hs' hh hc hw =>
      rw [show Delivery.of _ [] = _ from Client.of_written hc hw]
      exact ⟨hwritten _ hs' hc, hmeets⟩
    | feed hs' hh | unfed hs' hh => exact ⟨hwritten _ hs' (hhalf (by rw [hh]; rfl)), hmeets⟩

end Fetch

/-! ## Parts of scripts -/

namespace Script

variable {H : Head → Prop}

/-- Once the head is fixed, writing chunks leads to the result or to a failure. -/
theorem leads_writeAll {P : Except OriginError Status → Delivery → Prop} {chunks : List Bytes}
    {result : Except OriginError Status} {d : Delivery} (hd : d.head.isSome = true)
    (hresult : P result d) (hfailed : ∀ e, P (.error (.io e)) d) :
    (writeAll result chunks).Leads H P d := by
  refine writeAll_induction (P := fun s => s.Leads H P d) hresult hfailed (fun chunk k hk => ?_) _
  refine ⟨fun hnone => by simp [hnone] at hd, fun failure => ?_⟩
  rw [Delivery.commit_of_isSome hd]
  exact hk failure

/-- A plain-text answer fixes the head with its own fields, unless there is one. -/
theorem leads_plain {P : Option IoError → Delivery → Prop} {status : Status} {isHead : Bool}
    {d : Delivery} (hhead : d.head = none → H ⟨status, Plain.describe status d.headers⟩)
    (hP : ∀ e, P e ((d.edit (Plain.describe status)).commit status)) :
    (plain status isHead).Leads H P d := by
  refine ⟨hhead, ?_⟩
  have hsome := Delivery.isSome_head_commit (d.edit (Plain.describe status)) status
  cases isHead with
  | true => exact hP none
  | false =>
    refine ⟨fun hnone => by simp [hnone] at hsome, fun failure => ?_⟩
    rw [Delivery.commit_of_isSome hsome]
    exact hP failure

theorem leads_answerPlain {P : Except OriginError Status → Delivery → Prop} {status : Status}
    {isHead : Bool} {result : Except OriginError Status} {d : Delivery}
    (hhead : d.head = none → H ⟨status, Plain.describe status d.headers⟩)
    (hresult : P result ((d.edit (Plain.describe status)).commit status))
    (hfailed : ∀ e, P (.error (.io e)) ((d.edit (Plain.describe status)).commit status)) :
    (answerPlain status isHead result).Leads H P d := by
  refine Leads.bind (P := fun _ d' => d' = (d.edit (Plain.describe status)).commit status)
    (leads_plain hhead fun _ => rfl) ?_
  rintro failure - rfl
  cases failure with
  | none => exact hresult
  | some e => exact hfailed e

end Script

/-! ## What becomes of a result -/

/-- How an origin's result is reported past the cache. -/
def Front.reported : Except OriginError Status → Handled
  | .ok status => ⟨status, .skip, none⟩
  | .error cause => ⟨.badGateway, .skip, some (.upstream cause)⟩

section Result

variable {H : Head → Prop} {P : Except OriginError Status → Delivery → Prop} {isHead : Bool}
  {s : Script (Except OriginError Status)} {d : Delivery}

theorem Delivery.concludedHead_of_head {d : Delivery} {head : Head} (h : d.head = some head)
    (result : Except OriginError Status) : d.concludedHead result = head := by
  simp only [concludedHead, h]

/-- What is done for a result that has no head leads to the head of a result. -/
theorem Script.leads_conclude {Q : Unit → Delivery → Prop} (isHead : Bool)
    (result : Except OriginError Status)
    (hhead : d.head = none → H (d.concludedHead result))
    (hQ : ∀ d', d'.head = some (d.concludedHead result) → Q () d') :
    (ifUncommitted (match result with
      | .ok status => .commit status (.done ())
      | .error _ => (plain .badGateway isHead).bind fun _ => .done ())).Leads H Q d := by
  cases hd : d.head with
  | some head =>
    have hQ' := hQ d (by rw [hd, Delivery.concludedHead_of_head hd])
    simpa [ifUncommitted, Leads, hd] using hQ'
  | none =>
    have hH := hhead hd
    simp only [ifUncommitted, Leads, hd, Option.isSome_none, Bool.false_eq_true, if_false]
    cases result with
    | ok status =>
      simp only [Delivery.concludedHead, hd] at hH hQ
      exact ⟨fun _ => hH, hQ _ (by rw [Delivery.commit, hd])⟩
    | error cause =>
      simp only [Delivery.concludedHead, hd] at hH hQ
      refine Leads.bind (leads_plain (fun _ => hH) fun _ => ?_) fun _ d' h => h
      exact hQ _ (by simp [Delivery.commit, Delivery.edit, hd])

/-- **Past the cache**: the head that is committed in the end, and what is reported. -/
theorem Front.leads_forward {Q : Handled → Delivery → Prop} (h : s.Leads H P d)
    (hhead : ∀ result d', P result d' → d'.head = none → H (d'.concludedHead result))
    (hQ : ∀ result d' d'', P result d' → d''.head = some (d'.concludedHead result) →
      Q (reported result) d'') :
    (forward isHead s).Leads H Q d := by
  refine h.bind fun result d' hP => ?_
  have hconclude := Script.leads_conclude (H := H)
    (Q := fun _ d'' => d''.head = some (d'.concludedHead result)) isHead result (hhead result d' hP)
    fun _ => id
  cases result with
  | ok status => exact hconclude.bind fun _ d'' hd'' => hQ _ _ _ hP hd''
  | error cause => exact hconclude.bind fun _ d'' hd'' => hQ _ _ _ hP hd''

/-- **On a miss**: the head that is committed in the end. -/
theorem Fetch.leads_supervise {Q : Unit → Delivery → Prop} (h : s.Leads H P d)
    (hhead : ∀ result d', P result d' → d'.head = none → H (d'.concludedHead result))
    (hQ : ∀ result d' d'', P result d' → d''.head = some (d'.concludedHead result) → Q () d'') :
    (supervise isHead s).Leads H Q d := by
  refine h.bind fun result d' hP => ?_
  have hconclude := Script.leads_conclude (H := H) (Q := Q) isHead result
    (hhead result d' hP) fun d'' hd'' => hQ _ _ _ hP hd''
  cases result with
  | ok status => exact hconclude
  | error cause => exact hconclude

end Result

/-! ## Truthful origins -/

/-- An origin that returns a status has committed no head with another one. -/
def Script.Truthful (s : Script (Except OriginError Status)) : Prop :=
  ∀ h : Headers, s.Leads (fun _ => True)
    (fun result d => ∀ status head, result = .ok status → d.head = some head →
      head.status = status) ⟨h, none, []⟩

namespace Script

theorem truthful_answerPlain {status : Status} {isHead : Bool} {result : Except OriginError Status}
    (h : ∀ st, result = .ok st → st = status) : (answerPlain status isHead result).Truthful := by
  intro headers
  refine leads_answerPlain (fun _ => trivial) ?_ (by simp)
  rintro st head hst hhead
  simp only [Delivery.commit, Delivery.edit, Option.some.injEq] at hhead
  rw [← hhead, h st hst]

end Script

/-- A site returns the status it has committed. -/
theorem Site.truthful (s : Site) (t : Files.Tree) (cwd : Files.Place) (r : Request) :
    (s.responder t cwd r).Truthful := by
  rw [responder]
  split
  · exact fun headers => Script.truthful_answerPlain (by simp) _
  · cases s.resolve t cwd r.uri.path with
    | file place =>
      simp only [serve]
      cases t.read [] place.path with
      | error e => exact Script.truthful_answerPlain (by simp)
      | ok content =>
        refine fun headers => ⟨fun _ => trivial, Script.leads_writeAll rfl ?_ (by simp)⟩
        simp [Delivery.commit, Delivery.edit]
    | nothing line =>
      have hanswer : (Script.answerPlain .notFound r.isHead (.ok .notFound)).Truthful :=
        Script.truthful_answerPlain (by simp)
      cases line <;> exact hanswer

/-- A proxy fails at once, or passes a response on, or gives up. -/
theorem Proxy.leads_responder {H : Head → Prop} {P : Except OriginError Status → Delivery → Prop}
    {p : Proxy} {server : Server} {r : Request} {d : Delivery}
    (hmapped : ∀ e, p.mapped r.uri = .error e → P (.error e) d)
    (hrelay : ∀ target reply, p.mapped r.uri = .ok target →
      (p.exchange server target r).2 = .ok reply → (relay reply).Leads H P d)
    (hgiveUp : ∀ target fault, p.mapped r.uri = .ok target →
      (p.exchange server target r).2 = .error fault → (p.giveUp r.isHead fault).Leads H P d) :
    (p.responder server r).Leads H P d := by
  rw [responder]
  cases hm : p.mapped r.uri with
  | error e => exact hmapped e hm
  | ok target =>
    rcases hex : p.exchange server target r with ⟨contact, outcome⟩
    simp only [hex]
    cases outcome with
    | ok reply =>
      have hanswer := hrelay target reply hm (by rw [hex])
      cases contact <;> exact hanswer
    | error fault =>
      have hanswer := hgiveUp target fault hm (by rw [hex])
      cases contact <;> exact hanswer

/-- A proxy is truthful too, whatever its server answers. -/
theorem Proxy.truthful (p : Proxy) (server : Server) (r : Request) :
    (p.responder server r).Truthful := by
  intro headers
  refine leads_responder (by simp) (fun _ reply _ _ => ?_) fun _ fault _ _ => ?_
  · refine ⟨fun _ => trivial, Script.leads_writeAll rfl ?_ (by simp)⟩
    cases reply.body.broken <;> simp [Delivery.commit, Delivery.edit]
  · exact Script.truthful_answerPlain (by simp) headers

/-! ## Origins return -/

/-- A site returns, whatever it is asked for. -/
theorem Site.returns (s : Site) (t : Files.Tree) (cwd : Files.Place) (r : Request) :
    (s.responder t cwd r).Returns := by
  rw [responder]
  split
  · exact .edit (Script.returns_answerPlain ..)
  · cases s.resolve t cwd r.uri.path with
    | file place =>
      simp only [serve]
      cases t.read [] place.path with
      | error e => exact .emit (Script.returns_answerPlain ..)
      | ok content => exact .edit (.commit (Script.returns_writeAll ..))
    | nothing line =>
      have hanswer : (Script.answerPlain .notFound r.isHead (.ok .notFound)).Returns :=
        Script.returns_answerPlain ..
      cases line with
      | none => exact hanswer
      | some l => exact .emit hanswer

/-- A proxy returns, whatever its server answers. -/
theorem Proxy.returns (p : Proxy) (server : Server) (r : Request) :
    (p.responder server r).Returns := by
  have hrelay : ∀ reply, (relay reply).Returns := fun _ =>
    .edit (.commit (Script.returns_writeAll ..))
  have hgiveUp : ∀ fault, (p.giveUp r.isHead fault).Returns := fun _ =>
    .emit (Script.returns_answerPlain ..)
  rw [responder]
  cases p.mapped r.uri with
  | error e => exact .done
  | ok target =>
    rcases hex : p.exchange server target r with ⟨contact | c, fault | reply⟩ <;> simp only [hex]
    · exact hgiveUp fault
    · exact hrelay reply
    · exact .emit (hgiveUp fault)
    · exact .emit (hrelay reply)

end EdgeCache
