import EdgeCache.Proofs.Exchange.Heads
import EdgeCache.Proofs.Exchange.Hits
import EdgeCache.Proofs.Exchange.Returns

/-!
# The indicator of the cache status

A front may name a header that tells the client how its request was answered.  On a hit the stored
fields are free of it, and the mark of the hit is the only value (`Replays.values_indicator`).  On a
miss and past the cache the mark is put among the fields before the origin adds its own.  A proxy
commits the one head that `Proxy.answerHead` names, so whether the mark stays the only value is seen
from what its server answers (`indicator_iff`).
-/

set_option autoImplicit false

namespace EdgeCache

/-! ## The head a proxy answers with -/

namespace Proxy

/-- The head that a proxy commits where these fields are set already: that of the server's response
with the fields that are passed along added, or that of a plain answer. -/
def answerHead (p : Proxy) (server : Server) (r : Request) (h : Headers) : Head :=
  let plain : Head := ⟨.badGateway, Plain.describe .badGateway h⟩
  match p.mapped r.uri with
  | .error _ => plain
  | .ok target =>
    match (p.exchange server target r).2 with
    | .ok reply => ⟨reply.head.status, h.appendAll (HopByHop.strip reply.head.headers)⟩
    | .error _ => plain

/-- The answer of a proxy has fields of its own under the name: among those of the server's response
that are passed along, or those that describe a plain answer. -/
def Intrudes (p : Proxy) (server : Server) (r : Request) (name : HeaderName) : Prop :=
  match p.mapped r.uri with
  | .error _ => name = .contentType ∨ name = .contentLength
  | .ok target =>
    match (p.exchange server target r).2 with
    | .ok reply => (HopByHop.strip reply.head.headers).values name ≠ []
    | .error _ => name = .contentType ∨ name = .contentLength

variable {p : Proxy} {server : Server} {r : Request}

/-- **A proxy commits this head and no other**, and has committed none when it fails to say where
the request goes. -/
theorem leads_answerHead (h : Headers) :
    (p.responder server r).Leads (· = p.answerHead server r h)
      (fun result d => d.head = none → d.headers = h ∧ (∃ e, result = .error e) ∧
        p.answerHead server r h = ⟨.badGateway, Plain.describe .badGateway h⟩) ⟨h, none, []⟩ := by
  refine leads_responder (fun e hm => ?_) (fun target reply hm hex => ?_)
    fun target fault hm hex => ?_
  · refine fun _ => ⟨rfl, ⟨e, rfl⟩, ?_⟩
    simp only [answerHead, hm]
  · have hhead : p.answerHead server r h =
        ⟨reply.head.status, h.appendAll (HopByHop.strip reply.head.headers)⟩ := by
      simp only [answerHead, hm, hex]
    exact ⟨fun _ => hhead.symm, Script.leads_writeAll rfl (by simp [Delivery.commit, Delivery.edit])
      (by simp [Delivery.commit, Delivery.edit])⟩
  · have hhead : p.answerHead server r h = ⟨.badGateway, Plain.describe .badGateway h⟩ := by
      simp only [answerHead, hm, hex]
    rw [giveUp, Script.Leads]
    exact Script.leads_answerPlain (fun _ => hhead.symm) (by simp [Delivery.commit, Delivery.edit])
      (by simp [Delivery.commit, Delivery.edit])

/-- A proxy comes to a head, or fails at once. -/
theorem answers_responder (p : Proxy) (server : Server) (r : Request) :
    (p.responder server r).Answers fun _ => True := by
  rw [responder]
  cases p.mapped r.uri with
  | error e => exact .done trivial
  | ok target =>
    simp only
    cases (p.exchange server target r).2 with
    | ok reply => cases (p.exchange server target r).1 <;> repeat constructor
    | error fault => cases (p.exchange server target r).1 <;> repeat constructor

/-- What is done for a result does not bring another head. -/
theorem eq_answerHead_of_concluded {h : Headers} {result : Except OriginError Status} {d : Delivery}
    (hP : d.head = none → d.headers = h ∧ (∃ e, result = .error e) ∧
      p.answerHead server r h = ⟨.badGateway, Plain.describe .badGateway h⟩)
    (hd : d.head = none) : d.concludedHead result = p.answerHead server r h := by
  obtain ⟨hheaders, ⟨e, rfl⟩, hplain⟩ := hP hd
  simp only [Delivery.concludedHead, hd, hheaders, hplain]

/-- **The mark is the only value** exactly if the answer has no fields of its own under the name. -/
theorem values_answerHead_iff {name : HeaderName} {value : Bytes} {h : Headers}
    (hvalues : h.values name = [value]) (htext : value ≠ bytes "text/plain")
    (hlength : value ≠ Bytes.ofNat (Plain.body .badGateway).length) :
    (p.answerHead server r h).headers.values name = [value] ↔ ¬ p.Intrudes server r name := by
  have hplain : (Plain.describe .badGateway h).values name = [value] ↔
      ¬ (name = .contentType ∨ name = .contentLength) := by
    rw [Plain.describe, Headers.values_insert, Headers.values_insert, hvalues]
    by_cases hl : HeaderName.contentLength = name
    · simpa [hl] using hlength.symm
    · by_cases ht : HeaderName.contentType = name
      · simpa [hl, ht] using htext.symm
      · simp [hl, ht, Ne.symm hl, Ne.symm ht]
  rw [answerHead, Intrudes]
  cases p.mapped r.uri with
  | error e => exact hplain
  | ok target =>
    simp only
    cases (p.exchange server target r).2 with
    | error fault => exact hplain
    | ok reply => simp [hvalues]

end Proxy

/-! ## Marks -/

theorem Front.values_mark_indicator {front : Front} {name : HeaderName}
    (h : front.indicator = some name) (status : CacheStatus) (fields : Headers) :
    (front.mark status fields).values name = [bytes status.text] := by
  rw [mark, h, Headers.values_insert, if_pos rfl]

theorem Front.values_unmark_indicator {front : Front} {name : HeaderName}
    (h : front.indicator = some name) (fields : Headers) :
    (front.unmark fields).values name = [] := by
  rw [unmark, h, Headers.values_remove, if_pos rfl]

namespace World

section Run

variable {front : Front} {t : History} {w w₀ : World} {i : Nat} {x : Exchange} {outcome : Handled}
  {name : HeaderName}

/-- **On a hit the mark is the only value.** -/
theorem Replays.values_indicator {e : Entry} (hr : Replays front t i x e)
    (hname : front.indicator = some name) {head : Head} (hhead : x.own.head = some head) :
    head.headers.values name = [bytes CacheStatus.hit.text] := by
  obtain ⟨w₁, j, y, committed, verdict, -, -, hk⟩ := hr.kept
  obtain rfl := Option.some.inj (hr.head.symm.trans hhead)
  rw [Headers.values_appendAll, Front.values_mark_indicator hname, hk.head, Front.kept,
    Front.values_unmark_indicator hname, List.append_nil]

/-- **When the indicator is the one truthful value.**  Let the front have an indicator, and let the
origin of the exchange be a proxy, whatever its server answers.  When the call has returned, its
client has a head, with exactly one value under the indicator's name, which is the status reported,
exactly if it was a hit or the answer of the proxy has no fields of its own under the name. -/
theorem indicator_iff {p : Proxy} {server : Server} (h₀ : w₀.Blank)
    (hrun : Run (World.happen front) w₀ t w) (htidy : ∀ p ∈ t, Tidy p.2)
    (hx : w.exchanges[i]? = some x) (hreturned : x.returned? = some outcome)
    (hname : front.indicator = some name)
    (hproxy : front.respond i x.request = p.responder server x.request) :
    ∃ head, x.client.head = some head ∧
      (head.headers.values name = [bytes outcome.cache.text] ↔
        outcome.cache = .hit ∨ ¬ p.Intrudes server x.request name) := by
  have ho := Orderly.of_run hrun h₀ htidy
  obtain ⟨hsettled, hcache, -⟩ := (ho.course i x hx).returned hreturned
  -- the head of an answer, with a mark that says no hit
  have hmarked : ∀ status : CacheStatus, status ≠ .hit →
      ((p.answerHead server x.request (front.mark status {})).headers.values name =
        [bytes status.text] ↔ status = .hit ∨ ¬ p.Intrudes server x.request name) := by
    intro status hne
    rw [or_iff_right hne]
    refine Proxy.values_answerHead_iff (Front.values_mark_indicator hname status {}) ?_ ?_ <;>
      cases status <;> decide
  have hled := fun status => led_of_run (i := i) (x := x)
    (· = p.answerHead server x.request (front.mark status {})) (fun _ d => d.head.isSome = true)
    h₀ hrun htidy hx
  rcases hsettled with ⟨e, hr, -⟩ | ⟨hmiss, -, f, hf, -⟩ | hskips
  · refine ⟨_, by rw [Exchange.client, hr.fetch]; exact hr.head, ?_⟩
    rw [hcache, hr.cache]
    exact iff_of_true (hr.values_indicator hname hr.head) (.inl rfl)
  · have hanswers : (front.respond i x.request).Answers fun _ => True :=
      hproxy ▸ p.answers_responder server x.request
    have hpromises := promises_of_run h₀ hrun htidy i x hx hanswers
    obtain ⟨head, hann⟩ : ∃ head, f.tee.announced = some head := by
      rcases (reckoned_of_run h₀ hrun htidy i x hx).1.returns hreturned with
        ⟨hskips, -⟩ | ⟨r, -, hacc, -⟩
      · simp [hskips.1] at hmiss
      · cases hacc with
        | replayed hf' => simp [hf] at hf'
        | stored hf' hann | abandoned hf' hann =>
          obtain rfl := Option.some.inj (hf.symm.trans hf')
          exact Option.isSome_iff_exists.1 (by simp [hann])
        | headless hf' hann hend =>
          simp [(hpromises _ hf' hann).1] at hend
    rw [(ho.watched i x f hx hf).announced] at hann
    refine ⟨head, by rw [Exchange.client, hf, hann], ?_⟩
    obtain ⟨-, hmeets⟩ := (hled .miss).miss (hproxy ▸ Fetch.leads_supervise
      (Proxy.leads_answerHead _) (fun _ _ => Proxy.eq_answerHead_of_concluded)
      fun _ _ _ _ _ => trivial) f hf
    rw [hmeets head hann, hcache, hmiss]
    exact hmarked .miss (by simp)
  · obtain ⟨s, hs, hend, hmeets⟩ := (hled .skip).past (hproxy ▸ Front.leads_forward
      (Proxy.leads_answerHead _) (fun _ _ => Proxy.eq_answerHead_of_concluded)
      fun _ _ _ _ hd => by rw [hd]; rfl) hskips.1
    obtain rfl := left_eq_done hreturned hs
    obtain ⟨head, hd⟩ := Option.isSome_iff_exists.1 hend
    refine ⟨head, by rw [Exchange.client, hskips.2.1]; exact hd, ?_⟩
    rw [hmeets head hd, hcache, hskips.1]
    exact hmarked .skip (by simp)

end Run

/-! ## A cache behind the cache -/

/-- A proxy for a server. -/
def upstream : Proxy := ⟨bytes "o", ⟨[], none⟩⟩

/-- A server that is a cache itself, and says so. -/
def cached : Server := fun _ =>
  some (bytes "HTTP/1.1 200 OK\x0d\nx-cache: HIT\x0d\ncontent-length: 2\x0d\n\x0d\nok")

/-- A front before that server, with an indicator of this name. -/
def twice (name : HeaderName) : Front :=
  .byDefault {} (some name) fun _ => upstream.responder cached

def plainGet : Request := { method := .get, uri := .origin ⟨bytes "/a", none⟩ }

/-- The turns of a miss with one chunk from there. -/
def relaying : List (Actor × Nat) :=
  [(.front, 10), (.origin, 7), (.front, 6), (.copier, 4), (.front, 2)]

/-- A call of the front ends as a miss, and its client has these values under the name. -/
theorem call_twice (name : HeaderName) (values : List Bytes)
    (h : ((call (twice name) plainGet relaying {}).any fun r => (r.2.exchanges[0]?).any fun x =>
      x.returned? == some ⟨.ok, .miss, none⟩ &&
        x.client.head.map (·.headers.values name) == some values) = true) :
    ∃ (t : History) (w : World) (x : Exchange), Run (World.happen (twice name)) {} t w ∧
      (∀ p ∈ t, Tidy p.2) ∧ w.exchanges[0]? = some x ∧
      x.returned? = some ⟨.ok, .miss, none⟩ ∧
      x.client.head.map (·.headers.values name) = some values := by
  simp only [Option.any_eq_true, Bool.and_eq_true, beq_iff_eq] at h
  obtain ⟨r, hr, x, hx, hreturned, hvalues⟩ := h
  have hsolo := solo_of_call hr
  exact ⟨r.1, r.2, x, hsolo.run, hsolo.tidy, hx, hreturned, hvalues⟩

/-- A reply without a field of that name leaves the mark alone. -/
theorem indicator_iff_twice :
    ∃ (t : History) (w : World) (x : Exchange) (head : Head) (name : HeaderName),
      Run (World.happen (twice name)) {} t w ∧ w.exchanges[0]? = some x ∧
      x.client.head = some head ∧ head.headers.values name = [bytes "miss"] ∧
      ¬ upstream.Intrudes cached x.request name := by
  obtain ⟨t, w, x, hrun, htidy, hx, hreturned, hvalues⟩ :=
    call_twice (.lit "x-status" (by decide)) [bytes "miss"] (by decide +kernel)
  obtain ⟨head, hhead, hiff⟩ := indicator_iff ⟨rfl, rfl, rfl⟩ hrun htidy hx hreturned rfl
    (Eq.refl (upstream.responder cached x.request))
  rw [hhead, Option.map_some, Option.some.injEq] at hvalues
  exact ⟨t, w, x, head, _, hrun, hx, hhead, hvalues, (hiff.1 hvalues).resolve_left (by simp)⟩

/-- **An indicator with two values**, the second of which is none of this cache. -/
theorem indicator_doubled :
    ∃ (t : History) (w : World) (x : Exchange) (head : Head) (name : HeaderName),
      Run (World.happen (twice name)) {} t w ∧ (∀ p ∈ t, Tidy p.2) ∧ w.exchanges[0]? = some x ∧
      x.returned? = some ⟨.ok, .miss, none⟩ ∧ x.client.head = some head ∧
      head.headers.values name = [bytes "miss", bytes "HIT"] := by
  obtain ⟨t, w, x, hrun, htidy, hx, hreturned, hvalues⟩ :=
    call_twice (.lit "x-cache" (by decide)) [bytes "miss", bytes "HIT"] (by decide +kernel)
  obtain ⟨head, hhead, hvalues⟩ := Option.map_eq_some_iff.1 hvalues
  exact ⟨t, w, x, head, _, hrun, htidy, hx, hreturned, hhead, hvalues⟩

end World
end EdgeCache
