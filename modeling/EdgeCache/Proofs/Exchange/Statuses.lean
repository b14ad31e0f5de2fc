import EdgeCache.Proofs.Exchange.Heads
import EdgeCache.Proofs.Exchange.Returns

/-!
# The status that is reported

The outcome of a call names a status, which is what the access log records.  On a hit it is that of
the entry, on a miss that of the head that the tee has announced, and past the cache the one that
the origin returns; `status_told_iff` compares all three with the head that the client has got.
They agree but in one case: when an origin past the cache fails after it has committed a head, then
`502 Bad Gateway` is reported, whatever the client has been told.
-/

set_option autoImplicit false

namespace EdgeCache
namespace World

/-- A head is committed, and the outcome reports its status, or else that the origin has failed. -/
def Told (o : Handled) (d : Delivery) : Prop :=
  ∃ head, d.head = some head ∧
    (o.error = none ∧ o.status = head.status ∨
      ∃ cause, o.error = some (.upstream cause) ∧ o.status = .badGateway)

/-- Past the cache a truthful origin leads to a head that is reported. -/
theorem leads_told {s : Script (Except OriginError Status)} (h : s.Truthful) (isHead : Bool)
    (headers : Headers) :
    (Front.forward isHead s).Leads (fun _ => True) Told ⟨headers, none, []⟩ := by
  refine Front.leads_forward (h headers) (fun _ _ _ _ => trivial) fun result d d' htrue hd' => ?_
  refine ⟨_, hd', ?_⟩
  cases result with
  | error cause => exact .inr ⟨cause, rfl, rfl⟩
  | ok status =>
    refine .inl ⟨rfl, ?_⟩
    cases hd : d.head with
    | none => simp only [Front.reported, Delivery.concludedHead, hd]
    | some head => rw [Delivery.concludedHead_of_head hd, htrue status head rfl hd, Front.reported]

section Run

variable {front : Front} {t : History} {w w₀ : World} {i : Nat} {x : Exchange} {outcome : Handled}

/-- **When the reported status is the one the client got.**  Let an origin that returns a status
have committed no other one.  If a call returns without an error of the policy, of the store or for
want of a head, then its client has a head; and the status reported is that of the head, exactly
unless the origin has failed, past the cache, after it has committed a head with another status than
`502 Bad Gateway`. -/
theorem status_told_iff (h₀ : w₀.Blank) (hrun : Run (World.happen front) w₀ t w)
    (htidy : ∀ p ∈ t, Tidy p.2) (hx : w.exchanges[i]? = some x)
    (hreturned : x.returned? = some outcome)
    (htruthful : (front.respond i x.request).Truthful)
    (hkept : outcome.error.any CacheError.abandons = false)
    (hhead : outcome.error ≠ some .headersUnavailable) :
    ∃ head, x.client.head = some head ∧
      (outcome.status = head.status ↔
        ¬ (outcome.cache = .skip ∧ (∃ cause, outcome.error = some (.upstream cause)) ∧
          head.status ≠ .badGateway)) := by
  have ho := Orderly.of_run hrun h₀ htidy
  obtain ⟨hsettled, hcache, hstatus⟩ := (ho.course i x hx).returned hreturned
  have hreturns := (reckoned_of_run h₀ hrun htidy i x hx).1.returns hreturned
  rcases hsettled with ⟨e, hr, -⟩ | ⟨hmiss, -, f, hf, -⟩ | hskips
  · -- the head of the entry has been replayed
    have hne : x.cache ≠ .skip := by simp [hr.cache]
    refine ⟨_, by rw [Exchange.client, hr.fetch]; exact hr.head, ?_⟩
    rw [hstatus hne, hr.status, hcache, hr.cache]
    simp
  · -- the tee has announced the head
    have hne : x.cache ≠ .skip := by simp [hmiss]
    have hannounced := (ho.watched i x f hx hf).announced
    rcases hreturns with ⟨⟨hskip, -⟩, -⟩ | ⟨r, herror, hacc, -⟩
    · exact absurd hskip hne
    cases hacc with
    | replayed hf' => simp [hf] at hf'
    | @stored f' head hf' hann hst =>
      obtain rfl := Option.some.inj (hf.symm.trans hf')
      refine ⟨head, by rw [Exchange.client, hf, ← hannounced, hann], ?_⟩
      rw [hstatus hne, hst, hcache, hmiss]
      simp
    | headless => exact absurd herror hhead
    | abandoned hf' hann he => simp [herror, failureOf, he] at hkept
  · -- the origin has run in the front
    obtain ⟨s, hs, htold, -⟩ := (led_of_run (fun _ => True) Told h₀ hrun htidy i x hx).past
      (leads_told htruthful _ _) hskips.1
    obtain rfl := left_eq_done hreturned hs
    obtain ⟨head, hd, htold⟩ := htold
    refine ⟨head, by rw [Exchange.client, hskips.2.1]; exact hd, ?_⟩
    rw [hcache, hskips.1]
    rcases htold with ⟨hnone, hst⟩ | ⟨cause, hcause, hst⟩
    · simp [hnone, hst]
    · rw [hst, eq_comm]
      simp [hcause]

end Run

/-- On a miss the status of the response is reported, though the client has refused its body. -/
theorem status_told_iff_refusing :
    ∃ (t : History) (w : World) (x : Exchange) (head : Head),
      Run (World.happen oneChunk) {} t w ∧ w.exchanges[0]? = some x ∧
      x.returned? = some ⟨.ok, .miss, none⟩ ∧ x.client.head = some head ∧ head.status = .ok := by
  let turns := refusing [(.front, 10), (.origin, 5), (.front, 6), (.copier, 4), (.front, 2)]
  let r := (follow (World.happen oneChunk) {} turns).get rfl
  have hfollow : follow (World.happen oneChunk) {} turns = some r := (Option.some_get _).symm
  have htidy : ∀ p ∈ r.1, Tidy p.2 := fun p hp =>
    tidy_refusing _ _ (map_snd_of_follow hfollow ▸ List.mem_map_of_mem hp)
  let x := (r.2.exchanges[0]?).get rfl
  have hx : r.2.exchanges[0]? = some x := (Option.some_get _).symm
  have htruthful : (oneChunk.respond 0 x.request).Truthful := by
    intro headers
    simp [oneChunk, Script.Leads, Delivery.commit, eq_comm]
  have hreturned : x.returned? = some ⟨.ok, .miss, none⟩ := rfl
  obtain ⟨head, hhead, htold⟩ := status_told_iff ⟨rfl, rfl, rfl⟩ (run_of_follow hfollow) htidy hx
    hreturned htruthful rfl (by simp)
  exact ⟨r.1, r.2, x, head, run_of_follow hfollow, hx, hreturned, hhead, (htold.2 (by simp)).symm⟩

/-- **A status that is not the one the client got.**  Past the cache the origin fails after its
first chunk, with the head of which the client has got the status `200 OK`; `502 Bad Gateway` is
reported. -/
theorem status_untold :
    ∃ (t : History) (w : World) (x : Exchange) (head : Head) (cause : OriginError),
      Run (World.happen stubbornPast) {} t w ∧ (∀ p ∈ t, Tidy p.2) ∧ w.exchanges[0]? = some x ∧
      (stubbornPast.respond 0 x.request).Truthful ∧
      x.stage = .finished ⟨.badGateway, .skip, some (.upstream cause)⟩ ∧
      x.client.head = some head ∧ head.status = .ok := by
  let turns := refusing [(.front, 7)]
  let r := (follow (World.happen stubbornPast) {} turns).get rfl
  have hfollow : follow (World.happen stubbornPast) {} turns = some r := (Option.some_get _).symm
  have htidy : ∀ p ∈ r.1, Tidy p.2 := fun p hp =>
    tidy_refusing _ _ (map_snd_of_follow hfollow ▸ List.mem_map_of_mem hp)
  let x := (r.2.exchanges[0]?).get rfl
  let head := x.client.head.get rfl
  have htruthful : (stubbornPast.respond 0 x.request).Truthful := by
    intro headers
    simp [stubbornPast, stubborn, Script.Leads]
  exact ⟨r.1, r.2, x, head, _, run_of_follow hfollow, htidy, (Option.some_get _).symm, htruthful,
    rfl, (Option.some_get _).symm, rfl⟩

end World
end EdgeCache
