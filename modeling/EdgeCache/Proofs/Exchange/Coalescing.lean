import EdgeCache.Proofs.Exchange.Bursts
import EdgeCache.Proofs.Exchange.Progress
import EdgeCache.Proofs.Exchange.Termination

/-!
# Requests that come together are answered with one response

`coalescing` follows a burst from the first request to the last.  When all its exchanges are over,
the one that has asked is a miss, and the others have replayed what it has stored.
-/

set_option autoImplicit false

namespace EdgeCache
namespace World

/-! ## From the first request to the last -/

section Run

variable {front : Front} {key : Bytes} {headers : Headers} {start w : World} {burst t t₀ : History}

theorem Rested.gathered (h : Rested front t₀ start) : Gathered front key headers start start where
  before i x _ hx := h.isOver i x hx
  joins i x hi hx := by
    rw [List.getElem?_eq_none hi] at hx
    exact absurd hx (by simp)
  promises i x hi hx := by
    rw [List.getElem?_eq_none hi] at hx
    exact absurd hx (by simp)

/-- Before the first request nobody has asked. -/
theorem Rested.waiting (h : Rested front t₀ start) (hempty : start.store.variantsOf key = []) :
    Waiting front key headers start burst t₀ start where
  finding := ⟨Store.found_of_isOver hempty fun v u hu _ => h.visits hu, by simp⟩
  picked := h.picked
  calls := rfl
  sinks := rfl
  others i x hi _ hx := by
    rw [List.getElem?_eq_none hi] at hx
    exact absurd hx (by simp)

/-- **Every world of a burst is in one of its three times.** -/
theorem Burst.flight (hb : Burst front key headers start burst) (hstart : Rested front t₀ start)
    (hempty : start.store.variantsOf key = [])
    (hfaults : ∀ sink, front.faults.opening sink = none)
    (hrun : Run (World.happen front) start t w) (hsub : ∀ p ∈ t, p ∈ burst) :
    Orderly front (t₀ ++ t) w ∧ Gathered front key headers start w ∧
      Flight front key headers start burst (t₀ ++ t) w := by
  induction hrun with
  | start =>
    rw [List.append_nil]
    exact ⟨hstart.orderly, hstart.gathered, .waiting (hstart.waiting hempty)⟩
  | @next t s₁ s₂ a hrun ha ih =>
    obtain ⟨ho, hg, hf⟩ := ih fun p hp => hsub p (List.mem_append_left _ hp)
    have hmem : (s₁, a) ∈ burst := hsub _ (List.mem_append_right _ (List.mem_singleton_self _))
    rw [← List.append_assoc]
    exact ⟨ho.happen ha (hb.tidy _ hmem),
      hg.happen ho ha (length_le_of_run hrun).1 (hb.joins _ hmem),
      hf.happen hg ho ha hb hmem hfaults⟩

/-- The exchanges of a burst are over, and have been answered with one response: the exchange `j`
has asked the origin for it, which has sent this head, and all others are hits. -/
structure Coalesced (front : Front) (start : World) (t : History) (w : World) (j : Nat)
    (head : Head) :
    Prop where
  calls : w.calls = start.calls + 1
  sinks : w.sinks = start.sinks + 1
  first : start.exchanges.length ≤ j
  lt : j < w.exchanges.length
  outcome : ∀ (i : Nat) (x : Exchange), start.exchanges.length ≤ i → w.exchanges[i]? = some x →
    ∃ outcome, x.stage = .finished outcome ∧ outcome.cache = (if i = j then .miss else .hit) ∧
      outcome.status = head.status
  shown : ∀ (i : Nat) (x : Exchange), start.exchanges.length ≤ i → w.exchanges[i]? = some x →
    ∃ shown, x.client.head = some shown ∧ shown.status = head.status ∧
      ∀ name, front.indicator ≠ some name → shown.headers.values name = head.headers.values name
  chunks : ∀ (i : Nat) (x : Exchange), start.exchanges.length ≤ i → w.exchanges[i]? = some x →
    (∀ p ∈ t.writes i, p.2 = none) → t.received i = t.passed j

/-- **When all exchanges are over that have been served with one response.** -/
theorem Serving.coalesced {j : Nat} {head : Head} {held : Held}
    (hs : Serving front key headers start burst j head held (t₀ ++ t) w)
    (hstart : Rested front t₀ start) (ho : Orderly front (t₀ ++ t) w)
    (hg : Gathered front key headers start w)
    (hfaults : ∀ sink n, front.faults.writing sink n = none)
    (hover : ∀ (i : Nat) (x : Exchange), w.exchanges[i]? = some x → x.isOver = true) :
    Coalesced front start t w j head := by
  obtain ⟨y, id, hy, hfeeds, hcache, hstatus, hbody⟩ := hs.feeds
  obtain ⟨f, hf, hann⟩ := hfeeds.fetch
  have hwatched := ho.watched j y f hy hf
  obtain ⟨hyend, hyorigin⟩ := isOver_cases (hover j y hy)
  -- the one that has asked
  obtain ⟨outcome, hfinished⟩ : ∃ outcome, y.stage = .finished outcome := by
    refine hyend.resolve_right fun hdead => ?_
    have hc := ho.course j y hy
    rw [Exchange.isDead] at hdead
    split at hdead
    · next hstage =>
      simp only [Course, hstage] at hc
      simp [hc.1] at hf
    · simp at hdead
  obtain ⟨-, hocache, hostatus⟩ := (ho.course j y hy).finished hfinished
  -- the others
  have hothers : ∀ (i : Nat) (x : Exchange), start.exchanges.length ≤ i → i ≠ j →
      w.exchanges[i]? = some x →
      ∃ outcome, x.stage = .finished outcome ∧ outcome.cache = .hit ∧
        outcome.status = head.status ∧ Replays front (t₀ ++ t) i x held.entry ∧
        Replayed (t₀ ++ t) w i held.entry := by
    intro i x hi hij hx
    obtain ⟨hu, hdead⟩ := hs.others i x hi (by simp [hij]) hx
    obtain ⟨o, hstage⟩ := (isOver_cases (hover i x hx)).1.resolve_right hdead
    obtain ⟨held', ⟨p, hp, hpick⟩, hoc, hos, hr, hd⟩ := hu.replays ho hx hstage
    rw [(hg.joins i x hi hx).key] at hpick
    obtain rfl := Option.some.inj (hs.picked p hp i held' hi hpick)
    exact ⟨o, hstage, hoc, by rw [hos, hs.kept]; rfl, hr, hd⟩
  refine ⟨hs.calls, hs.sinks, hs.first, (List.getElem?_eq_some_iff.1 hy).1, fun i x hi hx => ?_,
    fun i x hi hx => ?_, fun i x hi hx htaken => ?_⟩ <;> by_cases hij : i = j
  · subst hij
    obtain rfl : y = x := Option.some.inj (hy.symm.trans hx)
    exact ⟨outcome, hfinished, by rw [if_pos rfl, hocache, hcache],
      (hostatus (by simp [hcache])).trans hstatus⟩
  · obtain ⟨o, hstage, hoc, hos, -⟩ := hothers i x hi hij hx
    exact ⟨o, hstage, by rw [if_neg hij, hoc], hos⟩
  · subst hij
    obtain rfl : y = x := Option.some.inj (hy.symm.trans hx)
    refine ⟨head, ?_, rfl, fun _ _ => rfl⟩
    rw [Exchange.client, hf]
    exact hwatched.announced.symm.trans hann
  · obtain ⟨-, -, -, -, hr, -⟩ := hothers i x hi hij hx
    exact hr.shown hs.kept
  · subst hij
    have hhalf := Fetch.halfway_eq_none hwatched.half (hwatched.silent (hyorigin f hf))
    have hchunks := hwatched.chunks
    obtain ⟨hwrites, hpassed⟩ := hstart.record t hi
    rw [Fetch.underway_eq_nil hhalf, List.append_nil, hwrites, hpassed] at hchunks
    rw [History.received_eq htaken, hchunks]
  · obtain ⟨-, -, -, -, -, hd⟩ := hothers i x hi hij hx
    obtain ⟨hwrites, -⟩ := hstart.record t hi
    have h := ho.received_of_replayed hy hfeeds hd hbody hfaults (hwrites ▸ htaken)
    rwa [(hstart.record t hs.first).2, History.received, hwrites] at h

/-- **Requests that come together are answered with one response.**  Any number of requests for the
same, all with the same headers, come to a store in memory that holds nothing for them; the policy
judges every response cacheable, with an expiration later than any time of the run, and no origin
dies before it has a head.  Then in every world of every such run

* the origin has been asked at most once, and at most one sink has been opened;
* all exchanges are over, or a task can take a step, or one waits for something from outside; and no
  run of steps goes on for ever;
* and when all exchanges are over, they have been answered with one response (`Coalesced`).

The one way out is a clock that shows a time so late that the calendar does not reach to the end of
the lifetime every new entry has at first: then all tasks have died without asking. -/
theorem coalescing (hstart : Rested front t₀ start) (hempty : start.store.variantsOf key = [])
    (hfaults : front.faults = {}) (hrun : Run (World.happen front) start t w)
    (hburst : Burst front key headers start t) :
    w.calls ≤ start.calls + 1 ∧ w.sinks ≤ start.sinks + 1 ∧
    ((∀ (i : Nat) (x : Exchange), w.exchanges[i]? = some x → x.isOver = true) ∨
      (∃ (i : Nat) (actor : Actor) (w' : World), w.step front i actor = some w') ∨
      ∃ (i : Nat) (x : Exchange), w.exchanges[i]? = some x ∧ x.waits w.gates = true) ∧
    Acc (fun w' w => Steps front w w') w ∧
    ((∀ (i : Nat) (x : Exchange), w.exchanges[i]? = some x → x.isOver = true) →
      start.exchanges.length < w.exchanges.length →
      (∃ j head, Coalesced front start t w j head) ∨
      (Late front w ∧ w.calls = start.calls ∧ ∀ (i : Nat) (x : Exchange),
        start.exchanges.length ≤ i → w.exchanges[i]? = some x → x.isDead = true)) := by
  obtain ⟨ho, hg, hf⟩ := hburst.flight hstart hempty (by simp [hfaults]) hrun fun _ hp => hp
  refine ⟨?_, ?_, ho.progress, ho.terminates, fun hover hsome => ?_⟩
  · cases hf with
    | waiting h => exact Nat.le_succ_of_le (Nat.le_of_eq h.calls)
    | fetching h => exact Nat.le_of_eq h.calls
    | serving h => exact Nat.le_of_eq h.calls
  · cases hf with
    | waiting h => exact Nat.le_succ_of_le (Nat.le_of_eq h.sinks)
    | fetching h => exact Nat.le_succ_of_le (Nat.le_of_eq h.sinks)
    | serving h => exact Nat.le_of_eq h.sinks
  · cases hf with
    | waiting h =>
      have hdead : ∀ (i : Nat) (x : Exchange), start.exchanges.length ≤ i →
          w.exchanges[i]? = some x → x.isDead = true := by
        intro i x hi hx
        obtain ⟨hu, -⟩ := h.others i x hi (by simp) hx
        rcases (isOver_cases (hover i x hx)).1 with ⟨o, hstage⟩ | hdead
        · -- nobody has anything to end with
          obtain ⟨held, ⟨p, hp, hpick⟩, -⟩ := hu.replays ho hx hstage
          rw [(hg.joins i x hi hx).key] at hpick
          exact absurd (h.picked p hp i held hi hpick) (by simp)
        · exact hdead
      have hx := List.getElem?_eq_getElem hsome
      refine .inr ⟨?_, h.calls, hdead⟩
      exact (h.others _ _ (Nat.le_refl _) (by simp) hx).2 (hdead _ _ (Nat.le_refl _) hx)
    | fetching h =>
      obtain ⟨y, visit, draft, hy, hstage⟩ := h.awaits
      have hover' := hover _ y hy
      simp [Exchange.isOver, Exchange.outcome?, Exchange.isDead, hstage] at hover'
    | serving h => exact .inl ⟨_, _, h.coalesced hstart ho hg (by simp [hfaults]) hover⟩

end Run

/-- Three requests for one resource, the last of which arrives when the head of the response is
known.  The second finds the key's slot taken, and the third the entry; both read a body that
grows. -/
def threeRequests : List Happening :=
  let arrive := Happening.arrive { method := .get, uri := .asterisk } { link := .tape {} } none
  let steps (i : Nat) (actor : Actor) (n : Nat) := List.replicate n (Happening.step i actor)
  [arrive, arrive] ++ steps 0 .front 10 ++ steps 1 .front 5 ++ [.tick ⟨3, 0⟩] ++
    steps 0 .origin 1 ++ [arrive] ++ steps 0 .front 5 ++ steps 1 .front 4 ++ steps 2 .front 9 ++
    steps 0 .origin 4 ++ steps 0 .copier 4 ++ [.tick ⟨9, 0⟩] ++ steps 1 .front 11 ++
    steps 2 .front 11 ++ steps 0 .front 3

/-- They are answered with one response, and the third client has received the chunk that was passed
on for the first. -/
theorem coalescing_threeRequests :
    ∃ (t : History) (w : World) (j : Nat) (head : Head), Run (World.happen oneChunk) {} t w ∧
      w.exchanges.length = 3 ∧ Coalesced oneChunk {} t w j head ∧ t.received 2 = t.passed j ∧
      t.received 2 = [[1]] := by
  let r := (follow (World.happen oneChunk) {} threeRequests).get rfl
  have hfollow : follow (World.happen oneChunk) {} threeRequests = some r :=
      (Option.some_get _).symm
  have harrive : ∀ p ∈ r.1, ∀ request client access, p.2 = .arrive request client access →
      request = { method := .get, uri := .asterisk } ∧ client = { link := .tape {} } := by
    intro p hp request client access ha
    have hmem : p.2 ∈ threeRequests := map_snd_of_follow hfollow ▸ List.mem_map_of_mem hp
    simp only [ha, threeRequests] at hmem
    simp at hmem
    exact ⟨hmem.1, hmem.2.1⟩
  have hclocks : (r.1.all fun p => !(Instant.le ⟨10, 0⟩ p.1.clock)) = true := rfl
  have hover : (r.2.exchanges.all Exchange.isOver) = true := rfl
  have hstart : Rested oneChunk [] {} := ⟨⟨{}, ⟨rfl, rfl, rfl⟩, .start⟩, by simp, by simp⟩
  have hburst :
      Burst oneChunk (Request.cacheKey { method := .get, uri := .asterisk }) {} {} r.1 := by
    refine ⟨fun p hp request client access ha => ?_, fun p hp request client access ha => ?_,
      fun p hp i x f head _ _ _ _ => ⟨⟨true, ⟨10, 0⟩⟩, rfl, rfl, ?_⟩⟩
    · obtain ⟨-, rfl⟩ := harrive p hp request client access ha
      exact ⟨rfl, rfl⟩
    · obtain ⟨rfl, -⟩ := harrive p hp request client access ha
      exact ⟨rfl, rfl, rfl, .commit⟩
    · rintro now ⟨q, hq, rfl⟩
      simpa using List.all_eq_true.1 hclocks q hq
  have hend := (coalescing hstart rfl rfl (run_of_follow hfollow) hburst).2.2.2.2
    (fun i x hx => List.all_eq_true.1 hover x (List.mem_of_getElem? hx)) (by decide)
  rcases hend with ⟨j, head, hc⟩ | ⟨hlate, -⟩
  · have hwrites : History.writes r.1 2 = [([1], none)] := rfl
    refine ⟨r.1, r.2, j, head, run_of_follow hfollow, rfl, hc, ?_, rfl⟩
    exact hc.chunks 2 _ (by decide) rfl (by rw [hwrites]; simp)
  · exact absurd hlate (by rw [Late]; decide)

end World
end EdgeCache
