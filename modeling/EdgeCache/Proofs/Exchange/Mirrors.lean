import EdgeCache.Proofs.Exchange.Decisions
import EdgeCache.Proofs.Exchange.Likeness

/-!
# A world, seen from one key

Whatever happens to a world, those who only know of one key see the requests with that key, what the
tasks of their exchanges do, and what happens to their clients (`World.seen`).  In a world in which
only this happens, the same can happen: it stays a mirror of the world (`World.Mirrors`) as to
everything that has to do with the key.

What is seen is a turn of an exchange of the key, which the mirror can take by
`EdgeCache.World.Alike.turn`, or comes from outside.  What is not seen is a turn of another
exchange: that moves a visit of another key, writes to a body that no entry of the key has, and
takes places in line at the gates.
-/

set_option autoImplicit false

namespace EdgeCache

/-! ## Parts of lists -/

section Lists

variable {α β : Type} {p : α → Bool} {l : List α} {i : Nat} {a b : α}

/-- An element of a part of a list comes after as many as there are before it in the list. -/
theorem getElem?_filter_countP (ha : l[i]? = some a) (hp : p a = true) :
    (l.filter p)[(l.take i).countP p]? = some a := by
  induction l generalizing i with
  | nil => simp at ha
  | cons c l ih =>
    cases i with
    | zero =>
      obtain rfl : c = a := by simpa using ha
      simp [List.filter_cons_of_pos hp]
    | succ i =>
      rw [List.getElem?_cons_succ] at ha
      rw [List.take_succ_cons]
      by_cases hc : p c = true
      · rw [List.filter_cons_of_pos hc, List.countP_cons_of_pos hc, List.getElem?_cons_succ, ih ha]
      · rw [List.filter_cons_of_neg hc, List.countP_cons_of_neg hc, ih ha]

/-- To change an element is to change it in the part. -/
theorem filter_set_of_pos (ha : l[i]? = some a) (hpa : p a = true) (hpb : p b = true) :
    (l.set i b).filter p = (l.filter p).set ((l.take i).countP p) b := by
  induction l generalizing i with
  | nil => simp at ha
  | cons c l ih =>
    cases i with
    | zero =>
      obtain rfl : c = a := by simpa using ha
      rw [List.set_cons_zero, List.filter_cons_of_pos hpb, List.filter_cons_of_pos hpa]
      rfl
    | succ i =>
      rw [List.getElem?_cons_succ] at ha
      rw [List.set_cons_succ, List.take_succ_cons]
      by_cases hc : p c = true
      · rw [List.filter_cons_of_pos hc, List.filter_cons_of_pos hc, List.countP_cons_of_pos hc,
          List.set_cons_succ, ih ha]
      · rw [List.filter_cons_of_neg hc, List.filter_cons_of_neg hc, List.countP_cons_of_neg hc,
          ih ha]

/-- Of an element that does not belong to the part the part does not change. -/
theorem filter_set_of_neg (ha : l[i]? = some a) (hpa : p a = false) (hpb : p b = false) :
    (l.set i b).filter p = l.filter p := by
  induction l generalizing i with
  | nil => simp at ha
  | cons c l ih =>
    cases i with
    | zero =>
      obtain rfl : c = a := by simpa using ha
      rw [List.set_cons_zero, List.filter_cons_of_neg (by simp [hpb]),
        List.filter_cons_of_neg (by simp [hpa])]
    | succ i =>
      rw [List.getElem?_cons_succ] at ha
      rw [List.set_cons_succ]
      by_cases hc : p c = true
      · rw [List.filter_cons_of_pos hc, List.filter_cons_of_pos hc, ih ha]
      · rw [List.filter_cons_of_neg hc, List.filter_cons_of_neg hc, ih ha]

theorem rel_set {r : α → β → Prop} {l' : List β} {b : β} (h : List.Forall₂ r l l') (hab : r a b)
    (i : Nat) : List.Forall₂ r (l.set i a) (l'.set i b) := by
  induction h generalizing i with
  | nil => exact .nil
  | cons hcd h ih =>
    cases i with
    | zero => exact .cons hab h
    | succ i => exact .cons hcd (ih i)

end Lists

namespace World

/-! ## What is seen -/

/-- The exchanges of the key, in the order of their arrival. -/
def ofKey (k : Bytes) (w : World) : List Exchange := w.exchanges.filter fun x => x.key == k

/-- How many exchanges of the key there are before that number. -/
def rank (k : Bytes) (w : World) (i : Nat) : Nat := (w.exchanges.take i).countP fun x => x.key == k

/-- There is an exchange of the key with that number. -/
def hasKey (k : Bytes) (w : World) (i : Nat) : Bool := (w.exchanges[i]?).any fun x => x.key == k

/-- What is seen of a happening by those who only know of the key.  They number the exchanges by
themselves. -/
def seen (k : Bytes) (w : World) : Happening → Option Happening
  | .step i actor => if w.hasKey k i then some (.step (w.rank k i) actor) else none
  | .take i => if w.hasKey k i then some (.take (w.rank k i)) else none
  | .abandon i => if w.hasKey k i then some (.abandon (w.rank k i)) else none
  | .arrive request client access =>
    if request.cacheKey == k then some (.arrive request client access) else none
  | .release gate => some (.release gate)
  | .tick now => some (.tick now)

theorem hasKey_eq_true {k : Bytes} {w : World} {i : Nat} (h : w.hasKey k i = true) :
    ∃ x, w.exchanges[i]? = some x ∧ x.key = k := by
  rw [hasKey, Option.any_eq_true] at h
  obtain ⟨x, hx, hk⟩ := h
  exact ⟨x, hx, by simpa using hk⟩

theorem hasKey_of {k : Bytes} {w : World} {i : Nat} {x : Exchange} (hx : w.exchanges[i]? = some x)
    (hk : x.key = k) : w.hasKey k i = true := by
  rw [hasKey, hx, Option.any_some, hk, beq_self_eq_true]

theorem ne_of_hasKey_eq_false {k : Bytes} {w : World} {i : Nat} {x : Exchange}
    (h : w.hasKey k i = false) (hx : w.exchanges[i]? = some x) : x.key ≠ k := by
  rintro rfl
  simp [hasKey_of hx rfl] at h

/-! ## Mirrors -/

/-- No body that is seen belongs to another exchange. -/
def Apart (k : Bytes) (L : Links) (w : World) : Prop :=
  ∀ (i : Nat) (x : Exchange) (id : Nat) (doing : Copying), w.exchanges[i]? = some x → x.key ≠ k →
    Copies x id doing → id < w.bodies.length ∧ ∀ id', ¬ L.body id id'

/-- The world `w'` is what is seen of `w` by those who only know of the key. -/
structure Mirrors (k : Bytes) (L : Links) (w w' : World) : Prop extends w.Alike k L w' where
  exchanges : List.Forall₂ (Exchange.Alike L) (w.ofKey k) w'.exchanges
  others : w.Apart k L

section Mirrors

variable {front : Front} {k : Bytes} {L : Links} {w w' b : World} {i : Nat} {x x₁ : Exchange}
  {actor : Actor}

/-- The exchange of the mirror. -/
theorem Mirrors.exchange (h : w.Mirrors k L w') (hx : w.exchanges[i]? = some x) (hk : x.key = k) :
    ∃ x', w'.exchanges[w.rank k i]? = some x' ∧ x.Alike L x' := by
  have hmem : (w.ofKey k)[w.rank k i]? = some x := getElem?_filter_countP hx (by simpa using hk)
  exact rel_some (hmem ▸ rel_getElem? h.exchanges (w.rank k i))

theorem ofKey_put (hx : w.exchanges[i]? = some x) (hk : x.key = k) (hk₁ : x₁.key = k) :
    (w.put i x₁).ofKey k = (w.ofKey k).set (w.rank k i) x₁ :=
  filter_set_of_pos hx (by simpa using hk) (by simpa using hk₁)

theorem ofKey_put_of_ne (hx : w.exchanges[i]? = some x) (hk : x.key ≠ k) (hk₁ : x₁.key ≠ k) :
    (w.put i x₁).ofKey k = w.ofKey k :=
  filter_set_of_neg hx (by simpa using hk) (by simpa using hk₁)

theorem Turn.ofKey (ht : Turn front w i x actor x₁ b) (k : Bytes) :
    (b.put i x₁).ofKey k = (w.put i x₁).ofKey k := by
  rw [World.ofKey, World.ofKey, put_exchanges, put_exchanges, ht.exchanges]

theorem key_setClient (x : Exchange) (c : Client) : (x.setClient c).key = x.key := by
  rw [Exchange.setClient]
  split <;> rfl

theorem Apart.setClient (h : w.Apart k L) (hx : w.exchanges[i]? = some x) (c : Client) :
    (w.put i (x.setClient c)).Apart k L := by
  have hcopier : (x.setClient c).copier = x.copier := by
    rw [Exchange.setClient]
    split <;> rfl
  intro j y id doing hy hne hc
  rw [put_exchanges] at hy
  by_cases hij : j = i
  · subst hij
    rw [List.getElem?_set_self (List.getElem?_eq_some_iff.1 hx).1, Option.some.injEq] at hy
    subst hy
    rw [Copies, hcopier] at hc
    exact h j x id doing hx (key_setClient x c ▸ hne) hc
  · rw [List.getElem?_set_ne (Ne.symm hij)] at hy
    exact h j y id doing hy hne hc

theorem Apart.arrive (h : w.Apart k L) (request : Request) (client : Client)
    (access : Option Log.Access) : (w.arrive request client access).Apart k L := by
  intro j y id doing hy hne hc
  rcases (outside_arrive w request client access).exchange j y hy with
    ⟨y', hy', hr⟩ | ⟨_, _, _, -, -, rfl⟩
  · have hcop : Copies y' id doing := by
      simpa only [Copies, hr.copier] using hc
    exact h j y' id doing hy' (hr.key ▸ hne) hcop
  · simp [Copies] at hc

/-! ### What is seen -/

/-- **A turn of an exchange of the key can be taken in the mirror.** -/
theorem Mirrors.turn_own (hf : front.Impartial) (h : w.Mirrors k L w')
    (hx : w.exchanges[i]? = some x) (hk : x.key = k) (ht : Turn front w i x actor x₁ b) :
    ∃ L₁ w₁', w'.step front (w.rank k i) actor = some w₁' ∧ (b.put i x₁).Mirrors k L₁ w₁' := by
  obtain ⟨x', hx', hal⟩ := h.exchange hx hk
  obtain ⟨L₁, x₁', b', hL, ht', hal₁, hb⟩ := h.toAlike.turn hf hk hal ht (w.rank k i)
  obtain ⟨log, hstep⟩ := ht'.happens hx'
  refine ⟨L₁, _, hstep, { hb with exchanges := ?_, others := fun j y id doing hy hne hc => ?_ }⟩
  · have hof : (b.put i x₁).ofKey k = (w.ofKey k).set (w.rank k i) x₁ :=
      (ht.ofKey k).trans (ofKey_put hx hk (ht.key.trans hk))
    have hex : (b'.put (w.rank k i) x₁').exchanges = w'.exchanges.set (w.rank k i) x₁' := by
      rw [put_exchanges, ht'.exchanges]
    rw [hof]
    show List.Forall₂ _ _ (b'.put (w.rank k i) x₁').exchanges
    rw [hex]
    exact rel_set (h.exchanges.imp fun _ _ hal => hal.mono hL.within) hal₁ _
  · rcases ht.exchange_cases hy with ⟨-, rfl⟩ | ⟨-, hy⟩
    · exact absurd (ht.key.trans hk) hne
    · obtain ⟨hlt, hno⟩ := h.others _ _ _ _ hy hne hc
      refine ⟨Nat.lt_of_lt_of_le hlt ht.bodies_length, fun id' hid => ?_⟩
      rcases hL.fresh hid with hid | hge
      · exact hno id' hid
      · omega

/-- The clients of an exchange and of its mirror change in the same way. -/
theorem Mirrors.setClient (h : w.Mirrors k L w') (hx : w.exchanges[i]? = some x) (hk : x.key = k)
    {x' : Exchange} (hal : x.Alike L x') (c : Client) :
    (w.put i (x.setClient c)).Mirrors k L (w'.put (w.rank k i) (x'.setClient c)) := by
  refine { h with exchanges := ?_, others := h.others.setClient hx c }
  rw [ofKey_put hx hk ((key_setClient x c).trans hk), put_exchanges]
  exact rel_set h.exchanges (hal.setClient c) _

/-- A request with the key arrives. -/
theorem Mirrors.arrive (h : w.Mirrors k L w') {request : Request} (client : Client)
    (access : Option Log.Access) (hk : request.cacheKey = k) :
    (w.arrive request client access).Mirrors k L (w'.arrive request client access) := by
  have hkey : ({ request, own := client, access } : Exchange).key = k := hk
  refine { h with exchanges := ?_, others := h.others.arrive request client access }
  rw [ofKey, World.arrive, List.filter_append, List.filter_cons_of_pos (by simpa using hkey)]
  exact List.rel_append h.exchanges
    (.cons ⟨rfl, rfl, .arrived, rfl, rfl, .none, .none, rfl, rfl⟩ .nil)

/-- **What is seen can happen in the mirror.** -/
theorem Mirrors.happen_seen (hf : front.Impartial) (h : w.Mirrors k L w') {a a' : Happening}
    (hs : w.seen k a = some a') {w₁ : World} (ha : w.happen front a = some w₁) :
    ∃ L₁ w₁', w'.happen front a' = some w₁' ∧ w₁.Mirrors k L₁ w₁' := by
  cases a with
  | step i actor =>
    rw [seen, Option.ite_none_right_eq_some, Option.some.injEq] at hs
    obtain ⟨hkey, rfl⟩ := hs
    obtain ⟨x, hx, hk⟩ := hasKey_eq_true hkey
    rcases happen_cases ha with ⟨i, actor, x, x₁, b, hstep, hx, ht, rfl⟩ | hout
    · obtain ⟨rfl, rfl⟩ := Happening.step.inj hstep
      exact h.turn_own hf hx (by simpa [hasKey, hx] using hkey) ht
    · exact absurd rfl (hout.noStep i actor)
  | arrive request client access =>
    rw [seen, Option.ite_none_right_eq_some, Option.some.injEq] at hs
    obtain ⟨hkey, rfl⟩ := hs
    obtain rfl := Option.some.inj ha
    exact ⟨L, _, rfl, h.arrive client access (by simpa using hkey)⟩
  | release gate =>
    obtain rfl := Option.some.inj hs
    obtain rfl := Option.some.inj ha
    exact ⟨L, _, rfl, { h with gates := h.gates.release gate }⟩
  | tick now =>
    obtain rfl := Option.some.inj hs
    rw [happen, Option.ite_none_right_eq_some, Option.some.injEq] at ha
    obtain ⟨hle, rfl⟩ := ha
    refine ⟨L, { w' with clock := now }, ?_, { h with clock := rfl }⟩
    rw [happen, h.clock, if_pos hle]
  | take i =>
    rw [seen, Option.ite_none_right_eq_some, Option.some.injEq] at hs
    obtain ⟨hkey, rfl⟩ := hs
    obtain ⟨x, hx, hk⟩ := hasKey_eq_true hkey
    obtain ⟨x', hx', hal⟩ := h.exchange hx hk
    obtain rfl := Option.some.inj ha
    refine ⟨L, _, rfl, ?_⟩
    simp only [take, hx, hx', hal.client]
    exact h.setClient hx hk hal _
  | abandon i =>
    rw [seen, Option.ite_none_right_eq_some, Option.some.injEq] at hs
    obtain ⟨hkey, rfl⟩ := hs
    obtain ⟨x, hx, hk⟩ := hasKey_eq_true hkey
    obtain ⟨x', hx', hal⟩ := h.exchange hx hk
    obtain rfl := Option.some.inj ha
    refine ⟨L, _, rfl, ?_⟩
    simp only [abandon, hx, hx', hal.client]
    exact h.setClient hx hk hal _

/-! ### What is not seen -/

/-- In a turn there come at most more in line at the gates. -/
theorem Turn.fewer {gs : Gates} (ht : Turn front w i x actor x₁ b) (h : w.gates.Fewer gs) :
    b.gates.Fewer gs := by
  have habsorb : ∀ (c : World) (event : Option Event),
      (c.absorb front event).gates = c.gates := by
    rintro c (_ | _ | _) <;> rfl
  cases ht with
  | forward hs hm =>
    rw [habsorb]
    exact Script.fewer_of_step h hm
  | origin hf hs =>
    rw [habsorb]
    exact Fetch.fewer_of_step h hs
  | _ => exact h

/-- What a turn makes of the visit of its exchange is not seen. -/
theorem StoreTurn.mirrors {s : Store} {s' : Store} (hs : StoreTurn front w x x₁ s)
    (ha : w.Attended) (hx : w.exchanges[i]? = some x) (hk : x.key ≠ k)
    (h : w.store.Mirrors k L s') : s.Mirrors k L s' := by
  have hkey : ∀ {v : Nat} {u : Store.Visit}, x.stage.visit? = some v →
      w.store.visits[v]? = some u → u.key ≠ k := by
    intro v u hv hu
    obtain ⟨y, hy, hykey, -⟩ := ha.own i x v hx hv
    obtain rfl := Option.some.inj (hu.symm.trans hy)
    exact hykey ▸ hk
  cases hs with
  | same | leave => exact h
  | begin => exact h.begin_other hk
  | step hv _ hstep =>
    obtain ⟨u, p, b, hu, ht, hg⟩ := Store.step_cases hstep
    exact h.turn_other hu (hkey hv hu) ht hg
  | finish hv _ hfinish =>
    obtain ⟨u, p, b, hu, ht, hg⟩ := Store.finish_cases hfinish
    exact h.turn_other hu (hkey hv hu) ht hg
  | @lose v hv =>
    obtain ⟨u, hu, -⟩ := ha.own i x v hx hv
    rw [Store.lose, hu]
    exact h.turn_other hu (hkey hv hu) .lose (Store.goes_moveTo rfl v u .lost)

/-- **A turn of another exchange is not seen.** -/
theorem Mirrors.turn_other (ha : w.Attended) (h : w.Mirrors k L w')
    (hx : w.exchanges[i]? = some x) (hk : x.key ≠ k) (ht : Turn front w i x actor x₁ b) :
    (b.put i x₁).Mirrors k L w' := by
  have hbody : ∀ {id id' : Nat}, L.body id id' → b.bodies[id]? = w.bodies[id]? := by
    intro id id' hid
    obtain ⟨g, hg⟩ : ∃ g, w.bodies[id]? = some g :=
      ⟨_, List.getElem?_eq_getElem (h.bodies.lt hid).1⟩
    rw [ht.body_other hg fun doing hc => (h.others _ _ _ _ hx hk hc).2 id' hid, hg]
  constructor
  case toAlike =>
    exact ⟨h.clock.trans ht.clock.symm, ht.fewer h.gates, ht.store.mirrors ha hx hk h.store,
      h.bodies.grow ht.bodies_length (Nat.le_refl _),
      fun hid => (h.body hid).trans (hbody hid).symm⟩
  case exchanges =>
    rw [ht.ofKey, ofKey_put_of_ne hx hk (ht.key ▸ hk)]
    exact h.exchanges
  case others =>
    intro j y id doing hy hne hc
    rcases ht.exchange_cases hy with ⟨rfl, rfl⟩ | ⟨-, hy⟩
    · rcases ht.copies_cases hc with ⟨doing', hc⟩ | ⟨rfl, hlt⟩
      · obtain ⟨hlt, hno⟩ := h.others _ _ _ _ hx hk hc
        exact ⟨Nat.lt_of_lt_of_le hlt ht.bodies_length, hno⟩
      · exact ⟨hlt, fun id' hid => absurd (h.bodies.lt hid).1 (Nat.lt_irrefl _)⟩
    · obtain ⟨hlt, hno⟩ := h.others _ _ _ _ hy hne hc
      exact ⟨Nat.lt_of_lt_of_le hlt ht.bodies_length, hno⟩

/-- Nor is it seen when a client of another exchange takes a chunk or goes away, -/
theorem Mirrors.setClient_other (h : w.Mirrors k L w') (hx : w.exchanges[i]? = some x)
    (hk : x.key ≠ k) (c : Client) : (w.put i (x.setClient c)).Mirrors k L w' := by
  refine { h with exchanges := ?_, others := h.others.setClient hx c }
  rw [ofKey_put_of_ne hx hk (key_setClient x c ▸ hk)]
  exact h.exchanges

/-- or when a request with another key arrives. -/
theorem Mirrors.arrive_other (h : w.Mirrors k L w') {request : Request} (client : Client)
    (access : Option Log.Access) (hk : request.cacheKey ≠ k) :
    (w.arrive request client access).Mirrors k L w' := by
  have hkey : ({ request, own := client, access } : Exchange).key ≠ k := hk
  refine { h with exchanges := ?_, others := h.others.arrive request client access }
  rw [ofKey, World.arrive, List.filter_append, List.filter_cons_of_neg (by simpa using hkey),
    List.filter_nil, List.append_nil]
  exact h.exchanges

/-- **What is not seen leaves the mirror a mirror.** -/
theorem Mirrors.happen_unseen (hatt : w.Attended) (h : w.Mirrors k L w') {a : Happening}
    (hs : w.seen k a = none) {w₁ : World} (ha : w.happen front a = some w₁) :
    w₁.Mirrors k L w' := by
  cases a with
  | step i actor =>
    rw [seen, ite_eq_right_iff] at hs
    have hkey : w.hasKey k i = false := by simpa using hs
    rcases happen_cases ha with ⟨i, actor, x, x₁, b, hstep, hx, ht, rfl⟩ | hout
    · obtain ⟨rfl, rfl⟩ := Happening.step.inj hstep
      exact h.turn_other hatt hx (ne_of_hasKey_eq_false hkey hx) ht
    · exact absurd rfl (hout.noStep i actor)
  | arrive request client access =>
    rw [seen, ite_eq_right_iff] at hs
    obtain rfl := Option.some.inj ha
    exact h.arrive_other client access (by simpa using hs)
  | release gate => simp [seen] at hs
  | tick now => simp [seen] at hs
  | take i =>
    rw [seen, ite_eq_right_iff] at hs
    have hkey : w.hasKey k i = false := by simpa using hs
    obtain rfl := Option.some.inj ha
    cases hx : w.exchanges[i]? with
    | none =>
      simp only [take, hx]
      exact h
    | some x =>
      simp only [take, hx]
      exact h.setClient_other hx (ne_of_hasKey_eq_false hkey hx) _
  | abandon i =>
    rw [seen, ite_eq_right_iff] at hs
    have hkey : w.hasKey k i = false := by simpa using hs
    obtain rfl := Option.some.inj ha
    cases hx : w.exchanges[i]? with
    | none =>
      simp only [abandon, hx]
      exact h
    | some x =>
      simp only [abandon, hx]
      exact h.setClient_other hx (ne_of_hasKey_eq_false hkey hx) _

end Mirrors

/-! ## A run and what is seen of it -/

/-- A blank world is its own mirror. -/
theorem Blank.mirrors {w : World} (h : w.Blank) (k : Bytes) : w.Mirrors k .none w := by
  constructor
  case toAlike =>
    refine ⟨rfl, .refl _, ?_, ?_, False.elim⟩
    · rw [h.store]
      exact Store.mirrors_empty k
    · exact .none _ _
  case exchanges =>
    rw [ofKey, h.exchanges]
    exact .nil
  case others =>
    intro i x id doing hx
    simp [h.exchanges] at hx

theorem Attended.happen {front : Front} {w w' : World} {a : Happening} (ha : w.Attended)
    (h : w.happen front a = some w') : w'.Attended := by
  rcases happen_cases h with ⟨i, actor, x, x', b, rfl, hx, ht, rfl⟩ | hout
  · exact ha.turn hx ht
  · exact ha.outside hout

end World
end EdgeCache
