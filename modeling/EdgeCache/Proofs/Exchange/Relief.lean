import EdgeCache.Proofs.Exchange.Mirrors
import EdgeCache.Proofs.Exchange.Termination
import EdgeCache.Proofs.Exchange.Progress

/-!
# Help from outside

An exchange may wait for its client to make room, or stand in line at a gate.  Both can be helped
from outside (`Orderly.exists_relief`): the client takes the chunks that wait for it, and the gate
is released as often as there are places up to that of the exchange.  No other exchange is needed
for this; and though a gate may be released for others as well, none of them takes a step.
-/

set_option autoImplicit false

namespace EdgeCache

/-! ## What an exchange still needs -/

/-- The chunks that wait for the connection. -/
def Client.queued (c : Client) : Nat :=
  match c.link with
  | .channel ch => ch.queue.length
  | .tape _ => 0

/-- The place in line where the script waits. -/
def Script.place? {α : Type} : Script α → Option (String × Nat)
  | .await gate (some ticket) _ => some (gate, ticket)
  | _ => none

/-- How often a gate has to be released before it lets the place through. -/
def Gates.gap (gs : Gates) : Option (String × Nat) → Nat
  | some (gate, ticket) => ticket + 1 - (gs.find gate).releases
  | none => 0

/-- The place in line where the exchange waits. -/
def Exchange.place? (x : Exchange) : Option (String × Nat) :=
  match x.fetch with
  | some f => f.script.place?
  | none =>
    match x.stage with
    | .forwarding script => script.place?
    | _ => none

/-- How much help the exchange needs before it does not wait. -/
def Exchange.needs (gs : Gates) (x : Exchange) : Nat := x.client.queued + gs.gap x.place?

section Gates

variable {gs : Gates} {gate : String} {ticket : Nat}

theorem Gates.gap_release_le (gate : String) (place : Option (String × Nat)) :
    (gs.release gate).gap place ≤ gs.gap place := by
  rcases place with _ | ⟨other, n⟩
  · exact Nat.le_refl _
  · simp only [gap, find_release]
    split
    · next heq =>
      subst heq
      simp only
      omega
    · exact Nat.le_refl _

theorem Gates.gap_release_lt (h : gs.lets gate ticket = false) :
    (gs.release gate).gap (some (gate, ticket)) < gs.gap (some (gate, ticket)) := by
  rw [lets, decide_eq_false_iff_not] at h
  simp only [gap, find_release, if_true]
  omega

theorem Script.place_of_isHeld {α : Type} {s : Script α} {full : Bool}
    (h : s.isHeld gs full = true) :
    full = true ∨ ∃ gate ticket, s.place? = some (gate, ticket) ∧ gs.lets gate ticket = false := by
  cases s with
  | write => exact .inl h
  | await gate ticket rest =>
    cases ticket with
    | none => simp [isHeld] at h
    | some ticket => exact .inr ⟨gate, ticket, rfl, by simpa [isHeld] using h⟩
  | _ => simp [isHeld] at h

end Gates

/-- A client without room has chunks to take. -/
theorem Client.queued_pos {c : Client} (h : c.isFull = true) :
    ∃ ch chunk rest, c.link = .channel ch ∧ ch.queue = chunk :: rest := by
  rw [isFull] at h
  cases hl : c.link with
  | tape t => simp [hl] at h
  | channel ch =>
    cases hq : ch.queue with
    | nil =>
      simp only [hl, Channel.hasRoom, hq, List.length_nil, Bool.and_eq_true, Bool.not_eq_true',
        decide_eq_false_iff_not] at h
      omega
    | cons chunk rest => exact ⟨ch, chunk, rest, rfl, hq⟩

namespace World

/-! ## Help -/

/-- A gate is released, or the client of an exchange of the key takes a chunk. -/
def relieves (k : Bytes) (w : World) : Happening → Bool
  | .release _ => true
  | .take i => w.hasKey k i
  | _ => false

theorem isAside_of_relieves {k : Bytes} {w : World} {a : Happening} (h : w.relieves k a = true) :
    a.isAside = true := by
  cases a <;> simp_all [relieves, Happening.isAside]

section Relief

variable {front : Front} {t : History} {k : Bytes} {w : World} {i : Nat} {x : Exchange}

/-- What an exchange that waits does wait for. -/
theorem waits_cases (hc : Course front t w i x) (h : x.waits w.gates = true) :
    x.client.isFull = true ∨
      ∃ gate ticket, x.place? = some (gate, ticket) ∧ w.gates.lets gate ticket = false := by
  rw [Exchange.waits, Bool.or_eq_true] at h
  rcases h with h | h
  · cases hs : x.stage with
    | forwarding script =>
      have hf : x.fetch = none := (hc.forwarding hs).1.2.1
      rw [hs, Stage.isHeld] at h
      simp only [Exchange.client, Exchange.place?, hf, hs]
      exact Script.place_of_isHeld h
    | relaying visit body reader chunk =>
      obtain ⟨e, slot, n, -, hr, -⟩ := hc.relaying hs
      rw [hs, Stage.isHeld] at h
      simp only [Exchange.client, hr.fetch]
      exact .inl h
    | _ => simp [hs, Stage.isHeld] at h
  · cases hf : x.fetch with
    | none => simp [hf] at h
    | some f =>
      simp only [hf, Option.any_some, Fetch.isHeld, Bool.and_eq_true] at h
      simp only [Exchange.client, Exchange.place?, hf]
      refine (Script.place_of_isHeld h.2).imp_left fun hfull => ?_
      exact (Bool.and_eq_true_iff.1 hfull).2

/-- How much help the exchanges need together. -/
def needs (w : World) : Nat := (w.exchanges.map fun x => x.needs w.gates).sum

theorem place?_setClient (x : Exchange) (c : Client) : (x.setClient c).place? = x.place? := by
  rw [Exchange.setClient]
  cases hf : x.fetch with
  | none => simp only [Exchange.place?, hf]
  | some f => simp only [Exchange.place?, hf]

theorem client_setClient (x : Exchange) (c : Client) : (x.setClient c).client = c := by
  rw [Exchange.setClient]
  cases hf : x.fetch with
  | none => simp only [Exchange.client]
  | some f => rfl

/-- A client that has no room can take a chunk, -/
theorem needs_take (hx : w.exchanges[i]? = some x) (hfull : x.client.isFull = true) :
    ∃ w', w.happen front (.take i) = some w' ∧ w'.needs < w.needs := by
  obtain ⟨ch, chunk, rest, hlink, hqueue⟩ := Client.queued_pos hfull
  let c : Client := { x.client with link := .channel { ch with queue := rest } }
  refine ⟨w.put i (x.setClient c), ?_, ?_⟩
  · simp only [happen, take, hx, Reception.next, hlink, hqueue]
    rfl
  · have hless : (x.setClient c).needs w.gates < x.needs w.gates := by
      rw [Exchange.needs, Exchange.needs, place?_setClient, client_setClient]
      refine Nat.add_lt_add_right ?_ _
      simp only [c, Client.queued, hlink, hqueue, List.length_cons]
      exact Nat.lt_succ_self _
    obtain ⟨hperm, hperm'⟩ := exchanges_perm hx
    rw [World.needs, World.needs, put_exchanges]
    show ((w.exchanges.set i (x.setClient c)).map (Exchange.needs w.gates)).sum <
      (w.exchanges.map (Exchange.needs w.gates)).sum
    rw [((hperm' (x.setClient c)).map _).sum_eq, (hperm.map _).sum_eq, List.map_cons, List.map_cons,
      List.sum_cons, List.sum_cons]
    exact Nat.add_lt_add_right hless _

/-- and a gate that keeps an exchange in line can be released. -/
theorem needs_release (hx : w.exchanges[i]? = some x) {gate : String} {ticket : Nat}
    (hplace : x.place? = some (gate, ticket)) (hlets : w.gates.lets gate ticket = false) :
    (w.release gate).needs < w.needs := by
  refine List.sum_lt_sum _ _ (fun y _ => ?_) ⟨x, List.mem_of_getElem? hx, ?_⟩
  · exact Nat.add_le_add_left (Gates.gap_release_le gate _) _
  · rw [Exchange.needs, Exchange.needs, hplace]
    exact Nat.add_lt_add_left (Gates.gap_release_lt hlets) _

/-- **Nobody has to wait for something from outside.** -/
theorem Orderly.exists_relief (ho : Orderly front t w) (k : Bytes) :
    ∃ (u : History) (v : World), Run (World.happen front) w u v ∧
      (∀ p ∈ u, p.1.relieves k p.2 = true) ∧
      ∀ (j : Nat) (y : Exchange), v.exchanges[j]? = some y → y.key = k →
        y.waits v.gates = false := by
  induction hn : w.needs using Nat.strongRecOn generalizing t w with
  | ind n ih =>
    subst hn
    by_cases hwaits : ∃ (j : Nat) (y : Exchange), w.exchanges[j]? = some y ∧ y.key = k ∧
        y.waits w.gates = true
    · obtain ⟨j, y, hy, hk, hwait⟩ := hwaits
      obtain ⟨a, w', ha, hrel, hless⟩ : ∃ a w', w.happen front a = some w' ∧
          w.relieves k a = true ∧ w'.needs < w.needs := by
        rcases waits_cases (ho.course j y hy) hwait with hfull | ⟨gate, ticket, hplace, hlets⟩
        · obtain ⟨w', ha, hless⟩ : ∃ w', w.happen front (.take j) = some w' ∧ w'.needs < w.needs :=
            needs_take hy hfull
          exact ⟨.take j, w', ha, hasKey_of hy hk, hless⟩
        · exact ⟨.release gate, _, rfl, rfl, needs_release hy hplace hlets⟩
      have ho' := ho.happen ha (Happening.tidy_of_isAside (isAside_of_relieves hrel))
      obtain ⟨u, v, hrun, hu, hnone⟩ := ih w'.needs hless ho' rfl
      refine ⟨(w, a) :: u, v, (Run.single ha).trans hrun, fun p hp => ?_, hnone⟩
      rcases List.mem_cons.1 hp with rfl | hp
      · exact hrel
      · exact hu p hp
    · refine ⟨[], w, .start, by simp, fun j y hy hk => ?_⟩
      cases hwait : y.waits w.gates with
      | false => rfl
      | true => exact absurd ⟨j, y, hy, hk, hwait⟩ hwaits

end Relief

end World
end EdgeCache
