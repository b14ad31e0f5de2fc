import EdgeCache.Proofs.Exchange.Transparency
import EdgeCache.Proofs.Origin.Heads

/-!
# The heads of responses

Past the cache and on a miss, a client is led by the script of its origin: if the whole script leads
somewhere from where the exchange has started it, then so does, at any time, what is left of it
(`heads_of_run`).  So what holds of all heads that the script may commit holds of the head of the
client.
-/

set_option autoImplicit false

namespace EdgeCache
namespace World

/-- The client of an exchange has been led so far by the script of its origin. -/
structure Led (front : Front) (H : Head → Prop) (P : Handled → Delivery → Prop) (i : Nat)
    (x : Exchange) : Prop where
  past : (Front.forward x.request.isHead (front.respond i x.request)).Leads H P
      ⟨front.mark .skip {}, none, []⟩ →
    x.cache = .skip → ∃ s, x.stage.left? = some s ∧ s.Leads H P (.of x.own []) ∧
      (Delivery.of x.own []).Meets H
  miss : (Fetch.supervise x.request.isHead (front.respond i x.request)).Leads H (fun _ _ => True)
      ⟨front.mark .miss {}, none, []⟩ →
    ∀ f, x.fetch = some f → f.script.Leads H (fun _ _ => True) (.of f.tee.client []) ∧
      (Delivery.of f.tee.client []).Meets H

section Run

variable {front : Front} {t : History} {w w' b : World} {i : Nat} {x x' y : Exchange}
  {actor : Actor} {H : Head → Prop} {P : Handled → Delivery → Prop}

/-- Where nothing is committed, no head is amiss. -/
theorem meets_start (H : Head → Prop) (h : Headers) : (Delivery.mk h none []).Meets H :=
  fun head hhead => by simp at hhead

/-- **A turn leads the client on.** -/
theorem Led.turn (h : Led front H P i x) (hstages : Forwards front t i x) (ho : Orderly front t w)
    (hx : w.exchanges[i]? = some x) (ht : Turn front w i x actor x' b) : Led front H P i x' where
  past hleads hskip := by
    rw [ht.request] at hleads
    rcases ht.past_cases (ho.course i x hx)
        (fun hcache => (hstages hcache).imp fun _ => And.left) hskip with
      ⟨hfresh, -, hown, hleft⟩ | ⟨hcache, s, m, hs, hleft, hm, hown, -⟩ |
      ⟨hcache, -, -, hdelivery, hleft⟩
    · refine ⟨_, hleft, ?_⟩
      rw [hown, hfresh.of_edit]
      exact ⟨hleads, meets_start H _⟩
    · obtain ⟨s', hs', hled, hmeets⟩ := h.past hleads hcache
      obtain rfl : s = s' := Option.some.inj (hs.symm.trans hs')
      rw [hown]
      exact ⟨_, hleft, Client.leads_step hled hmeets hm⟩
    · obtain ⟨s, hs, hled, hmeets⟩ := h.past hleads hcache
      rw [hdelivery]
      rcases hleft with hleft | ⟨message, hdie, hleft⟩
      · exact ⟨s, hleft.trans hs, hled, hmeets⟩
      · exact ⟨_, hleft, trivial, hmeets⟩
  miss hleads f' hf' := by
    rw [ht.request] at hleads
    rcases ht.fetch_cases (ho.course i x hx) hf' with ⟨-, hfresh, -, rfl⟩ |
      ⟨-, f, gates', event, hf, hs⟩ | ⟨f, buffer, consumed, hf, -, rfl⟩
    · have hof := hfresh.of_edit (front.mark .miss)
      simp only [Fetch.start]
      rw [hof]
      exact ⟨hleads, meets_start H _⟩
    · obtain ⟨hled, hmeets⟩ := h.miss hleads f hf
      have hwatched := ho.watched i x f hx hf
      refine Fetch.leads_step hled hmeets (fun hhalf => ?_) hs
      -- nothing is on its way before the head is announced
      cases hann : f.tee.announced with
      | none => simp [(hwatched.quiet hann).1] at hhalf
      | some head =>
        rw [Tee.isCommitted, Client.isCommitted, ← hwatched.announced, hann]
        rfl
    · exact h.miss hleads f hf

theorem Led.relinked (h : Led front H P i x) (hr : Relinked x y) : Led front H P i y where
  past hleads hskip := by
    rw [hr.request] at hleads
    rw [hr.cache] at hskip
    rw [hr.stage, Delivery.of, hr.headers, hr.head]
    exact h.past hleads hskip
  miss hleads f' hf' := by
    rw [hr.request] at hleads
    cases hf : x.fetch with
    | none => simp [hr.fetch_eq_none hf] at hf'
    | some f =>
      obtain ⟨link, hlink⟩ := hr.fetch_eq_some hf
      obtain rfl := Option.some.inj (hlink.symm.trans hf')
      exact h.miss hleads f hf

/-- **In every run clients are led by the scripts of their origins.** -/
theorem led_of_run {w₀ : World} (H : Head → Prop) (P : Handled → Delivery → Prop) (h₀ : w₀.Blank)
    (hrun : Run (World.happen front) w₀ t w) (htidy : ∀ p ∈ t, Tidy p.2) :
    ∀ i x, w.exchanges[i]? = some x → Led front H P i x := by
  refine each_of_run (P := fun _ _ i x => Led front H P i x) h₀ hrun htidy ?_ ?_ ?_ ?_
  · intro t w i x actor x' b hrun htidy ho hx ht hled
    exact hled.turn (delivers_of_run h₀ hrun htidy i x hx).2 ho hx ht
  · exact fun _ _ _ _ _ hled => hled
  · exact fun _ _ _ _ hr hled => hled.relinked hr
  · exact fun _ => ⟨fun _ hskip => by simp at hskip, fun _ f hf => by simp at hf⟩

end Run

end World
end EdgeCache
