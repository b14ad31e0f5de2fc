import EdgeCache.Proofs.Runs
import EdgeCache.Proofs.Serving.Admission
import EdgeCache.Serving.Service

/-!
# The limit on connections

A service as a system: connections arrive and take the steps of their way in, each whenever it
likes; those inside go on, run into their time limit, or are given up by the other side; and
meanwhile the exchanges do what they will.  However all this is interleaved, the connections that
are open are those inside the lobby, so they are never more than the limit (`limit_kept`).

Of what goes on on a connection only the end matters here.  A connection is seen as its `badge`: the
place it has among those counted, and whether it is closed.
-/

set_option autoImplicit false

namespace EdgeCache.Serving

namespace Connection

/-- The connection has been let in and has not ended. -/
def isLive (c : Connection) : Bool := c.place.isSome && !c.closed

/-- What the count of connections knows of a connection: its place, and whether it is closed. -/
def badge (c : Connection) : Option Nat × Bool := (c.place, c.closed)

end Connection

namespace Service

/-- The number of connections that have been let in and have not ended. -/
def live (s : Service) : Nat := s.connections.countP Connection.isLive

/-- What can happen to a service. -/
inductive Event where
  | arrive
  /-- A connection takes a step on its way in. -/
  | enter (i : Nat) (peer : Net.Address)
  /-- A connection goes on with what has come in, or with its response. -/
  | proceed (k : Nat)
  /-- A connection runs into its time limit. -/
  | expire (k : Nat)
  /-- The other side of a connection sends nothing more. -/
  | hangUp (k : Nat)
  | bring (k : Nat) (data : Bytes)
  | collect (k : Nat)
  | tick (seconds : Nat)
  /-- The exchanges go on, in whatever way. -/
  | exchange (world : World)

/-- What becomes of a service; `none` if it cannot happen. -/
def next (t : Terms) (s : Service) : Event → Option Service
  | .arrive => some { s with lobby := s.lobby.arrive }
  | .enter i peer => s.enter t i peer
  | .proceed k => step t s k
  | .expire k => expire t s k
  | .hangUp k => some (hangUp t s k)
  | .bring k data => some (s.bring k data)
  | .collect k => some (s.collect k).2
  | .tick seconds => some (s.tick seconds)
  | .exchange world => some { s with world }

/-! ## What an event comes to -/

def badges (s : Service) : List (Option Nat × Bool) := s.connections.map Connection.badge

theorem badges_put (s : Service) (k : Nat) (c : Connection) :
    (s.put k c).badges = s.badges.set k c.badge := List.map_set

/-- What becomes of a service when its `k`-th connection, with the given badge, goes on. -/
inductive Touch (s : Service) (k : Nat) (b : Option Nat × Bool) (s' : Service) : Prop
  | stays (hlobby : s'.lobby = s.lobby) (hbadges : s'.badges = s.badges.set k b)
  | ends (hlobby : s'.lobby = (b.1.bind s.lobby.leave).getD s.lobby)
      (hbadges : s'.badges = s.badges.set k (b.1, true))

section Touch

variable {t : Terms} {s s' : Service} {k : Nat} {b : Option Nat × Bool}

theorem Touch.note (h : Touch s k b s') (lines : List Log.Line) :
    Touch s k b (s'.note t lines) := by
  cases h with
  | stays hlobby hbadges => exact .stays hlobby hbadges
  | ends hlobby hbadges => exact .ends hlobby hbadges

theorem Touch.of_world {world : World} (h : Touch { s with world } k b s') : Touch s k b s' := by
  cases h with
  | stays hlobby hbadges => exact .stays hlobby hbadges
  | ends hlobby hbadges => exact .ends hlobby hbadges

theorem touch_put (s : Service) (k : Nat) (c : Connection) : Touch s k c.badge (s.put k c) :=
  .stays rfl (badges_put s k c)

theorem touch_close (s : Service) (k : Nat) (c : Connection) : Touch s k c.badge (s.close k c) :=
  .ends rfl (badges_put _ k c.close)

theorem touch_fail (s : Service) (t : Terms) (k : Nat) (c : Connection) (cause : Breakdown) :
    Touch s k c.badge (s.fail t k c cause) :=
  (touch_close s k c).note _

theorem touch_conclude (s : Service) (k : Nat) (c : Connection) (last : Bool) :
    Touch s k c.badge (s.conclude k c last) := by
  rw [conclude]
  split
  · exact touch_close s k c.flush
  · exact touch_put s k (c.conclude false)

theorem touch_begin (s : Service) (t : Terms) (k : Nat) (c : Connection) (head : Wire.RequestHead)
    (body : Bytes) (whole : Bool) (rest : Bytes) :
    Touch s k c.badge (s.begin t k c head body whole rest) :=
  .stays rfl (badges_put ..)

theorem touch_listen {c : Connection} (h : s.listen t k c = some s') : Touch s k c.badge s' := by
  rw [listen] at h
  split at h
  · exact absurd h (by simp)
  · exact Option.some.inj h ▸ touch_close s k c
  · split at h
    · exact Option.some.inj h ▸ touch_fail ..
    · exact Option.some.inj h ▸ touch_begin ..
  · exact Option.some.inj h ▸ touch_fail s t k (c.gather _).flush _
  · exact Option.some.inj h ▸ touch_fail ..

theorem touch_pour (t : Terms) (k : Nat) : ∀ (fuel : Nat) (s : Service) (c : Connection)
    (turn : Turn), Touch s k c.badge (pour t k fuel s c turn)
  | 0, s, c, _ => touch_put s k c.flush
  | fuel + 1, s, c, turn => by
    obtain ⟨c₁, hc₁, hbadge⟩ : ∃ c₁ : Connection,
        c₁ = { (if c.isFull then c.flush else c) with turn := some turn } ∧ c₁.badge = c.badge := by
      refine ⟨_, rfl, ?_⟩
      split <;> rfl
    rw [← hbadge, pour]
    simp only [← hc₁]
    split
    · exact (touch_conclude _ k c₁ turn.last).of_world
    · split
      · split
        · exact (touch_pour t k fuel _ c₁ _).of_world
        · exact (touch_pour t k fuel _ (c₁.gather _) _).of_world
      · split
        · exact touch_fail s t k c₁ _
        · exact touch_conclude s k (c₁.gather _) _
      · exact touch_put s k c₁.flush
      · exact touch_put s k c₁.flush

theorem touch_answer {c : Connection} {turn : Turn} (h : s.answer t k c turn = some s') :
    Touch s k c.badge s' := by
  rw [answer] at h
  split at h
  · exact absurd h (by simp)
  · split at h
    · split at h
      · exact absurd h (by simp)
      · split at h
        · exact Option.some.inj h ▸ touch_fail s t k (c.gather _).flush _
        · exact Option.some.inj h ▸ touch_pour t k _ s { c with gathered := [_] } _
    · split at h
      · exact Option.some.inj h ▸ touch_pour ..
      · exact absurd h (by simp)

end Touch

/-- What an event comes to, as far as the count of connections is concerned. -/
inductive Change (s s' : Service) : Prop
  | calm (hlobby : s'.lobby = s.lobby) (hbadges : s'.badges = s.badges)
  | arrives (hlobby : s'.lobby = s.lobby.arrive) (hbadges : s'.badges = s.badges)
  | counted {i : Nat} (hi : s.lobby.visitors[i]? = some .arriving)
      (hlobby : s'.lobby = s.lobby.moved i (.counted s.lobby.count) (s.lobby.count + 1))
      (hbadges : s'.badges = s.badges)
  | letIn {i : Nat} {before : Int} (hi : s.lobby.visitors[i]? = some (.counted before))
      (hroom : s.lobby.admits before = true)
      (hlobby : s'.lobby = s.lobby.moved i .inside s.lobby.count)
      (hbadges : s'.badges = s.badges ++ [(some i, false)])
  | turnedAway {i : Nat} {before : Int} (hi : s.lobby.visitors[i]? = some (.counted before))
      (hfull : s.lobby.admits before = false)
      (hlobby : s'.lobby = s.lobby.moved i (.refused before) (s.lobby.count - 1))
      (hbadges : s'.badges = s.badges ++ [(none, true)])
  | ends {k : Nat} {place : Option Nat} (hk : s.badges[k]? = some (place, false))
      (hlobby : s'.lobby = (place.bind s.lobby.leave).getD s.lobby)
      (hbadges : s'.badges = s.badges.set k (place, true))

section Change

variable {t : Terms} {s s' : Service} {k : Nat} {c : Connection}

theorem getElem?_badges (hc : s.connections[k]? = some c) : s.badges[k]? = some c.badge := by
  rw [badges, List.getElem?_map, hc, Option.map_some]

theorem set_badges (hc : s.connections[k]? = some c) : s.badges.set k c.badge = s.badges := by
  have hk := List.getElem?_eq_some_iff.1 (getElem?_badges hc)
  rw [← hk.2, List.set_getElem_self]

theorem Touch.change (h : Touch s k c.badge s') (hc : s.connections[k]? = some c)
    (hopen : c.closed = false) : Change s s' := by
  have hk := getElem?_badges hc
  rw [Connection.badge, hopen] at hk
  cases h with
  | stays hlobby hbadges => exact .calm hlobby (hbadges.trans (set_badges hc))
  | ends hlobby hbadges => exact .ends hk hlobby hbadges

theorem change_enter {i : Nat} {peer : Net.Address} (h : s.enter t i peer = some s') :
    Change s s' := by
  obtain ⟨lobby, hstep, rfl⟩ := Option.map_eq_some_iff.1 h
  have hpassage : Lobby.Passage s.lobby (.step i) lobby := Lobby.passage_of_next hstep
  -- Where the connection stands now decides what is made of it.
  cases hpassage with
  | counted hi =>
    simp only [Lobby.getElem?_moved_self _ _ hi]
    exact .counted hi rfl rfl
  | letIn hi hroom =>
    simp only [Lobby.getElem?_moved_self _ _ hi]
    exact .letIn hi hroom rfl (by simp [badges, note, Connection.badge])
  | turnedAway hi hfull =>
    simp only [Lobby.getElem?_moved_self _ _ hi]
    exact .turnedAway hi hfull rfl (by simp [badges, note, Connection.badge])

theorem change_of_next {e : Event} (h : s.next t e = some s') : Change s s' := by
  cases e with
  | arrive => exact Option.some.inj h ▸ .arrives rfl rfl
  | enter i peer => exact change_enter h
  | proceed k =>
    rw [next, step] at h
    split at h
    · exact absurd h (by simp)
    · next c hc =>
      split at h
      · exact absurd h (by simp)
      · next hopen =>
        have hopen := Bool.eq_false_iff.2 hopen
        split at h
        · exact (touch_listen h).change hc hopen
        · exact (touch_answer h).change hc hopen
  | expire k =>
    rw [next, expire] at h
    split at h
    · exact absurd h (by simp)
    · next c hc =>
      obtain ⟨hcond, h⟩ := Option.ite_none_right_eq_some.1 h
      rw [Bool.and_eq_true, Bool.not_eq_true'] at hcond
      obtain rfl := Option.some.inj h
      exact ((touch_close s k c).note _).change hc hcond.1
  | hangUp k =>
    obtain rfl := Option.some.inj h
    rw [hangUp]
    split
    · exact .calm rfl rfl
    · next c hc =>
      split
      · exact .calm rfl rfl
      · next hopen =>
        rw [Bool.or_eq_true, not_or, Bool.not_eq_true] at hopen
        split
        · exact (touch_fail s t k c _).change hc hopen.1
        · exact Touch.change (c := c) (touch_put s k { c with ended := true }) hc hopen.1
  | bring k data =>
    obtain rfl := Option.some.inj h
    refine .calm rfl ?_
    refine List.ext_getElem? fun j => ?_
    rw [badges, bring, List.getElem?_map, List.getElem?_modify, badges, List.getElem?_map]
    cases s.connections[j]? <;> split_ifs <;> rfl
  | collect k =>
    obtain rfl := Option.some.inj h
    rw [collect]
    split
    · exact .calm rfl rfl
    · next c hc =>
      exact .calm rfl ((badges_put s k { c with sent := [] }).trans (set_badges (c := c) hc))
  | tick seconds => exact Option.some.inj h ▸ .calm rfl rfl
  | exchange world => exact Option.some.inj h ▸ .calm rfl rfl

/-- The lobby of a service stays as it is or goes through a passage of its own. -/
theorem Change.lobby (hc : Change s s') :
    s'.lobby = s.lobby ∨ ∃ turn, Lobby.Passage s.lobby turn s'.lobby := by
  cases hc with
  | calm hlobby => exact .inl hlobby
  | arrives hlobby => exact .inr ⟨.arrive, by rw [hlobby]; exact .arrives⟩
  | counted hi hlobby => exact .inr ⟨.step _, by rw [hlobby]; exact .counted hi⟩
  | letIn hi hroom hlobby => exact .inr ⟨.step _, by rw [hlobby]; exact .letIn hi hroom⟩
  | turnedAway hi hfull hlobby => exact .inr ⟨.step _, by rw [hlobby]; exact .turnedAway hi hfull⟩
  | @ends k place hk hlobby =>
    cases h : place.bind s.lobby.leave with
    | none => exact .inl (by rw [hlobby, h, Option.getD_none])
    | some l =>
      obtain ⟨i, -, hleave⟩ := Option.bind_eq_some_iff.1 h
      rw [h, Option.getD_some] at hlobby
      exact .inr ⟨.leave i, hlobby ▸ Lobby.passage_of_next hleave⟩

end Change

/-! ## Those inside are those whose connection is open -/

/-- The badge is that of a connection that has been let in and has not ended. -/
def isLiveBadge (b : Option Nat × Bool) : Bool := b.1.isSome && !b.2

theorem live_eq_countP (s : Service) : s.live = s.badges.countP isLiveBadge := by
  rw [badges, List.countP_map]
  rfl

/-- The connections with these badges and the lobby agree on who is inside. -/
structure Tally (l : Lobby) (bs : List (Option Nat × Bool)) : Prop where
  sound : l.Sound
  live_eq : bs.countP isLiveBadge = l.inside
  inside : ∀ {k i : Nat}, bs[k]? = some (some i, false) → l.visitors[i]? = some .inside
  /-- No two open connections have the same place. -/
  apart : ∀ {k k' i : Nat}, bs[k]? = some (some i, false) → bs[k']? = some (some i, false) → k = k'

namespace Tally

variable {l l' : Lobby} {turn : Lobby.Turn} {bs : List (Option Nat × Bool)} {i : Nat}

/-- Nobody comes in or leaves. -/
theorem stays (h : Tally l bs) (hp : Lobby.Passage l turn l') (hinside : l'.inside = l.inside)
    (hkept : ∀ {j : Nat}, l.visitors[j]? = some Standing.inside →
      l'.visitors[j]? = some Standing.inside) : Tally l' bs :=
  ⟨h.sound.passage hp, h.live_eq.trans hinside.symm, fun hk => hkept (h.inside hk), h.apart⟩

/-- Those inside stay there when somebody else comes to stand elsewhere. -/
theorem inside_of_moved {v v' : Standing} {count : Int} (hi : l.visitors[i]? = some v)
    (hv : v ≠ .inside) {j : Nat} (hj : l.visitors[j]? = some .inside) :
    (l.moved i v' count).visitors[j]? = some .inside := by
  have hij : i ≠ j := by
    rintro rfl
    exact hv (Option.some.inj (hi.symm.trans hj))
  exact (Lobby.getElem?_moved_ne _ _ hij).trans hj

theorem arrives (h : Tally l bs) : Tally l.arrive bs :=
  h.stays .arrives Lobby.inside_arrive Lobby.getElem?_arrive

theorem counted (h : Tally l bs) (hi : l.visitors[i]? = some .arriving) :
    Tally (l.moved i (.counted l.count) (l.count + 1)) bs :=
  h.stays (.counted hi) (Lobby.inside_moved (.counted _) _ hi)
    (inside_of_moved hi Standing.noConfusion)

theorem badge_cases {b b' : Option Nat × Bool} {k : Nat} (h : (bs ++ [b])[k]? = some b') :
    bs[k]? = some b' ∨ k = bs.length ∧ b = b' := by
  rw [List.getElem?_append] at h
  split at h
  · exact .inl h
  · obtain ⟨hk, hb⟩ := Option.ite_none_right_eq_some.1 (List.getElem?_singleton ▸ h)
    exact .inr ⟨by omega, Option.some.inj hb⟩

/-- A connection that is turned away is closed from the beginning. -/
theorem closed (h : Tally l bs) : Tally l (bs ++ [(none, true)]) := by
  have hold {k i : Nat} (hk : (bs ++ [(none, true)])[k]? = some (some i, false)) :
      bs[k]? = some (some i, false) :=
    (badge_cases hk).resolve_right fun hb => absurd hb.2 (by simp)
  refine ⟨h.sound, ?_, fun hk => h.inside (hold hk), fun hk hk' => h.apart (hold hk) (hold hk')⟩
  rw [List.countP_append, h.live_eq]
  rfl

theorem turnedAway (h : Tally l bs) {before : Int} (hi : l.visitors[i]? = some (.counted before))
    (hfull : l.admits before = false) :
    Tally (l.moved i (.refused before) (l.count - 1)) (bs ++ [(none, true)]) :=
  (h.stays (.turnedAway hi hfull) (Lobby.inside_moved (.refused _) _ hi)
    (inside_of_moved hi Standing.noConfusion)).closed

theorem letIn (h : Tally l bs) {before : Int} (hi : l.visitors[i]? = some (.counted before))
    (hroom : l.admits before = true) :
    Tally (l.moved i .inside l.count) (bs ++ [(some i, false)]) := by
  have hinside := Lobby.inside_moved .inside l.count hi
  have hold {k j : Nat} (hk : (bs ++ [(some i, false)])[k]? = some (some j, false)) :
      bs[k]? = some (some j, false) ∧ i ≠ j ∨ k = bs.length ∧ i = j := by
    rcases badge_cases hk with hk | ⟨hk, hb⟩
    · refine .inl ⟨hk, ?_⟩
      rintro rfl
      exact absurd (hi.symm.trans (h.inside hk)) (by simp)
    · exact .inr ⟨hk, by simpa using hb⟩
  refine ⟨h.sound.passage (.letIn hi hroom), ?_, ?_, ?_⟩
  · rw [List.countP_append, h.live_eq]
    exact hinside.symm
  · intro k j hk
    rcases hold hk with ⟨hk, -⟩ | ⟨-, rfl⟩
    · exact inside_of_moved hi Standing.noConfusion (h.inside hk)
    · exact Lobby.getElem?_moved_self _ _ hi
  · intro k k' j hk hk'
    rcases hold hk with ⟨hk, hne⟩ | ⟨hk, heq⟩ <;> rcases hold hk' with ⟨hk', hne'⟩ | ⟨hk', heq'⟩
    · exact h.apart hk hk'
    · exact absurd heq' hne
    · exact absurd heq hne'
    · rw [hk, hk']

theorem ends (h : Tally l bs) {k : Nat} {place : Option Nat} (hk : bs[k]? = some (place, false)) :
    Tally ((place.bind l.leave).getD l) (bs.set k (place, true)) := by
  have hlive := Lobby.countP_set_add (p := isLiveBadge) (b := (place, true)) hk
  have hold {k' i : Nat} (hk' : (bs.set k (place, true))[k']? = some (some i, false)) :
      k ≠ k' ∧ bs[k']? = some (some i, false) := by
    by_cases hkk : k = k'
    · subst hkk
      rw [List.getElem?_set_self (List.getElem?_eq_some_iff.1 hk).1] at hk'
      exact absurd hk' (by simp)
    · exact ⟨hkk, (List.getElem?_set_ne hkk).symm.trans hk'⟩
  have hapart {k₁ k₂ i : Nat} (h₁ : (bs.set k (place, true))[k₁]? = some (some i, false))
      (h₂ : (bs.set k (place, true))[k₂]? = some (some i, false)) : k₁ = k₂ :=
    h.apart (hold h₁).2 (hold h₂).2
  cases place with
  | none =>
    refine ⟨h.sound, ?_, fun hk' => h.inside (hold hk').2, hapart⟩
    exact hlive.trans h.live_eq
  | some i =>
    have hi := h.inside hk
    have hleave : l.leave i = some (l.moved i .gone (l.count - 1)) := by
      rw [Lobby.leave, hi]
      rfl
    have hinside := Lobby.inside_moved .gone (l.count - 1) hi
    rw [Option.bind_some, hleave, Option.getD_some]
    refine ⟨h.sound.passage (.left hi), ?_, fun hk' => ?_, hapart⟩
    · rw [h.live_eq] at hlive
      exact Nat.add_right_cancel (hlive.trans hinside.symm)
    · obtain ⟨hne, hk'⟩ := hold hk'
      have hij : i ≠ _ := fun hij => hne (h.apart hk (hij ▸ hk'))
      exact (Lobby.getElem?_moved_ne _ _ hij).trans (h.inside hk')

theorem change {s s' : Service} (h : Tally s.lobby s.badges) (hc : Change s s') :
    Tally s'.lobby s'.badges := by
  cases hc with
  | calm hlobby hbadges => rwa [hlobby, hbadges]
  | arrives hlobby hbadges =>
    rw [hlobby, hbadges]
    exact h.arrives
  | counted hi hlobby hbadges =>
    rw [hlobby, hbadges]
    exact h.counted hi
  | letIn hi hroom hlobby hbadges =>
    rw [hlobby, hbadges]
    exact h.letIn hi hroom
  | turnedAway hi hfull hlobby hbadges =>
    rw [hlobby, hbadges]
    exact h.turnedAway hi hfull
  | ends hk hlobby hbadges =>
    rw [hlobby, hbadges]
    exact h.ends hk

end Tally

/-! ## Runs -/

/-- A service that nobody has come to yet. -/
def fresh (t : Terms) : Service := { lobby := { limit := t.limit } }

section Run

variable {t : Terms} {r : List (Service × Event)} {s s' : Service} {e : Event} {peer : Net.Address}

theorem tally_of_run (hrun : Run (next t) (fresh t) r s) : Tally s.lobby s.badges :=
  hrun.invariant (P := fun s => Tally s.lobby s.badges)
    (fun h he => h.change (change_of_next he))
    ⟨Lobby.Sound.empty t.limit, rfl, fun hk => absurd hk (by simp [badges, fresh]),
      fun hk => absurd hk (by simp [badges, fresh])⟩

theorem limit_of_run (hrun : Run (next t) (fresh t) r s) : s.lobby.limit = t.limit := by
  refine hrun.invariant (P := fun s => s.lobby.limit = t.limit) (fun h he => ?_) rfl
  rcases (change_of_next he).lobby with hl | ⟨turn, hp⟩
  · rw [hl, h]
  · rw [hp.limit, h]

theorem fate_change {i : Nat} {before : Int} (h : s.lobby.Fate i before) (hc : Change s s') :
    s'.lobby.Fate i before := by
  rcases hc.lobby with hl | ⟨turn, hp⟩
  · rwa [hl]
  · exact h.passage hp

theorem count_of_run (hrun : Run (next t) (fresh t) r s) :
    s.lobby.count = s.live + s.lobby.pending := by
  rw [live_eq_countP, (tally_of_run hrun).live_eq]
  exact (tally_of_run hrun).sound.count_eq

theorem live_le_of_run (hrun : Run (next t) (fresh t) r s) {m : Nat} (hm : t.limit = some m) :
    s.live ≤ m := by
  rw [live_eq_countP, (tally_of_run hrun).live_eq]
  exact (tally_of_run hrun).sound.inside_le ((limit_of_run hrun).trans hm)

/-- As many as are open now are too many just when the limit is reached. -/
theorem admits_live (hrun : Run (next t) (fresh t) r s) :
    s.lobby.admits s.live = !decide (t.limit = some s.live) := by
  cases hm : t.limit with
  | none => simp [Lobby.admits, limit_of_run hrun, hm]
  | some m =>
    have := live_le_of_run hrun hm
    rw [Bool.eq_iff_iff]
    simp only [Lobby.admits, limit_of_run hrun, hm, decide_eq_true_eq, Int.ofNat_lt,
      Bool.not_eq_true', decide_eq_false_iff_not, Option.some.injEq]
    omega

/-! ## Taking in a connection at once -/

theorem enter_arriving (t : Terms) (peer : Net.Address) {i : Nat}
    (hi : s.lobby.visitors[i]? = some .arriving) :
    ∃ s', s.enter t i peer = some s' ∧ s'.live = s.live ∧
      s'.lobby = s.lobby.moved i (.counted s.lobby.count) (s.lobby.count + 1) := by
  have hstep : s.lobby.step i =
      some (s.lobby.moved i (.counted s.lobby.count) (s.lobby.count + 1)) := by
    rw [Lobby.step, hi]
    rfl
  rw [enter, hstep, Option.map_some]
  simp only [Lobby.getElem?_moved_self _ _ hi]
  exact ⟨_, rfl, rfl, rfl⟩

/-- A connection that is judged becomes an open one if there is room. -/
theorem enter_counted (t : Terms) (peer : Net.Address) {i : Nat} {before : Int}
    (hi : s.lobby.visitors[i]? = some (.counted before)) :
    ∃ s', s.enter t i peer = some s' ∧
      s'.live = if s.lobby.admits before then s.live + 1 else s.live := by
  cases hroom : s.lobby.admits before with
  | true =>
    have hstep : s.lobby.step i = some (s.lobby.moved i .inside s.lobby.count) := by
      rw [Lobby.step, hi]
      simp only [hroom, if_true]
      rfl
    rw [enter, hstep, Option.map_some]
    simp only [Lobby.getElem?_moved_self _ _ hi]
    refine ⟨_, rfl, ?_⟩
    simp [live, note, Connection.isLive]
  | false =>
    have hstep : s.lobby.step i = some (s.lobby.moved i (.refused before) (s.lobby.count - 1)) := by
      rw [Lobby.step, hi]
      simp [hroom, Lobby.moved]
    rw [enter, hstep, Option.map_some]
    simp only [Lobby.getElem?_moved_self _ _ hi]
    refine ⟨_, rfl, ?_⟩
    simp [live, note, Connection.isLive]

/-- Taking a connection in is its arrival and the two steps of its way in, one after another. -/
theorem run_accept (s : Service) (t : Terms) (peer : Net.Address) :
    ∃ r, Run (next t) s r (s.accept t peer) ∧
      (s.accept t peer).live = if s.lobby.admits s.lobby.count then s.live + 1 else s.live := by
  have harriving : s.lobby.arrive.visitors[s.lobby.visitors.length]? = some .arriving :=
    List.getElem?_concat_length
  obtain ⟨s₂, h₂, hlive₂, hlobby₂⟩ := enter_arriving (s := { s with lobby := s.lobby.arrive })
    t peer harriving
  have hcounted : s₂.lobby.visitors[s.lobby.visitors.length]? = some (.counted s.lobby.count) := by
    rw [hlobby₂]
    exact Lobby.getElem?_moved_self _ _ harriving
  obtain ⟨s₃, h₃, hlive₃⟩ := enter_counted t peer hcounted
  have haccept : s.accept t peer = s₃ := by simp only [accept, h₂, h₃, Option.getD_some]
  have hmove₁ : s.next t .arrive = some { s with lobby := s.lobby.arrive } := rfl
  have hmove₂ : next t { s with lobby := s.lobby.arrive } (.enter _ peer) = some s₂ := h₂
  have hmove₃ : s₂.next t (.enter _ peer) = some (s.accept t peer) := haccept ▸ h₃
  refine ⟨_, ((Run.single hmove₁).next hmove₂).next hmove₃, ?_⟩
  rw [haccept, hlive₃, hlive₂, hlobby₂]
  rfl

/-! ## What a service does by itself -/

/-- One turn of every connection is a run. -/
theorem run_round (s : Service) : ∃ r, Run (next t) s r (s.round t).1 := by
  refine List.foldlRecOn (motive := fun p : Service × Bool => ∃ r, Run (next t) s r p.1)
    _ _ ⟨[], .start⟩ ?_
  rintro ⟨s₁, moved⟩ ⟨r, hrun⟩ k -
  dsimp only
  split
  · next s₂ hk =>
    have hmove : s₁.next t (.proceed k) = some s₂ := hk
    exact ⟨_, hrun.next hmove⟩
  · exact ⟨r, hrun⟩

/-- **What a service does by itself is a run**, so all of the above holds of it. -/
theorem run_settled (s : Service) : ∃ r, Run (next t) s r (s.settled t) := by
  have hrun : ∀ (fuel : Nat) (s : Service), ∃ r, Run (next t) s r (s.run t fuel) := by
    intro fuel
    induction fuel with
    | zero => exact fun s => ⟨[], .start⟩
    | succ fuel ih =>
      intro s
      have hworld : s.next t (.exchange (s.world.settled t.front)) =
        some { s with world := s.world.settled t.front } := rfl
      obtain ⟨r₁, h₁⟩ := run_round (t := t) { s with world := s.world.settled t.front }
      have h₁ := (Run.single hworld).trans h₁
      rw [run]
      split
      · next s₁ hround =>
        rw [hround] at h₁
        obtain ⟨r₂, h₂⟩ := ih s₁
        exact ⟨_, h₁.trans h₂⟩
      · next s₁ hround =>
        rw [hround] at h₁
        split
        · next s₂ hexpire =>
          obtain ⟨k, -, hk⟩ := List.exists_of_findSome?_eq_some hexpire
          have hmove : s₁.next t (.expire k) = some s₂ := hk
          obtain ⟨r₂, h₂⟩ := ih s₂
          exact ⟨_, (h₁.next hmove).trans h₂⟩
        · exact ⟨_, h₁⟩
  exact hrun _ s

end Run

/-! ## The limit -/

/-- What the limit on connections comes to, at the end of a run. -/
structure LimitKept (t : Terms) (r : List (Service × Event)) (s : Service) : Prop where
  /-- No more connections are open than the limit allows. -/
  live_le : ∀ m, t.limit = some m → s.live ≤ m
  /-- The count is that of the open connections, and of those that are counted and not judged
  yet. -/
  count_eq : s.lobby.count = s.live + s.lobby.pending
  count_nonneg : 0 ≤ s.lobby.count
  count_of_rest : s.lobby.pending = 0 → s.lobby.count = s.live
  /-- A connection that is counted while no other is on its way in is turned away just when the
  limit is reached at that moment, whatever happens before it is judged. -/
  judged : ∀ p ∈ r, ∀ i peer, p.2 = .enter i peer → p.1.lobby.visitors[i]? = some .arriving →
    p.1.lobby.pending = 0 → s.lobby.visitors[i]? = some (.counted p.1.live) ∨
      if t.limit = some p.1.live then s.lobby.visitors[i]? = some (.refused p.1.live)
      else s.lobby.visitors[i]? = some .inside ∨ s.lobby.visitors[i]? = some .gone
  /-- A connection that is taken in all at once is turned away just when the limit is reached. -/
  accepted : s.lobby.pending = 0 → ∀ peer,
    (s.accept t peer).live = if t.limit = some s.live then s.live else s.live + 1

/-- **The limit on connections is kept**, in whatever order connections come in and end. -/
theorem limit_kept {t : Terms} {r : List (Service × Event)} {s : Service}
    (hrun : Run (next t) (fresh t) r s) : LimitKept t r s := by
  have hcount := count_of_run hrun
  refine ⟨fun m => live_le_of_run hrun, hcount, by omega, fun _ => by omega, ?_, ?_⟩
  · intro p hp i peer he hi hrest
    obtain ⟨r₁, -, s₂, -, hbefore, hmove, -⟩ := hrun.split hp
    have hfound : p.1.lobby.count = p.1.live := by
      rw [count_of_run hbefore, hrest]
      omega
    have hfate : s.lobby.Fate i p.1.live := by
      refine hrun.since (P := fun _ s => s.lobby.Fate i p.1.live) hp ?_ ?_
      · intro _ s₂ _ hs₂
        rw [he] at hs₂
        obtain ⟨s₂', hs₂', -, hlobby⟩ := enter_arriving t peer hi
        obtain rfl : s₂' = s₂ := Option.some.inj (hs₂'.symm.trans hs₂)
        rw [hlobby, ← hfound]
        exact Lobby.fate_counted hi
      · intro _ s₂ a s₃ _ _ hfate hs₃
        exact fate_change hfate (change_of_next hs₃)
    obtain ⟨v, hv, hallots⟩ := hfate
    have hadmits : s.lobby.admits p.1.live = !decide (t.limit = some p.1.live) := by
      rw [← admits_live hbefore, Lobby.admits, Lobby.admits, limit_of_run hrun,
        limit_of_run hbefore]
    by_cases hfull : t.limit = some p.1.live <;> cases v <;>
      simp_all [Lobby.Allots]
  · intro hrest peer
    obtain ⟨-, -, hlive⟩ := run_accept s t peer
    rw [hlive, hcount, hrest, Int.natCast_zero, Int.add_zero, admits_live hrun]
    by_cases hfull : t.limit = some s.live <;> simp [hfull]

/-- Room for one connection. -/
def single : Terms := { front := .byDefault {} none fun _ _ => .done (.ok .ok), limit := some 1 }

/-- Two connections are counted before one of them is judged.  The one that is let in is given up by
the other side, the next one runs into its time limit, and the last one sends something that is no
request. -/
def threeEnds : List Event :=
  [.arrive, .arrive, .enter 0 .loopback, .enter 1 .loopback, .enter 0 .loopback,
    .enter 1 .loopback, .hangUp 0, .proceed 0,
    .arrive, .enter 2 .loopback, .enter 2 .loopback, .tick 30, .expire 2,
    .arrive, .enter 3 .loopback, .enter 3 .loopback, .bring 3 [0], .proceed 3]

/-- The count is over the limit while nobody is inside, and every way to end takes a connection off
it. -/
theorem limit_kept_threeEnds :
    ∃ r s, Run (next single) (fresh single) r s ∧ LimitKept single r s ∧
      s.lobby.visitors = [.gone, .refused 1, .gone, .gone] ∧ s.lobby.count = 0 ∧
      r.map (fun p => (p.1.lobby.count, p.1.live)) =
        [(0, 0), (0, 0), (0, 0), (1, 0), (2, 0), (2, 1), (1, 1), (1, 1),
          (0, 0), (0, 0), (1, 0), (1, 1), (1, 1),
          (0, 0), (0, 0), (1, 0), (1, 1), (1, 1)] := by
  let o := (follow (next single) (fresh single) threeEnds).get rfl
  have hrun : Run (next single) (fresh single) o.1 o.2 := run_of_follow (Option.some_get _).symm
  exact ⟨o.1, o.2, hrun, limit_kept hrun, rfl, rfl, rfl⟩

end Service
end EdgeCache.Serving
