import EdgeCache.Proofs.Exchange.Moves
import EdgeCache.Proofs.Origin.Deliveries

/-!
# Scripts that do not look at the indicator

Before the origin's script runs, the indicator is put among the header fields, so a script might see
by it how the request is answered.  Two scripts are `Alike` if nothing but the indicator tells what
they do apart, and a script is `Blind` if it is like itself: whatever it finds under the indicator,
it delivers the same but for the indicator (`Script.Alike.play`).

The two ways of bringing a script to an end — `Fetch.supervise` on a miss, `Front.forward` past the
cache — deliver the same (`Script.play_forward`).
-/

set_option autoImplicit false

namespace EdgeCache

/-! ## The indicator -/

theorem Headers.remove_insert (h : Headers) (name n : HeaderName) (value : Bytes) :
    (h.insert name value).remove n =
      if name = n then h.remove n else (h.remove n).insert name value := by
  by_cases hn : name = n
  · subst hn
    simp [insert, append, remove, List.filter_filter]
  · simp [insert, append, remove, hn, List.filter_filter, Bool.and_comm]

namespace Front

variable {front : Front} {h h' : Headers}

theorem unmark_insert (hh : front.unmark h = front.unmark h') (name : HeaderName) (value : Bytes) :
    front.unmark (h.insert name value) = front.unmark (h'.insert name value) := by
  rw [unmark] at hh ⊢
  cases hi : front.indicator with
  | none =>
    simp only [hi, unmark] at hh ⊢
    rw [hh]
  | some n =>
    simp only [hi, unmark] at hh ⊢
    rw [Headers.remove_insert, Headers.remove_insert, hh]

theorem unmark_mark (front : Front) (status : CacheStatus) (h : Headers) :
    front.unmark (front.mark status h) = front.unmark h := by
  rw [unmark, mark, unmark]
  cases front.indicator with
  | none => rfl
  | some n => simp only [Headers.remove_insert, if_true]

/-- What is put in and taken out depends only on the name of the indicator. -/
theorem mark_eq {A B : Front} (h : A.indicator = B.indicator) : A.mark = B.mark := by
  funext status headers
  rw [mark, mark, h]

end Front

/-! ## Scripts that do the same -/

/-- Where the headers that they are shown differ at most in the indicator, the scripts do the same,
but for the indicator. -/
inductive Script.Alike {α : Type} (front : Front) : Script α → Script α → Prop
  | done (a : α) : Alike front (.done a) (.done a)
  | die (message : String) : Alike front (.die message) (.die message)
  | edit {f f' : Headers → Headers} {rest rest' : Script α}
      (hf : ∀ h h', front.unmark h = front.unmark h' → front.unmark (f h) = front.unmark (f' h'))
      (h : Alike front rest rest') : Alike front (.edit f rest) (.edit f' rest')
  | inspect {k k' : Headers → Script α}
      (h : ∀ h h', front.unmark h = front.unmark h' → Alike front (k h) (k' h')) :
      Alike front (.inspect k) (.inspect k')
  | observe {k k' : Bool → Script α} (h : ∀ b, Alike front (k b) (k' b)) :
      Alike front (.observe k) (.observe k')
  | commit (status : Status) {rest rest' : Script α} (h : Alike front rest rest') :
      Alike front (.commit status rest) (.commit status rest')
  | write (chunk : Bytes) {k k' : Option IoError → Script α}
      (h : ∀ e, Alike front (k e) (k' e)) : Alike front (.write chunk k) (.write chunk k')
  | await (gate : String) (ticket : Option Nat) {rest rest' : Script α}
      (h : Alike front rest rest') :
      Alike front (.await gate ticket rest) (.await gate ticket rest')
  | emit (e : Event) {rest rest' : Script α} (h : Alike front rest rest') :
      Alike front (.emit e rest) (.emit e rest')

/-- The script does not look at the indicator. -/
def Script.Blind {α : Type} (front : Front) (s : Script α) : Prop := s.Alike front s

/-- A delivery without the indicator. -/
def Delivery.shown (front : Front) (d : Delivery) : Delivery :=
  ⟨front.unmark d.headers, d.head.map front.kept, d.writes⟩

namespace Delivery

variable {front : Front} {d d' : Delivery}

theorem shown_commit (front : Front) (d : Delivery) (status : Status) :
    (d.commit status).shown front = (d.shown front).commit status := by
  cases h : d.head with
  | some head => simp [commit, shown, h]
  | none => simp [commit, shown, h, Front.kept]

theorem shown_write (front : Front) (d : Delivery) (chunk : Bytes) (failure : Option IoError) :
    (d.write chunk failure).shown front = (d.shown front).write chunk failure := by
  calc (d.write chunk failure).shown front
      = { (d.commit .ok).shown front with writes := d.writes ++ [(chunk, failure)] } := rfl
    _ = (d.shown front).write chunk failure := by rw [shown_commit]; rfl

/-- Committed is the one if the other is. -/
theorem isSome_of_shown (h : d.shown front = d'.shown front) : d.head.isSome = d'.head.isSome := by
  have hhead : d.head.map front.kept = d'.head.map front.kept := congrArg Delivery.head h
  rw [← Option.isSome_map, hhead, Option.isSome_map]

end Delivery

namespace Script

variable {α β : Type} {front : Front} {s s' : Script α} {pattern : Nat → Option IoError}

theorem Alike.bind {k k' : α → Script β} (h : s.Alike front s')
    (hk : ∀ a, (k a).Alike front (k' a)) : (s.bind k).Alike front (s'.bind k') := by
  induction h with
  | done a => exact hk a
  | die message => exact .die message
  | edit hf _ ih => exact .edit hf ih
  | inspect _ ih => exact .inspect ih
  | observe _ ih => exact .observe ih
  | commit status _ ih => exact .commit status ih
  | write chunk _ ih => exact .write chunk ih
  | await gate ticket _ ih => exact .await gate ticket ih
  | emit e _ ih => exact .emit e ih

/-- **Scripts that are alike deliver the same**, but for the indicator. -/
theorem Alike.play {d d' : Delivery} (h : s.Alike front s') (hd : d.shown front = d'.shown front)
    (pattern : Nat → Option IoError) :
    (s.play pattern d).map (fun r => (r.1, r.2.shown front)) =
      (s'.play pattern d').map fun r => (r.1, r.2.shown front) := by
  induction h generalizing d d' with
  | done a => simp only [Script.play, Option.map_some, hd]
  | die message => rfl
  | @edit f f' rest rest' hf _ ih =>
    refine ih ?_
    have hheaders : front.unmark d.headers = front.unmark d'.headers := congrArg Delivery.headers hd
    calc (d.edit f).shown front
        = { d.shown front with headers := front.unmark (f d.headers) } := rfl
      _ = { d'.shown front with headers := front.unmark (f' d'.headers) } := by
        rw [hd, hf _ _ hheaders]
      _ = (d'.edit f').shown front := rfl
  | inspect _ ih => exact ih _ _ (congrArg Delivery.headers hd) hd
  | observe _ ih =>
    rw [Script.play, Script.play, Delivery.isSome_of_shown hd]
    exact ih _ hd
  | commit status _ ih =>
    refine ih ?_
    rw [Delivery.shown_commit, Delivery.shown_commit, hd]
  | write chunk _ ih =>
    have hwrites : d.writes = d'.writes := (congrArg Delivery.writes hd :)
    rw [Script.play, Script.play, hwrites]
    refine ih _ ?_
    rw [Delivery.shown_write, Delivery.shown_write, hd]
  | await gate ticket _ ih => exact ih hd
  | emit e _ ih => exact ih hd

theorem Alike.plain (front : Front) (status : Status) (isHead : Bool) :
    (plain status isHead).Blind front := by
  refine .edit (fun h h' hh => ?_) (.commit status ?_)
  · exact Front.unmark_insert (Front.unmark_insert hh _ _) _ _
  · cases isHead with
    | true => exact .done none
    | false => exact .write _ fun e => .done e

theorem Alike.ifUncommitted {s s' : Script Unit} (h : s.Alike front s') :
    (ifUncommitted s).Alike front (ifUncommitted s') := by
  refine .observe fun committed => ?_
  cases committed with
  | true => exact .done ()
  | false => exact h

/-- The task of an origin is no more aware of the indicator than the origin is. -/
theorem Alike.supervise {s s' : Script (Except OriginError Status)} (h : s.Alike front s')
    (isHead : Bool) : (Fetch.supervise isHead s).Alike front (Fetch.supervise isHead s') := by
  refine h.bind fun result => ?_
  cases result with
  | ok status => exact .ifUncommitted (.commit status (.done ()))
  | error cause => exact .emit _ (.ifUncommitted ((Alike.plain front _ _).bind fun _ => .done ()))

/-! ## Two ways to the end -/

/-- What a script ends with has no part in what it delivers. -/
theorem play_bind_done (s : Script α) (f : α → β) (d : Delivery) :
    ((s.bind fun a => done (f a)).play pattern d).map (·.2) = (s.play pattern d).map (·.2) := by
  rw [play_bind]
  cases s.play pattern d <;> rfl

/-- **Past the cache a script delivers what it delivers on a miss.** -/
theorem play_forward (isHead : Bool) (s : Script (Except OriginError Status))
    (pattern : Nat → Option IoError) (d : Delivery) :
    ((Front.forward isHead s).play pattern d).map (·.2) =
      ((Fetch.supervise isHead s).play pattern d).map (·.2) := by
  rw [Front.forward, Fetch.supervise, play_bind, play_bind, Option.map_bind, Option.map_bind]
  congr 1
  funext r
  obtain ⟨result, d'⟩ := r
  cases result with
  | ok status => exact play_bind_done _ _ d'
  | error cause => exact play_bind_done _ _ d'

/-- A task that returns has committed a head. -/
theorem isSome_play_supervise {isHead : Bool} {s : Script (Except OriginError Status)}
    {d d' : Delivery} (h : (Fetch.supervise isHead s).play pattern d = some ((), d')) :
    d'.head.isSome = true := by
  rw [play_supervise, Option.map_eq_some_iff] at h
  obtain ⟨⟨result, d₁⟩, -, h⟩ := h
  rw [← (Prod.mk.inj h).2, Delivery.head_conclude]
  rfl

/-- **A blind script delivers on a miss what it delivers past the cache**, but for the indicator. -/
theorem Blind.play_forward {s : Script (Except OriginError Status)} {isHead : Bool}
    {d d' d₁ : Delivery} (h : s.Blind front) (hd : d.shown front = d'.shown front)
    (hmiss : (Fetch.supervise isHead s).play pattern d = some ((), d₁)) :
    ∃ outcome d₂, (Front.forward isHead s).play pattern d' = some (outcome, d₂) ∧
      d₁.shown front = d₂.shown front := by
  have hsame := (Alike.supervise h isHead).play hd pattern
  rw [hmiss, Option.map_some] at hsame
  obtain ⟨⟨u, d₂⟩, hplay, hshown⟩ := Option.map_eq_some_iff.1 hsame.symm
  have hforward := Script.play_forward isHead s pattern d'
  rw [hplay, Option.map_some] at hforward
  obtain ⟨⟨outcome, d₃⟩, hplay', rfl⟩ := Option.map_eq_some_iff.1 hforward
  exact ⟨outcome, d₃, hplay', (congrArg Prod.snd hshown).symm⟩

end Script

end EdgeCache
