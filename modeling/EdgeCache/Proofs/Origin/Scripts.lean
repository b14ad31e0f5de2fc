import EdgeCache.Exchange.Front

/-!
# How scripts end

`Script.Ends P` says that whatever a script learns on its way, the value it ends with satisfies `P`.
Running a script one action further keeps this.  `Script.Answers P` says in addition that the script
does not die before it has committed a head, and `P` is asked only of what it ends with till then.
`Script.Waitless` says that it waits at no gate, and `Script.Returns` that it does not die at all.

`Script.Less` compares a script with what is left of it after an action.  It is well-founded, so
every script ends, though there is no bound on how long one takes: it may do anything with the
headers it sees.
-/

set_option autoImplicit false

namespace EdgeCache

/-- Every way to the end of the script ends with a value for which `P` holds. -/
inductive Script.Ends {α : Type} (P : α → Prop) : Script α → Prop
  | done {a : α} (h : P a) : Ends P (.done a)
  | die {message : String} : Ends P (.die message)
  | edit {f : Headers → Headers} {rest : Script α} (h : Ends P rest) : Ends P (.edit f rest)
  | inspect {k : Headers → Script α} (h : ∀ v, Ends P (k v)) : Ends P (.inspect k)
  | observe {k : Bool → Script α} (h : ∀ b, Ends P (k b)) : Ends P (.observe k)
  | commit {status : Status} {rest : Script α} (h : Ends P rest) : Ends P (.commit status rest)
  | write {chunk : Bytes} {k : Option IoError → Script α} (h : ∀ e, Ends P (k e)) :
      Ends P (.write chunk k)
  | await {gate : String} {ticket : Option Nat} {rest : Script α} (h : Ends P rest) :
      Ends P (.await gate ticket rest)
  | emit {e : Event} {rest : Script α} (h : Ends P rest) : Ends P (.emit e rest)

namespace Script

theorem Ends.bind {α β : Type} {P : β → Prop} {k : α → Script β} (s : Script α)
    (hk : ∀ a, (k a).Ends P) : (s.bind k).Ends P := by
  induction s with
  | done a => exact hk a
  | die => exact .die
  | edit f rest ih => exact .edit ih
  | inspect g ih => exact .inspect ih
  | observe g ih => exact .observe ih
  | commit status rest ih => exact .commit ih
  | write chunk g ih => exact .write ih
  | await gate ticket rest ih => exact .await ih
  | emit e rest ih => exact .emit ih

theorem Ends.step {σ α : Type} {P : α → Prop} {on : Writer σ} {gates : Gates} {w : σ}
    {s : Script α} {m : Moved σ α} (h : s.Ends P) (hm : s.step on gates w = some m) :
    m.script.Ends P := by
  cases h with
  | done | die => simp [Script.step] at hm
  | edit h | commit h | emit h =>
    simp only [Script.step, Option.some.injEq] at hm
    exact hm ▸ h
  | inspect h | observe h =>
    simp only [Script.step, Option.some.injEq] at hm
    exact hm ▸ h _
  | write h =>
    simp only [Script.step] at hm
    split at hm
    · exact absurd hm (by simp)
    · rw [Option.some.injEq] at hm
      exact hm ▸ .write h
    · rw [Option.some.injEq] at hm
      exact hm ▸ h _
  | @await gate ticket rest h =>
    cases ticket with
    | none =>
      simp only [Script.step, Option.some.injEq] at hm
      exact hm ▸ .await h
    | some ticket =>
      simp only [Script.step, Option.ite_none_right_eq_some, Option.some.injEq] at hm
      exact hm.2 ▸ h

/-! ## Scripts come to an end -/

/-- What is left of a script after one action. -/
inductive Less {α : Type} : Script α → Script α → Prop
  | edit {f : Headers → Headers} {rest : Script α} : Less rest (.edit f rest)
  | inspect {k : Headers → Script α} (v : Headers) : Less (k v) (.inspect k)
  | observe {k : Bool → Script α} (b : Bool) : Less (k b) (.observe k)
  | commit {status : Status} {rest : Script α} : Less rest (.commit status rest)
  | write {chunk : Bytes} {k : Option IoError → Script α} (e : Option IoError) :
      Less (k e) (.write chunk k)
  | line {gate : String} {rest : Script α} (ticket : Nat) :
      Less (.await gate (some ticket) rest) (.await gate none rest)
  | await {gate : String} {ticket : Option Nat} {rest : Script α} :
      Less rest (.await gate ticket rest)
  | emit {e : Event} {rest : Script α} : Less rest (.emit e rest)

theorem acc_less {α : Type} (s : Script α) : Acc Less s := by
  induction s with
  | done | die => exact ⟨_, fun s' h => by cases h⟩
  | edit f rest ih | commit status rest ih | emit e rest ih =>
    refine ⟨_, fun s' h => ?_⟩
    cases h
    exact ih
  | inspect k ih =>
    refine ⟨_, fun s' h => ?_⟩
    cases h with
    | inspect v => exact ih v
  | observe k ih =>
    refine ⟨_, fun s' h => ?_⟩
    cases h with
    | observe b => exact ih b
  | write chunk k ih =>
    refine ⟨_, fun s' h => ?_⟩
    cases h with
    | write e => exact ih e
  | await gate ticket rest ih =>
    have hticket : ∀ n, Acc Less (.await gate (some n) rest) := by
      refine fun n => ⟨_, fun s' h => ?_⟩
      cases h
      exact ih
    refine ⟨_, fun s' h => ?_⟩
    cases h with
    | line n => exact hticket n
    | await => exact ih

/-- **Every action but a part of a write leaves less of a script.** -/
theorem step_less {σ α : Type} {on : Writer σ} {gates : Gates} {writer : σ} {s : Script α}
    {m : Moved σ α} (h : s.step on gates writer = some m) :
    Less m.script s ∨ (m.script = s ∧ ∃ chunk k, s = .write chunk k ∧
      on.write chunk writer = .partly m.writer) := by
  cases s with
  | done | die => simp [Script.step] at h
  | edit f rest =>
    simp only [Script.step, Option.some.injEq] at h
    exact .inl (h ▸ .edit)
  | inspect k =>
    simp only [Script.step, Option.some.injEq] at h
    exact .inl (h ▸ .inspect _)
  | observe k =>
    simp only [Script.step, Option.some.injEq] at h
    exact .inl (h ▸ .observe _)
  | commit status rest =>
    simp only [Script.step, Option.some.injEq] at h
    exact .inl (h ▸ .commit)
  | emit e rest =>
    simp only [Script.step, Option.some.injEq] at h
    exact .inl (h ▸ .emit)
  | write chunk k =>
    simp only [Script.step] at h
    split at h
    · exact absurd h (by simp)
    · next w' hw =>
      rw [Option.some.injEq] at h
      subst h
      exact .inr ⟨rfl, chunk, k, rfl, hw⟩
    · rw [Option.some.injEq] at h
      exact .inl (h ▸ .write _)
  | await gate ticket rest =>
    cases ticket with
    | none =>
      simp only [Script.step, Option.some.injEq] at h
      exact .inl (h ▸ .line _)
    | some ticket =>
      simp only [Script.step, Option.ite_none_right_eq_some, Option.some.injEq] at h
      exact .inl (h.2 ▸ .await)

end Script

namespace Script

/-! ## Scripts that come to a head -/

/-- As long as no head is committed the script does not die, and it ends only with a value for which
`P` holds. -/
inductive Answers {α : Type} (P : α → Prop) : Script α → Prop
  | done {a : α} (h : P a) : Answers P (.done a)
  | edit {f : Headers → Headers} {rest : Script α} (h : Answers P rest) : Answers P (.edit f rest)
  | inspect {k : Headers → Script α} (h : ∀ v, Answers P (k v)) : Answers P (.inspect k)
  | observe {k : Bool → Script α} (h : Answers P (k false)) : Answers P (.observe k)
  | commit {status : Status} {rest : Script α} : Answers P (.commit status rest)
  | write {chunk : Bytes} {k : Option IoError → Script α} : Answers P (.write chunk k)
  | await {gate : String} {ticket : Option Nat} {rest : Script α} (h : Answers P rest) :
      Answers P (.await gate ticket rest)
  | emit {e : Event} {rest : Script α} (h : Answers P rest) : Answers P (.emit e rest)

theorem Answers.bind {α β : Type} {P : α → Prop} {Q : β → Prop} {k : α → Script β} {s : Script α}
    (h : s.Answers P) (hk : ∀ a, P a → (k a).Answers Q) : (s.bind k).Answers Q := by
  induction h with
  | done h => exact hk _ h
  | edit _ ih => exact .edit ih
  | inspect _ ih => exact .inspect ih
  | observe _ ih => exact .observe ih
  | commit => exact .commit
  | write => exact .write
  | await _ ih => exact .await ih
  | emit _ ih => exact .emit ih

end Script

/-! ## Scripts that do not wait -/

namespace Script

/-- Nowhere in the script is a gate to wait at. -/
inductive Waitless {α : Type} : Script α → Prop
  | done {a : α} : Waitless (.done a)
  | die {message : String} : Waitless (.die message)
  | edit {f : Headers → Headers} {rest : Script α} (h : Waitless rest) : Waitless (.edit f rest)
  | inspect {k : Headers → Script α} (h : ∀ v, Waitless (k v)) : Waitless (.inspect k)
  | observe {k : Bool → Script α} (h : ∀ b, Waitless (k b)) : Waitless (.observe k)
  | commit {status : Status} {rest : Script α} (h : Waitless rest) : Waitless (.commit status rest)
  | write {chunk : Bytes} {k : Option IoError → Script α} (h : ∀ e, Waitless (k e)) :
      Waitless (.write chunk k)
  | emit {e : Event} {rest : Script α} (h : Waitless rest) : Waitless (.emit e rest)

theorem Waitless.bind {α β : Type} {s : Script α} {k : α → Script β} (h : s.Waitless)
    (hk : ∀ a, (k a).Waitless) : (s.bind k).Waitless := by
  induction h with
  | done => exact hk _
  | die => exact .die
  | edit _ ih => exact .edit ih
  | inspect _ ih => exact .inspect ih
  | observe _ ih => exact .observe ih
  | commit _ ih => exact .commit ih
  | write _ ih => exact .write ih
  | emit _ ih => exact .emit ih

theorem Waitless.less {α : Type} {s s' : Script α} (h : s.Waitless) (hl : Less s' s) :
    s'.Waitless := by
  cases hl with
  | edit | commit | emit =>
    cases h
    assumption
  | inspect v =>
    cases h with
    | inspect h => exact h v
  | observe committed =>
    cases h with
    | observe h => exact h committed
  | write failure =>
    cases h with
    | write h => exact h failure
  | line | await => cases h

theorem Waitless.step {σ α : Type} {on : Writer σ} {gates : Gates} {w : σ} {s : Script α}
    {m : Moved σ α} (h : s.Waitless) (hm : s.step on gates w = some m) : m.script.Waitless := by
  rcases step_less hm with hless | ⟨hsame, -⟩
  · exact h.less hless
  · exact hsame ▸ h

theorem waitless_plain (status : Status) (isHead : Bool) : (plain status isHead).Waitless := by
  refine .edit (.commit ?_)
  split
  · exact .done
  · exact .write fun _ => .done

theorem Waitless.ifUncommitted {s : Script Unit} (h : s.Waitless) : s.ifUncommitted.Waitless := by
  refine .observe fun committed => ?_
  split
  · exact .done
  · exact h

end Script

/-- What is done about the result of an origin takes no waiting. -/
theorem Fetch.waitless_supervise {isHead : Bool} {s : Script (Except OriginError Status)}
    (h : s.Waitless) : (supervise isHead s).Waitless := by
  refine h.bind fun result => ?_
  cases result with
  | ok status => exact (Script.Waitless.commit .done).ifUncommitted
  | error cause =>
    exact .emit ((Script.waitless_plain .badGateway isHead).bind fun _ => .done).ifUncommitted

theorem Front.waitless_forward {isHead : Bool} {s : Script (Except OriginError Status)}
    (h : s.Waitless) : (Front.forward isHead s).Waitless := by
  refine h.bind fun result => ?_
  cases result with
  | ok status => exact (Script.Waitless.commit .done).ifUncommitted.bind fun _ => .done
  | error cause =>
    exact ((Script.waitless_plain .badGateway isHead).bind fun _ => .done).ifUncommitted.bind
      fun _ => .done

/-! ## Scripts that return -/

namespace Script

/-- Whatever the script learns on its way, it ends with a value: nowhere does it die. -/
inductive Returns {α : Type} : Script α → Prop
  | done {a : α} : Returns (.done a)
  | edit {f : Headers → Headers} {rest : Script α} (h : Returns rest) : Returns (.edit f rest)
  | inspect {k : Headers → Script α} (h : ∀ v, Returns (k v)) : Returns (.inspect k)
  | observe {k : Bool → Script α} (h : ∀ b, Returns (k b)) : Returns (.observe k)
  | commit {status : Status} {rest : Script α} (h : Returns rest) : Returns (.commit status rest)
  | write {chunk : Bytes} {k : Option IoError → Script α} (h : ∀ e, Returns (k e)) :
      Returns (.write chunk k)
  | await {gate : String} {ticket : Option Nat} {rest : Script α} (h : Returns rest) :
      Returns (.await gate ticket rest)
  | emit {e : Event} {rest : Script α} (h : Returns rest) : Returns (.emit e rest)

theorem Returns.bind {α β : Type} {s : Script α} {k : α → Script β} (h : s.Returns)
    (hk : ∀ a, (k a).Returns) : (s.bind k).Returns := by
  induction h with
  | done => exact hk _
  | edit _ ih => exact .edit ih
  | inspect _ ih => exact .inspect ih
  | observe _ ih => exact .observe ih
  | commit _ ih => exact .commit ih
  | write _ ih => exact .write ih
  | await _ ih => exact .await ih
  | emit _ ih => exact .emit ih

theorem returns_answerPlain (status : Status) (isHead : Bool)
    (result : Except OriginError Status) : (answerPlain status isHead result).Returns := by
  have hplain : (plain status isHead).Returns := by
    refine .edit (.commit ?_)
    split
    · exact .done
    · exact .write fun _ => .done
  refine hplain.bind fun failure => ?_
  cases failure <;> exact .done

/-- What holds of the result and of a failure, and of a write if of all that may follow it, holds of
chunks that are written one after another. -/
theorem writeAll_induction {P : Script (Except OriginError Status) → Prop}
    {result : Except OriginError Status} (hresult : P (.done result))
    (hfailed : ∀ e, P (.done (.error (.io e))))
    (hwrite : ∀ chunk k, (∀ failure, P (k failure)) → P (.write chunk k)) (chunks : List Bytes) :
    P (writeAll result chunks) := by
  induction chunks with
  | nil => exact hresult
  | cons chunk rest ih =>
    refine hwrite chunk _ fun failure => ?_
    cases failure with
    | none => exact ih
    | some e => exact hfailed e

theorem returns_writeAll (result : Except OriginError Status) (chunks : List Bytes) :
    (writeAll result chunks).Returns :=
  writeAll_induction .done (fun _ => .done) (fun _ _ hk => .write hk) chunks

end Script

/-! ## What becomes of an origin's result -/

/-- **Where the origin does not die without a head, its task does not end without one.** -/
theorem Fetch.answers_supervise {isHead : Bool} {s : Script (Except OriginError Status)}
    (h : s.Answers fun _ => True) : (supervise isHead s).Answers fun _ => False := by
  refine h.bind fun result _ => ?_
  cases result with
  | ok status => exact .observe .commit
  | error cause => exact .emit (.observe (.edit .commit))

/-- What passes the cache is reported so. -/
theorem Front.ends_forward (isHead : Bool) (s : Script (Except OriginError Status)) :
    (Front.forward isHead s).Ends fun outcome => outcome.cache = .skip := by
  refine Script.Ends.bind s fun result => ?_
  cases result with
  | ok status => exact Script.Ends.bind _ fun _ => .done rfl
  | error cause => exact Script.Ends.bind _ fun _ => .done rfl

end EdgeCache
