import EdgeCache.Proofs.Log.Replacing
import Mathlib.Data.List.Infix
import Mathlib.Data.List.MinMax
import Mathlib.Data.Fintype.Defs

/-!
# Patterns and their variables

A pattern is read from left to right: at each place the longest variable that stands there, or else
the character (`tokens`).  With a value in place of each variable it gives the text that is meant
(`Access.substituted`).

The text that is written comes about in twelve rounds, one for each variable, and a round also
searches what the earlier ones have inserted.  Before the round `k` the pieces of the pattern are
still there, and the variables of the earlier rounds stand for their values (`Token.stage`), as long
as no later name can be read in a value or from the text before a value into it
(`Access.Undisturbed`).  Then one round replaces its own variable and nothing else
(`Token.replaceAll_stage`), and the last round leaves the text that is meant
(`Access.expand_of_undisturbed`).
-/

set_option autoImplicit false

namespace EdgeCache.Log

/-- The variables of a pattern, in the order in which they are replaced. -/
inductive Variable
  | remoteAddr | timeLocal | timeIso | requestTime | requestMethod | requestUri | request | status
  | bodyBytesSent | httpReferer | httpUserAgent | cacheStatus
  deriving DecidableEq, Repr

namespace Variable

/-- How the variable is written in a pattern. -/
def name : Variable → List Char
  | remoteAddr => "$remote_addr".toList
  | timeLocal => "$time_local".toList
  | timeIso => "$time_iso8601".toList
  | requestTime => "$request_time".toList
  | requestMethod => "$request_method".toList
  | requestUri => "$request_uri".toList
  | request => "$request".toList
  | status => "$status".toList
  | bodyBytesSent => "$body_bytes_sent".toList
  | httpReferer => "$http_referer".toList
  | httpUserAgent => "$http_user_agent".toList
  | cacheStatus => "$cache_status".toList

/-- What an entry has for the variable. -/
def value (e : Access) : Variable → List Char
  | remoteAddr => e.remoteAddr.toList
  | timeLocal => e.time.common.toList
  | timeIso => e.time.iso.toList
  | requestTime => e.seconds.toList
  | requestMethod => e.method.toList
  | requestUri => e.requestUri.toList
  | request => e.requestLine.toList
  | status => (toString e.status).toList
  | bodyBytesSent => (toString e.bodyBytes).toList
  | httpReferer => (Access.orDash e.referer).toList
  | httpUserAgent => (Access.orDash e.userAgent).toList
  | cacheStatus => (Access.orDash e.cacheStatus).toList

/-- All of them, in that order. -/
def all : List Variable :=
  [remoteAddr, timeLocal, timeIso, requestTime, requestMethod, requestUri, request, status,
    bodyBytesSent, httpReferer, httpUserAgent, cacheStatus]

theorem mem_all (v : Variable) : v ∈ all := by cases v <;> decide

instance : Fintype Variable := ⟨⟨all, by decide⟩, mem_all⟩

/-- How many variables are replaced before it. -/
def rank (v : Variable) : Nat := all.idxOf v

theorem rank_lt (v : Variable) : v.rank < all.length := List.idxOf_lt_length_of_mem v.mem_all

theorem getElem?_rank (v : Variable) : all[v.rank]? = some v := by cases v <;> rfl

theorem exists_rank_eq {k : Nat} (hk : k < all.length) : ∃ v : Variable, v.rank = k := by
  revert k
  decide

theorem rank_injective {v w : Variable} (h : v.rank = w.rank) : v = w := by
  have hv := v.getElem?_rank
  rwa [h, w.getElem?_rank, Option.some_inj, eq_comm] at hv

theorem name_mark (v : Variable) : ∃ rest, v.name = '$' :: rest ∧ '$' ∉ rest := by
  cases v <;> exact ⟨_, rfl, by decide⟩

theorem name_ne_nil (v : Variable) : v.name ≠ [] := by
  obtain ⟨rest, hrest, -⟩ := v.name_mark
  simp [hrest]

/-- A variable whose name begins with the name of another comes before that other one. -/
theorem rank_le_of_name_prefix {v w : Variable} (h : w.name <+: v.name) : v.rank ≤ w.rank := by
  revert v w
  decide

/-- The variable with the longest name that a text begins with. -/
def longest? (s : List Char) : Option Variable :=
  (all.filter (·.name.isPrefixOf s)).argmax (·.name.length)

variable {s : List Char} {v : Variable}

theorem longest?_eq_none (h : longest? s = none) (w : Variable) : ¬ w.name <+: s := by
  rw [longest?, List.argmax_eq_none, List.filter_eq_nil_iff] at h
  simpa using h w w.mem_all

theorem longest?_eq_some (h : longest? s = some v) :
    v.name <+: s ∧ ∀ w : Variable, w.name <+: s → w.name.length ≤ v.name.length := by
  rw [longest?] at h
  have hv := List.argmax_mem h
  constructor
  · simpa using (List.mem_filter.1 hv).2
  · intro w hw
    have hmem : w ∈ all.filter (·.name.isPrefixOf s) :=
      List.mem_filter.2 ⟨w.mem_all, by simpa using hw⟩
    exact List.le_of_mem_argmax (f := fun v => v.name.length) hmem h

end Variable

/-! ## Reading a pattern -/

/-- A piece of a pattern. -/
inductive Token
  | char (c : Char)
  | var (v : Variable)
  deriving DecidableEq, Repr

namespace Token

/-- Read a text from left to right, after `skip` characters of it: the longest variable that stands
at a place, or else its character. -/
def read : Nat → List Char → List Token
  | _, [] => []
  | skip + 1, _ :: s => read skip s
  | 0, c :: s =>
    match Variable.longest? (c :: s) with
    | some v => .var v :: read (v.name.length - 1) s
    | none => .char c :: read 0 s

/-- The text of a pattern with a text for each of its variables. -/
def render (f : Variable → List Char) : List Token → List Char
  | [] => []
  | .char c :: ts => c :: render f ts
  | .var v :: ts => f v ++ render f ts

/-- At every place the longest variable has been read. -/
def Greedy : List Token → Prop
  | [] => True
  | .char c :: ts => (∀ w : Variable, ¬ w.name <+: c :: render Variable.name ts) ∧ Greedy ts
  | .var v :: ts =>
    (∀ w : Variable, w.name <+: v.name ++ render Variable.name ts →
      w.name.length ≤ v.name.length) ∧ Greedy ts

section Read

variable {s : List Char} {skip : Nat}

theorem render_append {f : Variable → List Char} (ts us : List Token) :
    render f (ts ++ us) = render f ts ++ render f us := by
  induction ts with
  | nil => rfl
  | cons t ts ih => cases t <;> simp [render, ih]

theorem render_read : render Variable.name (read skip s) = s.drop skip := by
  induction s generalizing skip with
  | nil => simp [read, render]
  | cons c s ih =>
    cases skip with
    | succ skip => exact ih
    | zero =>
      rw [read]
      cases h : Variable.longest? (c :: s) with
      | none => simp only [render, ih, List.drop_zero]
      | some v =>
        obtain ⟨rest, hrest⟩ := (Variable.longest?_eq_some h).1
        obtain ⟨name, hname, -⟩ := v.name_mark
        rw [hname, List.cons_append, List.cons.injEq] at hrest
        obtain ⟨rfl, rfl⟩ := hrest
        simp [render, ih, hname]

theorem greedy_read : Greedy (read skip s) := by
  induction s generalizing skip with
  | nil => simp [read, Greedy]
  | cons c s ih =>
    cases skip with
    | succ skip => exact ih
    | zero =>
      have hwhole : render Variable.name (read 0 (c :: s)) = c :: s := render_read
      rw [read] at hwhole ⊢
      cases h : Variable.longest? (c :: s) with
      | none =>
        simp only [h, render] at hwhole
        exact ⟨fun w hw => Variable.longest?_eq_none h w (hwhole ▸ hw), ih⟩
      | some v =>
        simp only [h, render] at hwhole
        exact ⟨fun w hw => (Variable.longest?_eq_some h).2 w (hwhole ▸ hw), ih⟩

theorem greedy_of_append {ts us : List Token} (h : Greedy (ts ++ us)) : Greedy us := by
  induction ts with
  | nil => exact h
  | cons t ts ih => cases t <;> exact ih h.2

end Read
end Token

/-- The pieces of a pattern. -/
def tokens (pattern : String) : List Token := Token.read 0 pattern.toList

theorem render_tokens (pattern : String) :
    Token.render Variable.name (tokens pattern) = pattern.toList := Token.render_read

namespace Access

/-- The pattern with the values of its variables in place of them, all at once. -/
def substituted (e : Access) (pattern : String) : String :=
  String.ofList (Token.render (·.value e) (tokens pattern))

end Access

/-! ## One variable after another -/

/-- The texts begin alike, as far as both go. -/
def Alike (s t : List Char) : Prop := s <+: t ∨ t <+: s
  deriving Decidable

/-- No variable that is replaced after `v` can be read in the value of `v`, or from the text before
it into that value. -/
def Apart (e : Access) (before : List Char) (v : Variable) : Prop :=
  ∀ t ∈ (before ++ v.value e).tails, ∀ w : Variable, v.rank < w.rank → t ≠ [] →
    t.length < w.name.length + (v.value e).length → ¬ Alike t w.name
  deriving Decidable

/-- The values can be inserted one after another behind `before`. -/
def Inert (e : Access) : List Char → List Token → Prop
  | _, [] => True
  | before, .char c :: ts => Inert e (before ++ [c]) ts
  | before, .var v :: ts => Apart e before v ∧ Inert e (before ++ v.name) ts

instance decidableInert (e : Access) : (before : List Char) → (ts : List Token) →
    Decidable (Inert e before ts)
  | _, [] => .isTrue trivial
  | before, .char c :: ts => decidableInert e (before ++ [c]) ts
  | before, .var v :: ts =>
    haveI := decidableInert e (before ++ v.name) ts
    inferInstanceAs (Decidable (Apart e before v ∧ Inert e (before ++ v.name) ts))

namespace Token

/-- What stands for a variable before the round `k`. -/
def stage (e : Access) (k : Nat) (v : Variable) : List Char :=
  if v.rank < k then v.value e else v.name

section Rounds

variable {e : Access} {k : Nat} {ts : List Token} {before : List Char}

theorem inert_iff :
    Inert e before ts ↔ ∀ mid v after, ts = mid ++ .var v :: after →
      Apart e (before ++ render Variable.name mid) v := by
  induction ts generalizing before with
  | nil => simp [Inert]
  | cons t ts ih =>
    constructor
    · intro h mid v after hts
      cases mid with
      | nil =>
        obtain ⟨rfl, -⟩ := List.cons.inj hts
        simpa [render] using h.1
      | cons t' mid =>
        obtain ⟨rfl, hrest⟩ := List.cons.inj hts
        cases t with
        | char c => simpa [render] using ih.1 h mid v after hrest
        | var v' => simpa [render] using ih.1 h.2 mid v after hrest
    · intro h
      cases t with
      | char c =>
        exact ih.2 fun mid v after hts => by
          simpa [render] using h (.char c :: mid) v after (by rw [hts]; rfl)
      | var v' =>
        refine ⟨by simpa [render] using h [] v' ts rfl, ih.2 fun mid v after hts => ?_⟩
        simpa [render] using h (.var v' :: mid) v after (by rw [hts]; rfl)

/-- A text that can be read between two rounds has been there from the start, or it goes on into
the value of a variable. -/
theorem prefix_render {t : List Char} (h : t <+: render (stage e k) ts) :
    t <+: render Variable.name ts ∨
      ∃ mid v after, ts = mid ++ .var v :: after ∧ v.rank < k ∧
        (render Variable.name mid).length < t.length ∧
        Alike (render Variable.name mid ++ v.value e) t := by
  induction ts generalizing t with
  | nil => exact .inl h
  | cons token ts ih =>
    cases token with
    | char c =>
      rcases List.prefix_cons_iff.1 h with rfl | ⟨t, rfl, ht⟩
      · exact .inl List.nil_prefix
      rcases ih ht with ht | ⟨mid, v, after, rfl, hv, hlength, halike⟩
      · exact .inl (List.cons_prefix_cons.2 ⟨rfl, ht⟩)
      · refine .inr ⟨.char c :: mid, v, after, rfl, hv, by simpa [render] using hlength, ?_⟩
        simpa [render, Alike, List.cons_prefix_cons] using halike
    | var v =>
      by_cases hv : v.rank < k
      · rw [render, stage, if_pos hv] at h
        rcases List.eq_nil_or_concat t with rfl | ht
        · exact .inl List.nil_prefix
        · refine .inr ⟨[], v, ts, rfl, hv, ?_, ?_⟩
          · obtain ⟨_, _, rfl⟩ := ht
            simp [render]
          · exact List.prefix_or_prefix_of_prefix (List.prefix_append _ _) h
      · rw [render, stage, if_neg hv] at h
        rcases List.prefix_or_prefix_of_prefix h (List.prefix_append _ _) with ht | ⟨t, rfl⟩
        · exact .inl (ht.trans (List.prefix_append _ _))
        rcases ih ((List.prefix_append_right_inj _).1 h) with
          ht | ⟨mid, v', after, rfl, hv', hlength, halike⟩
        · exact .inl ((List.prefix_append_right_inj _).2 ht)
        · refine .inr ⟨.var v :: mid, v', after, rfl, hv', by simpa [render] using hlength, ?_⟩
          simpa [render, Alike, List.append_assoc, List.prefix_append_right_inj] using halike

variable {w : Variable}

/-- Where no value has been inserted, a name can be read only if the pattern has it there. -/
theorem prefix_pattern (hinert : Inert e before ts)
    (hhead : ∀ v, ts.head? = some (.var v) → w.rank ≤ v.rank)
    (h : w.name <+: render (stage e w.rank) ts) : w.name <+: render Variable.name ts := by
  rcases prefix_render h with h | ⟨mid, v, after, rfl, hv, hlength, halike⟩
  · exact h
  have hmid : render Variable.name mid ≠ [] := by
    cases mid with
    | nil => exact absurd (hhead v rfl) (Nat.not_le.2 hv)
    | cons token mid => cases token <;> simp [render, Variable.name_ne_nil]
  refine absurd halike (inert_iff.1 hinert mid v after rfl _ ?_ w hv ?_ ?_)
  · rw [List.mem_tails, List.append_assoc]
    exact List.suffix_append _ _
  · simp [hmid]
  · rw [List.length_append]
    exact Nat.add_lt_add_right hlength _

/-- One round of the replacement. -/
theorem replaceAll_stage (hgreedy : Greedy ts) (hinert : Inert e before ts) :
    Access.replaceAll w.name (w.value e) (render (stage e w.rank) ts) =
      render (stage e (w.rank + 1)) ts := by
  induction ts generalizing before with
  | nil => rfl
  | cons token ts ih =>
    cases token with
    | char c =>
      have hc : ¬ w.name <+: c :: render (stage e w.rank) ts := by
        intro h
        have hpattern : w.name <+: render Variable.name (.char c :: ts) :=
          prefix_pattern hinert (by simp) h
        exact hgreedy.1 w hpattern
      simp only [render]
      rw [Access.replaceAll_cons hc, ih hgreedy.2 hinert]
    | var v =>
      have hrest := ih hgreedy.2 hinert.2
      simp only [render]
      rcases Nat.lt_trichotomy v.rank w.rank with hv | hv | hv
      · -- the value has been inserted, and nothing can be read in it
        rw [stage, if_pos hv, stage, if_pos (Nat.lt_succ_of_lt hv), ← hrest]
        refine Access.replaceAll_append fun u hu hne hname => ?_
        refine hinert.1 u ?_ w hv hne ?_ ?_
        · exact (List.mem_tails _ _).2 (hu.trans (List.suffix_append _ _))
        · have hpos := List.length_pos_iff.2 w.name_ne_nil
          have hle := hu.length_le
          omega
        · exact List.prefix_or_prefix_of_prefix (List.prefix_append _ _) hname
      · -- the variable of this round
        obtain rfl := Variable.rank_injective hv
        rw [stage, if_neg (Nat.lt_irrefl _), stage, if_pos (Nat.lt_succ_self _), ← hrest]
        exact Access.replaceAll_found v.name_ne_nil
      · -- a variable of a later round, which the name is no part of
        have hstage : stage e w.rank v = v.name := if_neg (by omega)
        rw [hstage, stage, if_neg (by omega), ← hrest]
        refine Access.replaceAll_append fun u hu hne hname => ?_
        obtain ⟨name, hv', hdollar⟩ := v.name_mark
        rcases List.suffix_cons_iff.1 (hv' ▸ hu) with rfl | hu
        · rw [← hv'] at hname
          have hpattern : w.name <+: render Variable.name (.var v :: ts) :=
            prefix_pattern hinert (by simpa using hv.le) (by rwa [render, hstage])
          have hle := hgreedy.1 w hpattern
          have hwv := List.prefix_of_prefix_length_le hpattern (List.prefix_append _ _) hle
          exact absurd (Variable.rank_le_of_name_prefix hwv) (by omega)
        · obtain ⟨name', hw', -⟩ := w.name_mark
          obtain ⟨x, u, rfl⟩ := List.exists_cons_of_ne_nil hne
          rw [hw', List.cons_append, List.cons_prefix_cons] at hname
          exact hdollar (hname.1 ▸ hu.subset List.mem_cons_self)

end Rounds
end Token

namespace Access

variable {e : Access} {pattern : String}

/-- The first `k` rounds of the replacement. -/
def afterRounds (e : Access) (pattern : String) (k : Nat) : List Char :=
  (Variable.all.take k).foldl (fun s v => replaceAll v.name (v.value e) s) pattern.toList

theorem expand_eq : e.expand pattern = String.ofList (e.afterRounds pattern Variable.all.length) :=
  rfl

theorem afterRounds_succ (w : Variable) : e.afterRounds pattern (w.rank + 1) =
    replaceAll w.name (w.value e) (e.afterRounds pattern w.rank) := by
  rw [afterRounds, List.take_add_one, w.getElem?_rank, List.foldl_append]
  rfl

/-- No value that is inserted can be read as a variable. -/
def Undisturbed (e : Access) (pattern : String) : Prop := Inert e [] (tokens pattern)
  deriving Decidable

/-- Between two rounds, the variables that have had their turn are replaced and the others are
not. -/
theorem afterRounds_eq (h : e.Undisturbed pattern) {k : Nat} (hk : k ≤ Variable.all.length) :
    e.afterRounds pattern k = Token.render (Token.stage e k) (tokens pattern) := by
  induction k with
  | zero => exact (render_tokens pattern).symm
  | succ k ih =>
    obtain ⟨w, rfl⟩ := Variable.exists_rank_eq hk
    rw [afterRounds_succ, ih (by omega)]
    exact Token.replaceAll_stage Token.greedy_read h

theorem expand_of_undisturbed (h : e.Undisturbed pattern) :
    e.expand pattern = e.substituted pattern := by
  have hstage : Token.stage e Variable.all.length = (·.value e) :=
    funext fun v => if_pos v.rank_lt
  rw [expand_eq, afterRounds_eq h (Nat.le_refl _), hstage, substituted]

/-- A name that no later value has a part in does not occur in the text of an entry. -/
theorem not_infix_expand {w : Variable}
    (h : ∀ v : Variable, w.rank ≤ v.rank → Foreign w.name (v.value e)) :
    ¬ w.name <:+: (e.expand pattern).toList := by
  have hround : ∀ k, w.rank < k → k ≤ Variable.all.length →
      ¬ w.name <:+: e.afterRounds pattern k := by
    intro k hlt
    induction k, hlt using Nat.le_induction with
    | base =>
      intro _
      rw [afterRounds_succ]
      exact not_infix_replaceAll (h w (Nat.le_refl _))
    | succ k hk ih =>
      intro hle hinfix
      obtain ⟨v, rfl⟩ := Variable.exists_rank_eq hle
      rw [afterRounds_succ] at hinfix
      exact ih (by omega) (infix_of_infix_replaceAll v.name_ne_nil (h v (by omega)) hinfix)
  rw [expand_eq, String.toList_ofList]
  exact hround _ w.rank_lt (Nat.le_refl _)

theorem format_eq_expand (h : pattern ∉ ["combined", "common", "json"]) :
    e.format pattern = e.expand pattern := by
  simp only [List.mem_cons, List.not_mem_nil, or_false, not_or] at h
  rw [format] <;> simp_all

end Access

end EdgeCache.Log
