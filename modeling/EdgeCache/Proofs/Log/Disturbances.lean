import EdgeCache.Proofs.Log.Patterns
import EdgeCache.Proofs.Log.Values

/-!
# Values that disturb a pattern

Some patterns give the text that is meant for every entry, and these are described here without an
entry (`Secure`).  None of their variables but the last one may stand for a text that comes from
outside, since such a text can itself be a variable.  Of the values that do not come from outside
only a day can complete a name, that of the other time.

Each pattern of another kind is disturbed by an entry that is given here (`Access.repeating`,
`Access.ofDay`): the text that is meant has a name in it, and the text that is written has not,
since its round has removed it (`Access.not_infix_expand`).
-/

set_option autoImplicit false

namespace EdgeCache.Log

/-! ## Patterns that no entry can disturb -/

namespace Variable

/-- Whether the value is any text, and is searched for other variables after it has been
inserted. -/
def exposed (v : Variable) : Bool :=
  v ∈ [remoteAddr, requestMethod, requestUri, request, httpReferer, httpUserAgent]

/-- The value of a variable is found in the text, if the variable is in the pattern. -/
theorem value_infix_render {f : Variable → List Char} {ts : List Token} {v : Variable}
    (h : .var v ∈ ts) : f v <:+: Token.render f ts := by
  obtain ⟨mid, after, rfl⟩ := List.append_of_mem h
  rw [Token.render_append, Token.render]
  exact ⟨_, _, List.append_assoc ..⟩

theorem plain_value {v w : Variable} (e : Access) (h : ¬ v.exposed) (hvw : v.rank < w.rank) :
    Plain (v.value e) := by
  cases v with
  | timeLocal => exact plain_common _
  | timeIso => exact plain_iso _
  | requestTime => exact plain_seconds _
  | status => exact .toString _
  | bodyBytesSent => exact .toString _
  | cacheStatus => exact absurd w.rank_lt (Nat.not_lt.2 hvw)
  | remoteAddr | requestMethod | requestUri | request | httpReferer | httpUserAgent =>
    exact absurd (by decide) h

end Variable

/-- The values of the variables in the pattern are not texts that come from outside, and no time
completes the name of the other time. -/
structure Secure (pattern : String) : Prop where
  generated : ∀ v : Variable, .var v ∈ tokens pattern → ¬ v.exposed
  zero : ¬ "$time_iso86$time_local".toList <:+: pattern.toList
  one : ¬ "$time_iso860$time_local".toList <:+: pattern.toList

namespace Secure

variable {pattern : String}

/-- Only the name of one of the times has digits in it, so only the other one, which is replaced
before, could complete it. -/
theorem completed {e : Access} {v w : Variable} {m : List Char} (hv : ¬ v.exposed)
    (hvw : v.rank < w.rank) (hlength : m.length < w.name.length)
    (h : Alike (m ++ v.value e) w.name) :
    v = .timeLocal ∧ (m = "$time_iso86".toList ∨ m = "$time_iso860".toList) := by
  obtain ⟨x, rest, hvalue, hx⟩ := (v.plain_value e hv hvw).head
  have hprefix : m ++ [x] <+: m ++ v.value e := by simp [hvalue]
  have hname : m ++ [x] <+: w.name := by
    rcases h with h | h
    · exact hprefix.trans h
    · exact List.prefix_of_prefix_length_le hprefix h (by simp; omega)
  have hmem : x ∈ w.name := hname.subset (by simp)
  have hw : w = .timeIso := by
    have hdigits : ∀ w : Variable, w ≠ .timeIso →
        w.name.all fun c => ¬ (c.isDigit = true ∨ c ∈ ['+', '-', 'N']) := by decide
    refine of_not_not fun hne => ?_
    have hplain := List.all_eq_true.1 (hdigits w hne) x hmem
    exact of_decide_eq_true hplain hx
  subst hw
  have hbefore : ∀ v : Variable, ¬ v.exposed → v.rank < Variable.timeIso.rank → v = .timeLocal := by
    decide
  obtain rfl := hbefore v hv hvw
  refine ⟨rfl, ?_⟩
  obtain ⟨x', rest', hvalue', hx'⟩ := head_common e.time
  obtain ⟨rfl, -⟩ := List.cons.inj (hvalue.symm.trans hvalue')
  have hplaces : ∀ n < 13,
      (Variable.timeIso.name.take (n + 1)).getLast?.any (· ∈ ['0', '1', '2', '3']) →
      (Variable.timeIso.name.take (n + 1)).dropLast = "$time_iso86".toList ∨
        (Variable.timeIso.name.take (n + 1)).dropLast = "$time_iso860".toList := by decide
  have htake : m ++ [x] = Variable.timeIso.name.take (m.length + 1) := by
    simpa using List.prefix_iff_eq_take.1 hname
  simpa [← htake] using hplaces m.length hlength (by simpa [← htake] using hx')

theorem apart (h : Secure pattern) (e : Access) {mid after : List Token} {v : Variable}
    (hv : tokens pattern = mid ++ .var v :: after) :
    Apart e (Token.render Variable.name mid) v := by
  intro t ht w hvw hne hlength halike
  have hexposed : ¬ v.exposed := h.generated v (by simp [hv])
  rcases List.suffix_or_suffix_of_suffix ((List.mem_tails _ _).1 ht)
    (List.suffix_append _ (v.value e)) with hsuffix | ⟨m, rfl⟩
  · -- a name does not begin in a value that has no dollar sign
    obtain ⟨name, hname, -⟩ := w.name_mark
    obtain ⟨x, t, rfl⟩ := List.exists_cons_of_ne_nil hne
    rw [hname] at halike
    have hx : x = '$' := halike.elim (fun h => (List.cons_prefix_cons.1 h).1)
      fun h => (List.cons_prefix_cons.1 h).1.symm
    have hdollar := (v.plain_value e hexposed hvw).dollar
    exact hdollar (hx ▸ hsuffix.subset List.mem_cons_self)
  · obtain ⟨z, hz⟩ := (List.mem_tails _ _).1 ht
    rw [← List.append_assoc, List.append_cancel_right_eq] at hz
    obtain ⟨rfl, hm⟩ := completed hexposed hvw (by simpa using hlength) halike
    have hinfix : m ++ Variable.timeLocal.name <:+: pattern.toList := by
      rw [← render_tokens, hv, Token.render_append, Token.render, ← hz]
      exact ⟨z, Token.render Variable.name after, by simp⟩
    rcases hm with rfl | rfl
    · exact h.zero hinfix
    · exact h.one hinfix

theorem undisturbed (h : Secure pattern) (e : Access) : e.Undisturbed pattern :=
  Token.inert_iff.2 fun _ _ _ hv => h.apart e hv

end Secure

/-! ## Entries that disturb the other patterns -/

namespace Token

variable {ts : List Token} {s t : List Char}

/-- A place with a dollar sign is one that a piece of the pattern begins at. -/
theorem exists_suffix_of_dollar (h : '$' :: s <:+ render Variable.name ts) :
    ∃ us, us <:+ ts ∧ render Variable.name us = '$' :: s := by
  induction ts with
  | nil => exact absurd (List.suffix_nil.1 h) (by simp)
  | cons token ts ih =>
    by_cases hrest : '$' :: s <:+ render Variable.name ts
    · obtain ⟨us, hus, heq⟩ := ih hrest
      exact ⟨us, hus.trans (List.suffix_cons token ts), heq⟩
    refine ⟨token :: ts, List.suffix_refl _, ?_⟩
    cases token with
    | char c => exact ((List.suffix_cons_iff.1 h).resolve_right hrest).symm
    | var v =>
      obtain ⟨name, hname, hdollar⟩ := v.name_mark
      rw [render, hname, List.cons_append] at h ⊢
      refine ((List.suffix_cons_iff.1 h).resolve_right fun h => ?_).symm
      rcases List.suffix_or_suffix_of_suffix h (List.suffix_append name _) with h | ⟨z, hz⟩
      · exact hrest h
      cases z with
      | nil => exact hrest (by rw [← hz]; exact List.suffix_refl _)
      | cons d z =>
        obtain ⟨rfl, -⟩ := List.cons.inj hz
        obtain ⟨z', hz'⟩ := h
        rw [← hz, ← List.append_assoc, List.append_cancel_right_eq] at hz'
        exact hdollar (by simp [← hz'])

/-- A text that no name begins in is read as its characters. -/
theorem exists_eq_chars (hgreedy : Greedy ts) (h : render Variable.name ts = t ++ s)
    (hnone : ∀ u ∈ t.tails, u ≠ [] → ∀ w : Variable, ¬ w.name <+: u ++ s) :
    ∃ us, ts = t.map .char ++ us ∧ render Variable.name us = s := by
  induction t generalizing ts with
  | nil => exact ⟨ts, rfl, h⟩
  | cons c t ih =>
    have hc := hnone (c :: t) (by simp) (by simp)
    cases ts with
    | nil => simp [render] at h
    | cons token ts =>
      cases token with
      | char d =>
        obtain ⟨rfl, hrest⟩ := List.cons.inj h
        obtain ⟨us, rfl, hus⟩ :=
          ih hgreedy.2 hrest fun u hu => hnone u (by simp [(List.mem_tails _ _).1 hu])
        exact ⟨us, rfl, hus⟩
      | var v =>
        rw [render] at h
        exact absurd (h ▸ List.prefix_append _ _) (hc v)

/-- A name that neither begins with another nor is the beginning of another is read as its
variable. -/
theorem exists_eq_var {v : Variable} (hgreedy : Greedy ts)
    (h : render Variable.name ts = v.name ++ s) (hv : ∀ w : Variable, Alike v.name w.name → w = v) :
    ∃ us, ts = .var v :: us := by
  cases ts with
  | nil => simp [render, v.name_ne_nil] at h
  | cons token ts =>
    cases token with
    | char c =>
      rw [render] at h
      exact absurd (h ▸ List.prefix_append _ _) (hgreedy.1 v)
    | var w =>
      rw [render] at h
      have halike := List.prefix_or_prefix_of_prefix (List.prefix_append v.name s)
        (h ▸ List.prefix_append w.name (render Variable.name ts))
      exact ⟨ts, by rw [hv w halike]⟩

/-- Behind a text that does not go on with it, the name of the local time is read as the
variable. -/
theorem exists_eq_timeLocal (hgreedy : Greedy ts)
    (hnone : ∀ u ∈ t.tails, u ≠ [] →
      ∀ w : Variable, ¬ Alike w.name (u ++ Variable.timeLocal.name))
    (h : render Variable.name ts = t ++ (Variable.timeLocal.name ++ s)) :
    ∃ us, ts = t.map .char ++ .var .timeLocal :: us := by
  have hchars : ∀ u ∈ t.tails, u ≠ [] →
      ∀ w : Variable, ¬ w.name <+: u ++ (Variable.timeLocal.name ++ s) := by
    intro u hu hne w hw
    rw [← List.append_assoc] at hw
    exact hnone u hu hne w (List.prefix_or_prefix_of_prefix hw (List.prefix_append _ _))
  obtain ⟨us, rfl, hus⟩ := exists_eq_chars hgreedy h hchars
  obtain ⟨us, rfl⟩ := exists_eq_var (greedy_of_append hgreedy) hus (by decide)
  exact ⟨us, rfl⟩

theorem render_chars {f : Variable → List Char} :
    render f (t.map .char ++ ts) = t ++ render f ts := by
  induction t with
  | nil => rfl
  | cons c t ih => simp [render, ih]

end Token

namespace Access

variable {pattern : String}

/-- An entry in which each text is the name of the variable that is replaced last. -/
def repeating : Access where
  remoteAddr := "$cache_status"
  time := ⟨⟨1717200000, 0⟩, 0⟩
  method := "$cache_status"
  path := "$cache_status"
  referer := some "$cache_status"
  userAgent := some "$cache_status"

/-- An entry of a day of June 2024.  Its numbers begin with a digit that no name has. -/
def ofDay (day : Nat) : Access where
  time := ⟨⟨1717113600 + 86400 * day, 0⟩, 0⟩
  bodyBytes := 2
  requestTime := 2000000

theorem Foreign.of_head {w : Variable} {value : List Char} (hhead : value.head?.any (· ∉ w.name))
    (hdollar : '$' ∉ value) : Foreign w.name value := by
  obtain ⟨name, hname, -⟩ := w.name_mark
  cases value with
  | nil => simp at hhead
  | cons c rest => exact ⟨⟨c, rest, rfl, by simpa using hhead⟩, ⟨'$', name, hname, hdollar⟩⟩

section Disturbed

variable (hcustom : pattern ∉ ["combined", "common", "json"])
  (h : ∀ e : Access, e.format pattern = e.substituted pattern)

include hcustom h

theorem not_exposed_of_substitutes {v : Variable} (hv : .var v ∈ tokens pattern) :
    ¬ v.exposed := by
  intro hexposed
  have hvalues : ∀ v : Variable, v.exposed → Variable.cacheStatus.name <:+: v.value repeating := by
    decide
  have hinfix : Variable.cacheStatus.name <:+: (repeating.expand pattern).toList := by
    rw [← format_eq_expand hcustom, h, substituted, String.toList_ofList]
    exact (hvalues v hexposed).trans (Variable.value_infix_render hv)
  refine not_infix_expand (fun v hv => ?_) hinfix
  obtain rfl : v = .cacheStatus := by
    revert v
    decide
  exact ⟨⟨'-', [], rfl, by decide⟩, ⟨'$', _, rfl, by decide⟩⟩

omit hcustom h in
/-- The local time stands behind what stands before it in the pattern. -/
theorem infix_substituted {e : Access} {m : List Char}
    (hnone : ∀ u ∈ ('$' :: m).tails, u ≠ [] →
      ∀ w : Variable, ¬ Alike w.name (u ++ Variable.timeLocal.name))
    (hm : '$' :: m ++ Variable.timeLocal.name <:+: pattern.toList) :
    '$' :: m ++ e.time.common.toList <:+: (e.substituted pattern).toList := by
  obtain ⟨x, y, hxy⟩ := hm
  rw [← render_tokens, List.append_assoc] at hxy
  obtain ⟨us, hus, htext⟩ := Token.exists_suffix_of_dollar ⟨x, hxy⟩
  obtain ⟨before, hbefore⟩ := hus
  have hall : Token.Greedy (before ++ us) := hbefore ▸ Token.greedy_read
  have hgreedy : Token.Greedy us := Token.greedy_of_append hall
  obtain ⟨after, rfl⟩ := Token.exists_eq_timeLocal hgreedy hnone
    (htext.trans (List.append_assoc ('$' :: m) Variable.timeLocal.name y))
  rw [substituted, String.toList_ofList, ← hbefore, Token.render_append, Token.render_chars,
    Token.render]
  exact ⟨_, _, by simp only [List.append_assoc]; rfl⟩

theorem not_completed_of_substitutes {e : Access} {m : List Char}
    (hnone : ∀ u ∈ ('$' :: m).tails, u ≠ [] →
      ∀ w : Variable, ¬ Alike w.name (u ++ Variable.timeLocal.name))
    (hname : Variable.timeIso.name <+: '$' :: m ++ e.time.common.toList)
    (hvalues : ∀ v : Variable, Variable.timeIso.rank ≤ v.rank →
      (v.value e).head?.any (· ∉ Variable.timeIso.name) ∧ '$' ∉ v.value e) :
    ¬ '$' :: m ++ Variable.timeLocal.name <:+: pattern.toList := by
  intro hm
  have hinfix : Variable.timeIso.name <:+: (e.expand pattern).toList := by
    rw [← format_eq_expand hcustom, h]
    exact hname.isInfix.trans (infix_substituted hnone hm)
  exact not_infix_expand (fun v hv => .of_head (hvalues v hv).1 (hvalues v hv).2) hinfix

theorem secure_of_substitutes : Secure pattern where
  generated _ := not_exposed_of_substitutes hcustom h
  zero := not_completed_of_substitutes (e := ofDay 1) (m := "time_iso86".toList) hcustom h
    (by decide) (by decide) (by decide)
  one := not_completed_of_substitutes (e := ofDay 10) (m := "time_iso860".toList) hcustom h
    (by decide) (by decide) (by decide)

end Disturbed

/-! ## What a pattern gives -/

/-- A pattern of one's own gives the text that is meant for each entry that does not disturb it, and
for all entries if and only if it is secure. -/
theorem format_eq_substituted_iff (hcustom : pattern ∉ ["combined", "common", "json"]) :
    (∀ e : Access, e.Undisturbed pattern → e.format pattern = e.substituted pattern) ∧
      ((∀ e : Access, e.format pattern = e.substituted pattern) ↔ Secure pattern) := by
  have hundisturbed : ∀ e : Access, e.Undisturbed pattern →
      e.format pattern = e.substituted pattern := fun e h =>
    (format_eq_expand hcustom).trans (expand_of_undisturbed h)
  exact ⟨hundisturbed, fun h => secure_of_substitutes hcustom h,
    fun h e => hundisturbed e (h.undisturbed e)⟩

theorem format_eq_substituted_agent :
    "$http_user_agent: $status" ∉ ["combined", "common", "json"] ∧
      { ofDay 1 with userAgent := some "costs $5" }.format "$http_user_agent: $status" =
        { ofDay 1 with userAgent := some "costs $5" }.substituted "$http_user_agent: $status" :=
  ⟨by decide, (format_eq_substituted_iff (by decide)).1 _ (by decide)⟩

/-- A client that calls itself by the name of a variable is written down as the value of it. -/
theorem format_ne_substituted_repeating :
    repeating.format "$http_user_agent" = "-" ∧
      repeating.substituted "$http_user_agent" = "$cache_status" := by decide

end Access

end EdgeCache.Log
