import EdgeCache.Log.Access

/-!
# Replacing every occurrence of a name

A search replaces an occurrence and goes on behind it.  What it does is said here without the bound
on the number of characters: it does nothing to the empty text (`Access.replaceAll_nil`), replaces
an occurrence at the beginning (`Access.replaceAll_found`), and passes over a character that no
occurrence begins with (`Access.replaceAll_cons`).  `Access.search_induction` is the induction that
goes with these.

A value that shares neither its beginning with the name nor the name's beginning with itself leaves
no new occurrence behind (`Access.not_infix_replaceAll`).
-/

set_option autoImplicit false

namespace EdgeCache.Log.Access

/-! ## One step of the search -/

theorem dropStart?_eq_some {start s rest : List Char} :
    dropStart? start s = some rest ↔ s = start ++ rest := by
  induction start generalizing s with
  | nil => simp [dropStart?]
  | cons a start ih =>
    cases s with
    | nil => simp [dropStart?]
    | cons c s =>
      by_cases hac : a = c
      · simp [dropStart?, hac, ih]
      · simp [dropStart?, hac, Ne.symm hac]

theorem dropStart?_eq_none {start s : List Char} :
    dropStart? start s = none ↔ ¬ start <+: s := by
  rw [Option.eq_none_iff_forall_ne_some]
  constructor
  · rintro h ⟨rest, rfl⟩
    exact h rest (dropStart?_eq_some.2 rfl)
  · rintro h rest hrest
    exact h ⟨rest, (dropStart?_eq_some.1 hrest).symm⟩

section Replacing

variable {name value s rest : List Char} {c : Char}

/-- The search does not depend on the fuel, if there is enough of it. -/
theorem replaceWith_eq (hname : name ≠ []) {fuel fuel' : Nat} (h : s.length ≤ fuel)
    (h' : s.length ≤ fuel') :
    replaceWith name value fuel s = replaceWith name value fuel' s := by
  induction fuel generalizing fuel' s with
  | zero =>
    obtain rfl := List.length_eq_zero_iff.1 (Nat.le_zero.1 h)
    cases fuel' <;> rfl
  | succ fuel ih =>
    cases s with
    | nil => cases fuel' <;> rfl
    | cons c s =>
      rw [List.length_cons] at h h'
      obtain ⟨fuel', rfl⟩ : ∃ k, fuel' = k + 1 := ⟨fuel' - 1, by omega⟩
      simp only [replaceWith]
      cases hd : dropStart? name (c :: s) with
      | none => simp only [ih (Nat.le_of_succ_le_succ h) (Nat.le_of_succ_le_succ h')]
      | some rest =>
        have hlength := congrArg List.length (dropStart?_eq_some.1 hd)
        have hpos := List.length_pos_iff.2 hname
        rw [List.length_append, List.length_cons] at hlength
        have hrest : replaceWith name value fuel rest = replaceWith name value fuel' rest :=
          ih (by omega) (by omega)
        simp only [hrest]

theorem replaceAll_nil : replaceAll name value [] = [] := rfl

theorem replaceAll_found (hname : name ≠ []) :
    replaceAll name value (name ++ rest) = value ++ replaceAll name value rest := by
  obtain ⟨c, s, rfl⟩ := List.exists_cons_of_ne_nil hname
  rw [List.cons_append, replaceAll, List.length_cons, replaceWith,
    dropStart?_eq_some.2 (List.cons_append ..).symm]
  simp only [replaceAll]
  rw [replaceWith_eq hname (Nat.le_refl _)]
  simp

theorem replaceAll_cons (h : ¬ name <+: c :: s) :
    replaceAll name value (c :: s) = c :: replaceAll name value s := by
  rw [replaceAll, List.length_cons, replaceWith, dropStart?_eq_none.2 h]
  rfl

/-- Induction along the search for a name. -/
theorem search_induction {P : List Char → Prop} (hname : name ≠ []) (nil : P [])
    (found : ∀ rest, P rest → P (name ++ rest))
    (cons : ∀ c s, ¬ name <+: c :: s → P s → P (c :: s)) (s : List Char) : P s := by
  induction hn : s.length using Nat.strongRecOn generalizing s with
  | ind n ih =>
    subst hn
    cases s with
    | nil => exact nil
    | cons c s =>
      by_cases h : name <+: c :: s
      · obtain ⟨rest, hrest⟩ := h
        rw [← hrest]
        refine found rest (ih rest.length ?_ rest rfl)
        have hpos := List.length_pos_iff.2 hname
        rw [← hrest, List.length_append]
        omega
      · exact cons c s h (ih s.length (Nat.lt_succ_self _) s rfl)

/-! ## What a replacement leaves -/

/-- A text that the name nowhere begins in is left as it is. -/
theorem replaceAll_append {t : List Char}
    (h : ∀ u, u <:+ t → u ≠ [] → ¬ name <+: u ++ s) :
    replaceAll name value (t ++ s) = t ++ replaceAll name value s := by
  induction t with
  | nil => rfl
  | cons c t ih =>
    have hc : ¬ name <+: c :: (t ++ s) := h (c :: t) (List.suffix_refl _) (by simp)
    rw [List.cons_append, replaceAll_cons hc, ih fun u hu => h u (hu.trans (List.suffix_cons c t)),
      List.cons_append]

/-- No occurrence of the one can overlap with the other. -/
structure Foreign (name value : List Char) : Prop where
  head : ∃ c rest, value = c :: rest ∧ c ∉ name
  mark : ∃ c rest, name = c :: rest ∧ c ∉ value

/-- What a replacement leaves at the beginning of a text has been there before. -/
theorem prefix_of_prefix_replaceAll {m : List Char} (hname : name ≠ [])
    (hvalue : ∃ c rest, value = c :: rest ∧ c ∉ m) (h : m <+: replaceAll name value s) :
    m <+: s := by
  obtain ⟨x, value', rfl, hx⟩ := hvalue
  induction s using search_induction hname generalizing m with
  | nil => rwa [replaceAll_nil] at h
  | found rest _ =>
    rw [replaceAll_found hname, List.cons_append] at h
    rcases List.prefix_cons_iff.1 h with rfl | ⟨m', rfl, -⟩
    · exact List.nil_prefix
    · exact absurd List.mem_cons_self hx
  | cons c s hc ih =>
    rw [replaceAll_cons hc] at h
    rcases List.prefix_cons_iff.1 h with rfl | ⟨m', rfl, hm'⟩
    · exact List.nil_prefix
    · exact List.cons_prefix_cons.2 ⟨rfl, ih (fun hx' => hx (List.mem_cons_of_mem _ hx')) hm'⟩

theorem infix_of_infix_append {m t : List Char} (hmark : ∃ c rest, m = c :: rest ∧ c ∉ t)
    (h : m <:+: t ++ s) : m <:+: s := by
  obtain ⟨d, m, rfl, hd⟩ := hmark
  induction t with
  | nil => exact h
  | cons c t ih =>
    rw [List.mem_cons, not_or] at hd
    rcases List.infix_cons_iff.1 h with hp | hi
    · exact absurd (List.cons_prefix_cons.1 hp).1 hd.1
    · exact ih hd.2 hi

/-- A text that occurs after a replacement has occurred before it, where the name did not begin. -/
theorem prefix_of_infix_replaceAll {m : List Char} (hname : name ≠ [])
    (hforeign : Foreign m value) (h : m <:+: replaceAll name value s) :
    ∃ t, t <:+ s ∧ m <+: t ∧ ¬ name <+: t := by
  have hm : m ≠ [] := by
    obtain ⟨d, m', rfl, -⟩ := hforeign.mark
    simp
  induction s using search_induction hname with
  | nil =>
    rw [replaceAll_nil, List.infix_nil] at h
    exact absurd h hm
  | found rest ih =>
    rw [replaceAll_found hname] at h
    obtain ⟨t, ht, hp, hno⟩ := ih (infix_of_infix_append hforeign.mark h)
    exact ⟨t, ht.trans (List.suffix_append name rest), hp, hno⟩
  | cons c s hc ih =>
    have hreplaced : replaceAll name value (c :: s) = c :: replaceAll name value s :=
      replaceAll_cons hc
    rw [hreplaced] at h
    rcases List.infix_cons_iff.1 h with hp | hi
    · rw [← hreplaced] at hp
      exact ⟨c :: s, List.suffix_refl _, prefix_of_prefix_replaceAll hname hforeign.head hp, hc⟩
    · obtain ⟨t, ht, hp, hno⟩ := ih hi
      exact ⟨t, ht.trans (List.suffix_cons c s), hp, hno⟩

theorem infix_of_infix_replaceAll {m : List Char} (hname : name ≠ []) (hforeign : Foreign m value)
    (h : m <:+: replaceAll name value s) : m <:+: s := by
  obtain ⟨t, ht, hp, -⟩ := prefix_of_infix_replaceAll hname hforeign h
  exact hp.isInfix.trans ht.isInfix

/-- After the replacement of a name it is gone. -/
theorem not_infix_replaceAll (hforeign : Foreign name value) :
    ¬ name <:+: replaceAll name value s := by
  have hname : name ≠ [] := by
    obtain ⟨d, name', rfl, -⟩ := hforeign.mark
    simp
  intro h
  obtain ⟨t, -, hp, hno⟩ := prefix_of_infix_replaceAll hname hforeign h
  exact hno hp

end Replacing

end EdgeCache.Log.Access
