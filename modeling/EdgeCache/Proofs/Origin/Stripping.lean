import EdgeCache.Http.HopByHop
import EdgeCache.Proofs.Variant.Selection
import Mathlib.Data.Multiset.Defs

/-!
# Which fields are passed along

Stripping removes names one after another, first those that the `Connection` fields name and then
the fixed ones.  Two facts carry everything here:

* a name is removed with all its values, so it only matters which names there are, and not in which
  order or how often they are given (`Headers.foldl_remove`);
* `Connection` is itself a fixed name, so nothing is left afterwards that could name anything, and
  a second time changes nothing.

A name is given by a piece between commas of a `Connection` value that is text (`mem_named`).
Rearranging the pieces of a value leaves its bytes the same but for the commas, so a value stays
text that was text (`headerText?_of_perm`).
-/

set_option autoImplicit false

namespace EdgeCache

/-- Removing names one after another leaves the fields that have none of them. -/
theorem Headers.foldl_remove (names : List HeaderName) (h : Headers) :
    names.foldl Headers.remove h = ⟨h.fields.filter fun f => f.1 ∉ names⟩ := by
  induction names generalizing h with
  | nil => cases h; simp
  | cons name names ih =>
    rw [List.foldl_cons, ih]
    simp only [Headers.remove, List.filter_filter, List.mem_cons, not_or, Bool.decide_and,
      Bool.and_comm]

namespace HopByHop

/-! ## What the `Connection` fields name -/

/-- A `Connection` value that is text has the name between commas, in any letter case and with
blanks around it. -/
def Names (h : Headers) (name : HeaderName) : Prop :=
  ∃ value ∈ h.values .connection, headerText? value ≠ none ∧ Vary.Spells value name

/-- The pieces between the commas of a value, in no particular order. -/
def unordered (value : Bytes) : Multiset Bytes := (Bytes.splitOn 0x2C value : Multiset Bytes)

/-- The values are the same but for their order, and that of the pieces in each of them. -/
def Rearranged (values values' : List Bytes) : Prop :=
  (values.map unordered).Perm (values'.map unordered)

theorem namesIn_eq (value : Bytes) :
    namesIn value = (Vary.pieces value).filterMap HeaderName.ofBytes? := by
  rw [namesIn, Vary.pieces]
  cases headerText? value <;> rfl

theorem mem_named {h : Headers} {name : HeaderName} : name ∈ named h ↔ Names h name := by
  simp only [named, List.mem_flatMap, Names, namesIn_eq, Vary.pieces_eq, List.mem_filterMap]
  refine exists_congr fun value => and_congr_right fun _ => ?_
  by_cases htext : headerText? value = none
  · simp [htext]
  · simp only [htext, if_false, List.mem_map, Vary.Spells, ne_eq, not_false_eq_true, true_and,
      exists_exists_and_eq_and]

/-- A value with the pieces of a text is a text. -/
theorem headerText?_of_perm {v w : Bytes}
    (h : (Bytes.splitOn 0x2C v).Perm (Bytes.splitOn 0x2C w)) (hv : headerText? v ≠ none) :
    headerText? w ≠ none := by
  rw [Vary.headerText?_ne_none] at hv ⊢
  intro b hb
  by_cases hcomma : b = 0x2C
  · subst hcomma
    decide
  · obtain ⟨piece, hpiece, hmem⟩ := Bytes.exists_mem_splitOn_iff.2 ⟨hb, hcomma⟩
    exact hv b (Bytes.mem_of_mem_splitOn (h.mem_iff.2 hpiece) hmem)

theorem Names.of_rearranged {h h' : Headers} {name : HeaderName} (hn : Names h name)
    (hr : Rearranged (h.values .connection) (h'.values .connection)) : Names h' name := by
  obtain ⟨v, hv, htext, piece, hpiece, hname⟩ := hn
  obtain ⟨w, hw, hsame⟩ := List.mem_map.1 (hr.subset (List.mem_map_of_mem hv))
  have hperm : (Bytes.splitOn 0x2C v).Perm (Bytes.splitOn 0x2C w) :=
    Multiset.coe_eq_coe.1 hsame.symm
  exact ⟨w, hw, headerText?_of_perm hperm htext, piece, hperm.mem_iff.1 hpiece, hname⟩

/-! ## What is left -/

/-- The fields of the name are not passed along. -/
def Dropped (h : Headers) (name : HeaderName) : Prop := name ∈ fixed ∨ Names h name

theorem mem_dropped {h : Headers} {name : HeaderName} :
    name ∈ named h ++ fixed ↔ Dropped h name := by
  rw [List.mem_append, mem_named, Dropped, or_comm]

theorem values_strip_of_dropped {h : Headers} {name : HeaderName} (hd : Dropped h name) :
    (strip h).values name = [] := by
  rw [strip, Headers.foldl_remove, Headers.values, List.filterMap_eq_nil_iff]
  rintro ⟨n, value⟩ hmem
  have hn : n ∉ named h ++ fixed := by simpa using (List.mem_filter.1 hmem).2
  rw [if_neg]
  rintro rfl
  exact hn (mem_dropped.2 hd)

theorem values_strip_of_not_dropped {h : Headers} {name : HeaderName} (hd : ¬ Dropped h name) :
    (strip h).values name = h.values name := by
  rw [strip, Headers.foldl_remove, Headers.values, Headers.values, List.filterMap_filter]
  refine List.filterMap_congr fun f _ => ?_
  by_cases hf : f.1 = name
  · have hn : f.1 ∉ named h ++ fixed := hf ▸ mt mem_dropped.1 hd
    simp [hn]
  · simp [hf]

/-- Nothing names anything in what is left. -/
theorem not_names_strip (h : Headers) (name : HeaderName) : ¬ Names (strip h) name := by
  rintro ⟨value, hvalue, -⟩
  rw [values_strip_of_dropped (.inl (by decide))] at hvalue
  exact absurd hvalue List.not_mem_nil

theorem strip_strip (h : Headers) : strip (strip h) = strip h := by
  have hnamed : named (strip h) = [] :=
    List.eq_nil_iff_forall_not_mem.2 fun name hname => not_names_strip h name (mem_named.1 hname)
  rw [strip, hnamed, List.nil_append, Headers.foldl_remove]
  -- the fixed names have been removed already
  have hfree : ∀ f ∈ (strip h).fields, f.1 ∉ fixed := by
    intro f hf
    rw [strip, Headers.foldl_remove] at hf
    have hn : f.1 ∉ named h ++ fixed := by simpa using (List.mem_filter.1 hf).2
    exact fun hfixed => hn (List.mem_append_right _ hfixed)
  rw [List.filter_eq_self.2 fun f hf => by simpa using hfree f hf]

/-- **Stripping is exact.**  A name is gone if it is a fixed one or is named by a `Connection` value
that is text, and every other name keeps its values in their order.  A second time changes nothing,
and what is left does not depend on the order of the `Connection` values, nor on that of the names
in them. -/
theorem strip_exact (h : Headers) :
    (∀ name, Dropped h name → (strip h).values name = []) ∧
    (∀ name, ¬ Dropped h name → (strip h).values name = h.values name) ∧
    strip (strip h) = strip h ∧
    ∀ h' : Headers, Rearranged (h.values .connection) (h'.values .connection) →
      (∀ name, name ≠ .connection → h.values name = h'.values name) →
      ∀ name, (strip h).values name = (strip h').values name := by
  refine ⟨fun _ => values_strip_of_dropped, fun _ => values_strip_of_not_dropped, strip_strip h, ?_⟩
  intro h' hr hsame name
  have hdropped : Dropped h name ↔ Dropped h' name :=
    or_congr_right ⟨fun hn => hn.of_rearranged hr, fun hn => hn.of_rearranged hr.symm⟩
  by_cases hd : Dropped h name
  · rw [values_strip_of_dropped hd, values_strip_of_dropped (hdropped.1 hd)]
  · have hne : name ≠ .connection := by
      rintro rfl
      exact hd (.inl (by decide))
    rw [values_strip_of_not_dropped hd, values_strip_of_not_dropped (mt hdropped.2 hd),
      hsame name hne]

/-- The fields of a request with these `Connection` values. -/
def inSession (connection : List String) : Headers :=
  ⟨connection.map (fun value => (.connection, bytes value)) ++
    [(.lit "x-session" (by decide), bytes "abc"), (.lit "x-page" (by decide), bytes "1"),
      (.lit "x-page" (by decide), bytes "2"), (.te, bytes "trailers")]⟩

/-- The session is named in another letter case, and it does not matter where. -/
theorem strip_exact_inSession :
    let h := inSession ["close, X-Session", "keep-alive"]
    let h' := inSession ["keep-alive", " X-Session,close"]
    (strip h).values (.lit "x-session" (by decide)) = [] ∧
      (strip h).values (.lit "x-page" (by decide)) = [bytes "1", bytes "2"] ∧
      strip (strip h) = strip h ∧ ∀ name, (strip h).values name = (strip h').values name := by
  intro h h'
  obtain ⟨hgone, hkept, hagain, horder⟩ := strip_exact h
  have hr : Rearranged (h.values .connection) (h'.values .connection) := by
    have hpieces : unordered (bytes "close, X-Session") = unordered (bytes " X-Session,close") :=
      Multiset.coe_eq_coe.2 (.swap (bytes " X-Session") (bytes "close") [])
    show [unordered (bytes "close, X-Session"), unordered (bytes "keep-alive")].Perm
      [unordered (bytes "keep-alive"), unordered (bytes " X-Session,close")]
    rw [hpieces]
    exact .swap _ _ _
  have hpage : (strip h).values (.lit "x-page" (by decide)) = [bytes "1", bytes "2"] := by
    rw [hkept _ fun hd => hd.elim (by decide) fun hn => absurd (mem_named.2 hn) (by decide)]
    decide
  refine ⟨hgone _ (.inr ?_), hpage, hagain, horder h' hr fun name hne => ?_⟩
  · exact ⟨bytes "close, X-Session", by decide, by decide, bytes " X-Session", by decide, by decide⟩
  · simp [h, h', inSession, Headers.values, hne.symm]

end HopByHop
end EdgeCache
