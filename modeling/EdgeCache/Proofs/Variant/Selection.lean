import EdgeCache.Exchange.World
import EdgeCache.Proofs.Text.Cutting

/-!
# Which requests a variant is for

A response mentions a header if a piece of one of its `Vary` values spells the header's name.  An
entry is meant for the requests that have, under every header its response mentions, the values of
the request it was stored for.

`Entry.answers_iff_read` says which requests it does answer.  A `Vary` value with a byte that is not
visible ASCII, a space or a tab is passed over as a whole, so the headers that only such a value
mentions are not looked at.

For a fixed response the requests fall into classes (`selection_equivalence`), which depend on
nothing but the headers that are looked at, and which get smaller as the response mentions more.
-/

set_option autoImplicit false

namespace EdgeCache

/-! ## Names in `Vary` values -/

namespace Bytes

theorem dropWhile_congr {p q : UInt8 → Bool} {s : Bytes} (h : ∀ b ∈ s, p b = q b) :
    s.dropWhile p = s.dropWhile q := by
  induction s with
  | nil => rfl
  | cons b rest ih =>
    rw [List.dropWhile_cons, List.dropWhile_cons, h b List.mem_cons_self,
      ih fun c hc => h c (List.mem_cons_of_mem _ hc)]

theorem trimBy_congr {p q : UInt8 → Bool} {s : Bytes} (h : ∀ b ∈ s, p b = q b) :
    trimBy p s = trimBy q s := by
  rw [trimBy, trimBy, dropWhile_congr h, dropWhile_congr fun b hb => h b ?_]
  exact (List.dropWhile_sublist q).subset (List.mem_reverse.1 hb)

end Bytes

namespace Vary

/-- The blanks of a field value: space and tab. -/
def isFieldBlank (b : UInt8) : Bool := b == 0x20 || b == 9

/-- A piece of the value between commas is the name, in any letter case and with blanks around
it. -/
def Spells (value : Bytes) (name : HeaderName) : Prop :=
  ∃ piece ∈ Bytes.splitOn 0x2C value,
    HeaderName.ofBytes? (Bytes.trimBy isFieldBlank piece) = some name

/-- A `Vary` value of the response names the header, whatever else is in the value. -/
def Mentions (response : Headers) (name : HeaderName) : Prop :=
  ∃ value ∈ response.values .vary, Spells value name

/-- A `Vary` value of the response names the header, and it is text. -/
def Reads (response : Headers) (name : HeaderName) : Prop :=
  ∃ value ∈ response.values .vary, headerText? value ≠ none ∧ Spells value name

theorem headerText?_ne_none {value : Bytes} :
    headerText? value ≠ none ↔ ∀ b ∈ value, b = 9 ∨ 32 ≤ b ∧ b < 127 := by
  simp [headerText?, Decidable.or_iff_not_imp_left]

/-- In text no other blanks can occur than those of field values. -/
theorem trim_eq {value piece : Bytes} (htext : headerText? value ≠ none)
    (hpiece : piece ∈ Bytes.splitOn 0x2C value) :
    Bytes.trim piece = Bytes.trimBy isFieldBlank piece := by
  refine Bytes.trimBy_congr fun b hb => ?_
  have hvisible := headerText?_ne_none.1 htext b (Bytes.mem_of_mem_splitOn hpiece hb)
  simp only [Bytes.isBlank, isFieldBlank]
  grind

theorem pieces_eq (value : Bytes) :
    pieces value =
      if headerText? value = none then []
      else (Bytes.splitOn 0x2C value).map (Bytes.trimBy isFieldBlank) := by
  rw [pieces]
  split
  · next hnone => rw [if_pos hnone]
  · next text htext =>
    have hne : headerText? value ≠ none := by simp [htext]
    obtain rfl : value = text := by
      rw [headerText?, Option.ite_none_right_eq_some, Option.some.injEq] at htext
      exact htext.2
    rw [if_neg hne]
    exact List.map_congr_left fun piece hpiece => trim_eq hne hpiece

/-- **The headers that are looked at** are those that a value names which is text. -/
theorem mem_names {response : Headers} {name : HeaderName} :
    name ∈ names response ↔ Reads response name := by
  simp only [names, List.mem_filterMap, List.mem_flatMap, Reads, Spells]
  constructor
  · rintro ⟨piece, ⟨value, hvalue, hpiece⟩, hname⟩
    rw [pieces_eq] at hpiece
    split at hpiece
    · exact absurd hpiece (by simp)
    · next htext =>
      obtain ⟨raw, hraw, rfl⟩ := List.mem_map.1 hpiece
      exact ⟨value, hvalue, htext, raw, hraw, hname⟩
  · rintro ⟨value, hvalue, htext, raw, hraw, hname⟩
    refine ⟨_, ⟨value, hvalue, ?_⟩, hname⟩
    rw [pieces_eq, if_neg htext]
    exact List.mem_map_of_mem hraw

theorem Reads.mentions {response : Headers} {name : HeaderName} (h : Reads response name) :
    Mentions response name := by
  obtain ⟨value, hvalue, -, hspells⟩ := h
  exact ⟨value, hvalue, hspells⟩

/-- A header that is mentioned and not looked at stands in a value that is not text. -/
theorem Mentions.reads_or {response : Headers} {name : HeaderName} (h : Mentions response name) :
    Reads response name ∨
      ∃ value ∈ response.values .vary, headerText? value = none ∧ Spells value name := by
  obtain ⟨value, hvalue, hspells⟩ := h
  by_cases htext : headerText? value = none
  · exact .inr ⟨value, hvalue, htext, hspells⟩
  · exact .inl ⟨value, hvalue, htext, hspells⟩

theorem selects_iff {response stored current : Headers} :
    selects response stored current = true ↔
      ∀ name, Reads response name → stored.values name = current.values name := by
  simp [selects, mem_names]

end Vary

/-! ## What an entry answers -/

/-- The request has, under every header that the entry's response mentions, the values of the
request the entry was stored for. -/
def Entry.Suits (e : Entry) (current : Headers) : Prop :=
  ∀ name, Vary.Mentions e.head.headers name → e.requestHeaders.values name = current.values name

/-- **Which requests an entry answers**: those that have the same values under every header that a
`Vary` value names which is text.  They are those that it suits, exactly unless a header with other
values is mentioned in a value that is not text, and nowhere in one that is.  The visit that an
exchange makes to the store accepts the entries that answer its request, and no others. -/
theorem Entry.answers_iff_read (e : Entry) (current : Headers) :
    (e.answers current = true ↔ ∀ name, Vary.Reads e.head.headers name →
      e.requestHeaders.values name = current.values name) ∧
    ((e.answers current = true ↔ e.Suits current) ↔
      ¬ (e.answers current = true ∧ ∃ value ∈ e.head.headers.values .vary,
        headerText? value = none ∧ ∃ name, Vary.Spells value name ∧
          e.requestHeaders.values name ≠ current.values name)) ∧
    ∀ (front : Front) (w : World) (i : Nat) (x : Exchange), x.request.headers = current →
      front.eligible x.request = true →
      ∃ visit, (w.enter front i x).store.visits[w.store.visits.length]? = some visit ∧
        visit.accepts e = e.answers current := by
  have hreads : e.answers current = true ↔ ∀ name, Vary.Reads e.head.headers name →
      e.requestHeaders.values name = current.values name := Vary.selects_iff
  refine ⟨hreads, ⟨?_, fun hkept => ⟨fun hanswers name hmentions => ?_, fun hsuits => ?_⟩⟩, ?_⟩
  · rintro hexact ⟨hanswers, value, hvalue, -, name, hspells, hne⟩
    exact hne (hexact.1 hanswers name ⟨value, hvalue, hspells⟩)
  · rcases hmentions.reads_or with hread | ⟨value, hvalue, htext, hspells⟩
    · exact hreads.1 hanswers name hread
    · exact Decidable.byContradiction fun hne =>
        hkept ⟨hanswers, value, hvalue, htext, name, hspells, hne⟩
  · exact hreads.2 fun name hread => hsuits name hread.mentions
  · rintro front w i x rfl heligible
    simp [World.enter, heligible, Store.begin, World.put]

namespace Headers

/-- The fields of a request in the given language. -/
def inLanguage (language : String) : Headers :=
  Headers.empty.append (.lit "accept-language" (by decide)) (bytes language)

/-- The fields of a request in the given language, with a cookie. -/
def withCookie (language cookie : String) : Headers :=
  (inLanguage language).append (.lit "cookie" (by decide)) (bytes cookie)

end Headers

/-- A response in German that depends on the language, and on something that no header can name. -/
def Entry.german : Entry :=
  { isPublic := true, expiration := ⟨10, 0⟩, requestHeaders := .inLanguage "de"
    head := ⟨.ok, Headers.empty.append .vary (bytes "Accept-Language, größe")⟩, body := none }

/-- It answers a request in English, since its only `Vary` value is passed over. -/
theorem answers_iff_read_german :
    Entry.german.answers (.inLanguage "en") = true ∧
      ∃ visit : Store.Visit, visit.accepts Entry.german = true := by
  let front : Front :=
    { eligible := fun _ => true, policy := fun _ _ now => .ok ⟨true, now⟩
      respond := fun _ _ => .done (.ok .ok) }
  let request : Request :=
    { method := .get, uri := .origin ⟨bytes "/", none⟩, headers := .inLanguage "en" }
  obtain ⟨-, -, hvisit⟩ := Entry.german.answers_iff_read (.inLanguage "en")
  have hanswers : Entry.german.answers (.inLanguage "en") = true := by decide
  obtain ⟨visit, -, haccepts⟩ :=
    hvisit front {} 0 { request, own := .ofChannel 1 } rfl rfl
  exact ⟨hanswers, visit, haccepts.trans hanswers⟩

/-- **An entry that answers a request it does not suit.** -/
theorem german_answers_unsuited :
    ¬ (Entry.german.answers (.inLanguage "en") = true ↔ Entry.german.Suits (.inLanguage "en")) := by
  intro h
  have hsuits : Entry.german.Suits (.inLanguage "en") := h.1 (by decide)
  have hmentions : Vary.Mentions Entry.german.head.headers (.lit "accept-language" (by decide)) :=
    ⟨bytes "Accept-Language, größe", by decide, bytes "Accept-Language", by decide, by decide⟩
  exact absurd (hsuits _ hmentions) (by decide)

/-! ## Classes of requests -/

/-- The entry as it would be stored for a request with these headers and a response with those. -/
def Entry.storedFor (e : Entry) (response request : Headers) : Entry :=
  { e with requestHeaders := request, head := { e.head with headers := response } }

theorem Entry.storedFor_answers {e : Entry} {response request current : Headers} :
    (e.storedFor response request).answers current = true ↔
      ∀ name, Vary.Reads response name → request.values name = current.values name :=
  Vary.selects_iff

theorem Vary.reads_appendAll {response more : Headers} {name : HeaderName} :
    Reads (response.appendAll more) name ↔ Reads response name ∨ Reads more name := by
  simp [Reads, or_and_right, exists_or]

/-- **Requests fall into classes** for a response, by the entries that answer them.  Headers that
are not looked at do not matter, on either side; and further fields of the response, of which only
those of `Vary` count, can split a class and never join two. -/
theorem selection_equivalence (e : Entry) (response : Headers) :
    (Equivalence fun a b => (e.storedFor response a).answers b = true) ∧
    (∀ a a' b b' : Headers,
      (∀ name, Vary.Reads response name →
        a.values name = a'.values name ∧ b.values name = b'.values name) →
      (e.storedFor response a).answers b = (e.storedFor response a').answers b') ∧
    ∀ more a b : Headers, (e.storedFor (response.appendAll more) a).answers b = true →
      (e.storedFor response a).answers b = true := by
  simp only [Entry.storedFor_answers]
  refine ⟨⟨fun a name _ => rfl, fun h name hread => (h name hread).symm,
    fun h h' name hread => (h name hread).trans (h' name hread)⟩, fun a a' b b' hsame => ?_,
    fun more a b h name hread => h name (Vary.reads_appendAll.2 (.inl hread))⟩
  rw [Bool.eq_iff_iff, Entry.storedFor_answers, Entry.storedFor_answers]
  refine forall₂_congr fun name hread => ?_
  rw [(hsame name hread).1, (hsame name hread).2]

/-- Requests with different cookies belong together until the response depends on the cookie. -/
theorem selection_equivalence_cookies :
    let byLanguage := Headers.empty.append .vary (bytes "accept-language")
    let byBoth := byLanguage.append .vary (bytes "Cookie")
    (Entry.german.storedFor byLanguage (.withCookie "de" "1")).answers (.withCookie "de" "2") =
        true ∧
      (Entry.german.storedFor byBoth (.withCookie "de" "1")).answers (.withCookie "de" "2") =
        false := by
  intro byLanguage byBoth
  obtain ⟨hequiv, hsame, -⟩ := selection_equivalence .german byLanguage
  have hnames : Vary.names byLanguage = [.lit "accept-language" (by decide)] := by decide
  refine ⟨?_, by decide⟩
  rw [hsame _ (.inLanguage "de") _ (.inLanguage "de") fun name hread => ?_]
  · exact hequiv.refl _
  · have hname := Vary.mem_names.2 hread
    rw [hnames, List.mem_singleton] at hname
    subst hname
    decide

end EdgeCache
