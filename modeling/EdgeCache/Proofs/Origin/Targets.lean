import EdgeCache.Origin.Proxy
import EdgeCache.Proofs.Variant.Queries
import EdgeCache.Proofs.Variant.Keys

/-!
# Where a proxy sends a request

A proxy writes the path of its base before the target of a request, and reads the whole as a target
again.  That this gives back what was put together rests on what a target can hold once it has been
read: `Target.Sound` says which bytes stand in its parts and that they are UTF-8.  Reading gives
only sound targets (`Target.sound_of_parse`), and reads back every sound one that is written out
(`Target.Sound.parse_text`); and a sound target stays sound with a path in front
(`Target.Sound.prepend`).

Two things are in the way of the new target being the old one with another beginning.  A text may be
too long to be read as a target, and a target may have been written without a path, as in
`http://host?query`: its path is `/`, but no slash is written (`Uri.Pathless`).
-/

set_option autoImplicit false

namespace EdgeCache

/-! ## What can stand in a target -/

namespace Target

theorem isPathByte.not_special {b : UInt8} (h : isPathByte b = true) : b ≠ 0x23 ∧ b ≠ 0x3F := by
  constructor <;> rintro rfl <;> exact absurd h (by decide)

theorem isQueryByte.not_hash {b : UInt8} (h : isQueryByte b = true) : b ≠ 0x23 := by
  rintro rfl
  exact absurd h (by decide)

/-- Path and query have only bytes that may stand in them, and are UTF-8. -/
structure Sound (t : Target) : Prop where
  path : ∀ b ∈ t.path, isPathByte b = true
  query : ∀ q, t.query = some q → ∀ b ∈ q, isQueryByte b = true
  valid : Utf8.valid t.text = true

theorem text_cut (s : Bytes) :
    (⟨(Bytes.cut 0x3F s).1, (Bytes.cut 0x3F s).2⟩ : Target).text = s := by
  by_cases hmark : 0x3F ∈ s
  · obtain ⟨path, query, rfl, hpath⟩ := List.eq_append_cons_of_mem hmark
    rw [Bytes.cut_append_cons query hpath]
    rfl
  · rw [Bytes.cut_of_notMem hmark]
    exact List.append_nil s

/-- **Reading gives sound targets.** -/
theorem sound_of_parse {s : Bytes} {t : Target} (h : Target.parse s = .ok t) : t.Sound := by
  have htext := text_cut (beforeFragment s)
  simp only [Target.parse] at h
  generalize Bytes.cut 0x3F (beforeFragment s) = parts at h htext
  split at h
  · cases h
  next hbytes =>
  split at h
  · cases h
  next hvalid =>
    obtain rfl := Except.ok.inj h
    simp only [Bool.or_eq_true, Bool.not_eq_eq_eq_not, Bool.not_true, not_or, Bool.not_eq_false,
      List.all_eq_true] at hbytes hvalid
    refine ⟨hbytes.1, fun q hq b hb => hbytes.2 b ?_, htext.symm ▸ hvalid⟩
    rw [show parts.2 = some q from hq]
    exact hb

namespace Sound

variable {t : Target}

theorem hash_notMem_text (h : t.Sound) : 0x23 ∉ t.text := by
  intro hmem
  obtain hpath | hquery := List.mem_append.1 hmem
  · exact (isPathByte.not_special (h.path _ hpath)).1 rfl
  · cases hq : t.query with
    | none => simp [hq] at hquery
    | some q =>
      rw [hq] at hquery
      obtain hmark | hq' := List.mem_cons.1 hquery
      · exact absurd hmark (by decide)
      · exact isQueryByte.not_hash (h.query q hq _ hq') rfl

theorem cut_text (h : t.Sound) : Bytes.cut 0x3F t.text = (t.path, t.query) := by
  have hmark : 0x3F ∉ t.path := fun hmem => (isPathByte.not_special (h.path _ hmem)).2 rfl
  rw [text]
  cases t.query with
  | none => rw [List.append_nil, Bytes.cut_of_notMem hmark]
  | some q => rw [Bytes.cut_append_cons q hmark]

/-- **A sound target is read back.** -/
theorem parse_text (h : t.Sound) : Target.parse t.text = .ok t := by
  have hfragment : beforeFragment t.text = t.text := by
    rw [beforeFragment, List.takeWhile_eq_self_iff]
    intro b hb
    have hne : b ≠ 0x23 := fun hhash => h.hash_notMem_text (hhash ▸ hb)
    simpa using hne
  have hquery : (t.query.getD []).all isQueryByte = true := by
    cases hq : t.query with
    | none => rfl
    | some q => exact List.all_eq_true.2 (h.query q hq)
  simp only [Target.parse, hfragment, h.cut_text, List.all_eq_true.2 h.path, hquery, h.valid,
    Bool.not_true, Bool.or_self, Bool.false_eq_true, if_false]

theorem valid_path (h : t.Sound) : Utf8.valid t.path = true := by
  have hvalid := h.valid
  rw [text] at hvalid
  cases hq : t.query with
  | none => simpa [hq] using hvalid
  | some q =>
    rw [hq] at hvalid
    exact Utf8.valid_of_append_cons (by decide) hvalid

/-- A path in front of a sound target. -/
theorem prepend (h : t.Sound) {stem : Bytes} (hstem : ∀ b ∈ stem, isPathByte b = true)
    (hvalid : Utf8.valid stem = true) :
    (⟨stem ++ t.path, t.query⟩ : Target).Sound ∧
      (⟨stem ++ t.path, t.query⟩ : Target).text = stem ++ t.text := by
  have htext : (⟨stem ++ t.path, t.query⟩ : Target).text = stem ++ t.text := by
    simp only [text, List.append_assoc]
  refine ⟨⟨fun b hb => ?_, h.query, ?_⟩, htext⟩
  · exact (List.mem_append.1 hb).elim (hstem b) (h.path b)
  · rw [htext]
    exact Utf8.valid_append hvalid h.valid

end Sound

/-- The target `/`. -/
theorem sound_slash : (⟨[0x2F], none⟩ : Target).Sound where
  path b hb := by
    obtain rfl : b = 0x2F := List.mem_singleton.1 hb
    decide
  query := by simp
  valid := Utf8.valid_of_ascii fun b hb => by
    obtain rfl : b = 0x2F := List.mem_singleton.1 hb
    decide

end Target

/-! ## Targets of requests -/

namespace Uri

/-- Path and query of the two forms that have them. -/
def target? : Uri → Option Target
  | origin t | absolute _ _ t => some t
  | asterisk | authority _ => none

/-- A query is written, and nothing before it. -/
def Pathless (u : Uri) : Prop := u.pathAndQuery.head? = some 0x3F

/-- A target that begins with a slash is read back as the origin form. -/
theorem parse_text {t : Target} (h : t.Sound) (hslash : t.path.head? = some 0x2F)
    (hlength : t.text.length ≤ maxUriLength) : Uri.parse t.text = .ok (.origin t) := by
  have hhead : t.text.head? = some 0x2F := by
    rw [Target.text, List.head?_append, hslash]
    rfl
  obtain ⟨rest, hrest⟩ := List.head?_eq_some_iff.1 hhead
  have hparse := h.parse_text
  rw [hrest] at hparse hlength ⊢
  simp only [Uri.parse, if_neg (Nat.not_lt.2 hlength), List.isEmpty_cons, Bool.false_eq_true,
    if_false, List.cons.injEq, List.head?_cons, if_true, hparse, bind, Except.bind, pure,
    Except.pure]
  simp

namespace Readable

variable {u : Uri} {t : Target}

theorem sound (h : u.Readable) (ht : u.target? = some t) : t.Sound := by
  obtain ⟨s, hs⟩ := h
  obtain rfl | ⟨t', ht', -, rfl⟩ | ⟨rest, rfl⟩ | ⟨scheme, rest, t', ht', rfl⟩ := Uri.parse_cases hs
  · simp [target?] at ht
  · exact Option.some.inj ht ▸ Target.sound_of_parse ht'
  · simp [target?] at ht
  · exact Option.some.inj ht ▸ Target.sound_of_parse ht'

/-- What is written and read of a target that may be empty, or without a path. -/
theorem written_eq (h : u.Readable) (ht : u.target? = some t) :
    u.pathAndQuery = (if t.text.isEmpty then [0x2F] else t.text) ∧
      u.path = (if t.path.isEmpty then [0x2F] else t.path) ∧ u.query = t.query := by
  cases h.proper with
  | @origin t' hpath =>
    obtain rfl : t' = t := Option.some.inj ht
    obtain ⟨rest, hrest⟩ := List.head?_eq_some_iff.1 hpath
    have hne : t'.path.isEmpty = false := by rw [hrest]; rfl
    have hne' : t'.text.isEmpty = false := by rw [Target.text, hrest]; rfl
    rw [hne, hne']
    exact ⟨rfl, rfl, rfl⟩
  | asterisk | authority => simp [target?] at ht
  | absolute =>
    obtain rfl := Option.some.inj ht
    exact ⟨rfl, rfl, rfl⟩

theorem path_ne_nil (h : u.Readable) (ht : u.target? = some t) : u.path ≠ [] := by
  rw [(h.written_eq ht).2.1]
  split
  · exact List.cons_ne_nil _ _
  next hne => simpa using hne

/-- **What is written is a sound target**, with the path and the query of the request, unless the
path is not written. -/
theorem exists_sound (h : u.Readable) (ht : u.target? = some t) :
    ∃ shown : Target, shown.Sound ∧ shown.text = u.pathAndQuery ∧ shown.query = u.query ∧
      (shown.path = u.path ∨ u.Pathless ∧ shown.path = [] ∧ u.path = [0x2F]) := by
  obtain ⟨hwritten, hpath, hquery⟩ := h.written_eq ht
  by_cases hnil : t.text = []
  · obtain ⟨hp, hq⟩ := List.append_eq_nil_iff.1 hnil
    refine ⟨⟨[0x2F], none⟩, Target.sound_slash, ?_, ?_, .inl ?_⟩
    · rw [hwritten, hnil]
      rfl
    · rw [hquery]
      cases hq' : t.query with
      | none => rfl
      | some q => simp [hq'] at hq
    · rw [hpath, hp]
      rfl
  · rw [if_neg (by simpa using hnil)] at hwritten
    refine ⟨t, h.sound ht, hwritten.symm, hquery.symm, ?_⟩
    cases hp : t.path with
    | cons b rest =>
      rw [hp] at hpath
      exact .inl hpath.symm
    | nil =>
      refine .inr ⟨?_, rfl, by rw [hpath, hp]; rfl⟩
      rw [Pathless, hwritten, Target.text, hp]
      cases hq : t.query with
      | none => exact absurd (by rw [Target.text, hp, hq]; rfl) hnil
      | some q => rfl

end Readable

end Uri

/-! ## The mapping -/

namespace Proxy

variable {p : Proxy} {u : Uri}

/-- What is accepted as a base is read as the base. -/
theorem parse_of_ofUrl {url : String} (h : Proxy.ofUrl url = .ok p) :
    Uri.parse (bytes url) = .ok p.base := by
  rw [ofUrl] at h
  split at h
  · cases h
  next heq =>
    obtain rfl := Except.ok.inj h
    exact heq
  · cases h

/-- What is put in front of a target may stand there. -/
theorem sound_stem (h : p.target.Sound) :
    (∀ b ∈ p.stem, Target.isPathByte b = true) ∧ Utf8.valid p.stem = true := by
  obtain ⟨⟨tail, htail, happend⟩, -⟩ := Bytes.trimEndBy_append (· == 0x2F) p.base.path
  rw [← stem] at happend
  have hbase : (∀ b ∈ p.base.path, Target.isPathByte b = true) ∧ Utf8.valid p.base.path = true := by
    rw [base, Uri.path]
    split
    · exact ⟨Target.sound_slash.path, Target.sound_slash.valid_path⟩
    · exact ⟨h.path, h.valid_path⟩
  refine ⟨fun b hb => hbase.1 b (happend ▸ List.mem_append_left _ hb), ?_⟩
  cases tail with
  | nil => simpa [happend] using hbase.2
  | cons b tail =>
    obtain rfl : b = 0x2F := by simpa using htail b List.mem_cons_self
    exact Utf8.valid_of_append_cons (by decide) (happend ▸ hbase.2)

/-- **Path and query are preserved.**  For a base that is accepted and a request for a path, the new
target has the scheme and the authority of the base, the base's path without the slashes at its end
and then the path of the request, and the query of the request, as long as this is not too long to
be a target.  Nothing else of the request matters.  The path is left out of account where the
request does not write it and there is one to put in front. -/
theorem mapped_of_readable {url : String} {t : Target} (hp : Proxy.ofUrl url = .ok p)
    (hu : u.Readable) (ht : u.target? = some t) :
    Uri.parse (bytes url) = .ok (.absolute .http p.host p.target) ∧
    (∃ n, p.base.path = p.stem ++ List.replicate n 0x2F ∧ p.stem.getLast? ≠ some 0x2F) ∧
    ((p.stem ++ u.pathAndQuery).length ≤ maxUriLength →
      ∃ target, p.mapped u = .ok (.absolute .http p.host target) ∧
        (Uri.absolute .http p.host target).query = u.query ∧
        (p.stem = [] ∨ ¬ u.Pathless →
          (Uri.absolute .http p.host target).path = p.stem ++ u.path)) ∧
    (maxUriLength < (p.stem ++ u.pathAndQuery).length →
      p.mapped u = .error (.invalidUpstream "uri too long")) ∧
    ∀ u' : Uri, u'.Readable → u'.target? = u.target? → p.mapped u' = p.mapped u := by
  have hbase := parse_of_ofUrl hp
  refine ⟨hbase, ?_, fun hshort => ?_, fun hlong => ?_, fun u' hu' hsame => ?_⟩
  · obtain ⟨⟨tail, htail, happend⟩, hlast⟩ := Bytes.trimEndBy_append (· == 0x2F) p.base.path
    refine ⟨tail.length, ?_, fun hslash => by simpa using hlast _ hslash⟩
    rw [← List.eq_replicate_iff.2 ⟨rfl, fun b hb => by simpa using htail b hb⟩]
    exact happend
  · have hstem := sound_stem (Uri.Readable.sound ⟨_, hbase⟩ rfl)
    obtain ⟨shown, hsound, htext, hquery, hpath⟩ := hu.exists_sound ht
    obtain ⟨hnew, hnewText⟩ := hsound.prepend hstem.1 hstem.2
    have hparse := hnew.parse_text
    rw [hnewText, htext] at hparse
    refine ⟨⟨p.stem ++ shown.path, shown.query⟩, ?_, hquery, fun hwritten => ?_⟩
    · simp only [mapped, if_neg (Nat.not_lt.2 hshort), hparse]
    · rw [Uri.path]
      obtain hsame | ⟨hpathless, hnil, hslash⟩ := hpath
      · rw [hsame, if_neg (by simp [hu.path_ne_nil ht])]
      · have hempty : p.stem = [] := hwritten.resolve_right (· hpathless)
        rw [hnil, hempty, hslash]
        rfl
  · simp only [mapped, if_pos hlong, UriError.message]
  · obtain ⟨hwritten, -⟩ := hu.written_eq ht
    obtain ⟨hwritten', -⟩ := hu'.written_eq (hsame.trans ht)
    simp only [mapped, hwritten, hwritten']

/-- A base with slashes at its end and a query of its own. -/
theorem mapped_of_readable_slashes :
    ∃ p u target, Proxy.ofUrl "http://o:80/api//?x" = .ok p ∧
      Uri.parse (bytes "https://other/p//q?a=?") = .ok u ∧
      p.mapped u = .ok (.absolute .http (bytes "o:80") target) ∧
      (Uri.absolute .http (bytes "o:80") target).path = bytes "/api/p//q" ∧
      (Uri.absolute .http (bytes "o:80") target).query = some (bytes "a=?") := by
  let p : Proxy := ⟨bytes "o:80", ⟨bytes "/api//", some (bytes "x")⟩⟩
  let t : Target := ⟨bytes "/p//q", some (bytes "a=?")⟩
  let u : Uri := .absolute .https (bytes "other") t
  have hp : Proxy.ofUrl "http://o:80/api//?x" = .ok p := by with_unfolding_all rfl
  have hu : Uri.parse (bytes "https://other/p//q?a=?") = .ok u := by with_unfolding_all rfl
  obtain ⟨-, -, hshort, -⟩ := mapped_of_readable hp ⟨_, hu⟩ (t := t) rfl
  obtain ⟨target, hmapped, hquery, hpath⟩ := hshort (by decide)
  have hwritten : ¬ u.Pathless := by
    rw [Uri.Pathless]
    decide
  exact ⟨p, u, target, hp, hu, hmapped, hpath (.inr hwritten), hquery⟩

/-- The path `/x/x…/x` of so many names. -/
def names (n : Nat) : Target := ⟨(List.replicate n (bytes "/x")).flatten, none⟩

theorem length_names (n : Nat) : (names n).text.length = n * 2 := by
  rw [Target.text, names, List.append_nil, List.length_flatten, List.map_replicate,
    List.sum_replicate_nat]
  rfl

theorem sound_names (n : Nat) : (names n).Sound := by
  have hbytes : ∀ b ∈ (names n).path, b = 0x2F ∨ b = 0x78 := by
    intro b hb
    obtain ⟨piece, hpiece, hmem⟩ := List.mem_flatten.1 hb
    rw [List.eq_of_mem_replicate hpiece] at hmem
    rw [show bytes "/x" = [0x2F, 0x78] by decide] at hmem
    simpa using hmem
  refine ⟨fun b hb => ?_, fun q hq => absurd hq (by simp [names]),
    Utf8.valid_of_ascii fun b hb => ?_⟩
  · obtain rfl | rfl := hbytes b hb <;> decide
  · rw [Target.text, show (names n).query = none from rfl, List.append_nil] at hb
    obtain rfl | rfl := hbytes b hb <;> decide

/-- **A target that leaves no room for the path of the base**: it is the longest that can be
read. -/
theorem mapped_longest :
    ∃ p u, Proxy.ofUrl "http://h/api" = .ok p ∧ Uri.parse (names 32767).text = .ok u ∧
      u.target? = some (names 32767) ∧
      p.mapped u = .error (.invalidUpstream "uri too long") := by
  let p : Proxy := ⟨bytes "h", ⟨bytes "/api", none⟩⟩
  have hlength := length_names 32767
  have hparse : Uri.parse (names 32767).text = .ok (.origin (names 32767)) :=
    Uri.parse_text (sound_names _) rfl (Nat.le_of_eq hlength)
  refine ⟨p, _, by with_unfolding_all rfl, hparse, rfl, ?_⟩
  have hlong : maxUriLength < (p.stem ++ (Uri.origin (names 32767)).pathAndQuery).length := by
    rw [List.length_append, Uri.pathAndQuery, hlength]
    decide
  rw [mapped, if_pos hlong]
  rfl

end Proxy

end EdgeCache
