import EdgeCache.Proofs.Text.Cutting
import EdgeCache.Variant.Key
import EdgeCache.Variant.Policy
import Mathlib.Data.List.TakeDrop
import Mathlib.Data.List.TakeWhile

/-!
# What a cache key tells

A key is method, host, path and canonical query written one after the other, with a blank behind the
method and a question mark before the query, but nothing between host and path.  What can be read
back from it depends on where each part can end:

* a method is a token, so the first blank ends it (`Method.append_inj`);
* a path that was read from a target has no `?` in it, so the first one begins the query
  (`Uri.Readable.path_append_inj`);
* a host taken from a target has no `/` in it, but one taken from a `Host` field is not checked and
  may reach over into what another request has as its path (`Request.Overruns`).

`Request.cacheKey_eq_iff` says exactly which requests share a key.
-/

set_option autoImplicit false

namespace EdgeCache

/-! ## Targets that were read from a text -/

/-- The path that is read ends before the first `#` or `?`. -/
theorem Target.path_of_parse {s : Bytes} {t : Target} (h : Target.parse s = .ok t) :
    t.path = (s.takeWhile (· != 0x23)).takeWhile (· != 0x3F) := by
  have hpath := Bytes.cut_fst 0x3F (Target.beforeFragment s)
  simp only [Target.parse] at h
  split at h
  · cases h
  · split at h
    · cases h
    · obtain rfl := Except.ok.inj h
      exact hpath

theorem Target.mark_notMem_path {s : Bytes} {t : Target} (h : Target.parse s = .ok t) :
    0x3F ∉ t.path := by
  intro hmem
  rw [Target.path_of_parse h] at hmem
  simpa using List.mem_takeWhile_imp hmem

/-- The path of a target begins with a slash when the text does, and is empty when the text is empty
or begins with a query or a fragment. -/
theorem Target.path_eq_nil_or {s : Bytes} {t : Target} (h : Target.parse s = .ok t)
    (hs : ∀ b, s.head? = some b → b = 0x2F ∨ b = 0x3F ∨ b = 0x23) :
    t.path = [] ∨ t.path.head? = some 0x2F := by
  rw [Target.path_of_parse h]
  cases s with
  | nil => exact .inl rfl
  | cons b rest =>
    obtain rfl | rfl | rfl := hs b rfl
    · exact .inr rfl
    · exact .inl rfl
    · exact .inl rfl

theorem Uri.slash_notMem_spanAuthority (s : Bytes) : 0x2F ∉ (Uri.spanAuthority s).1 := by
  intro hmem
  rw [Uri.spanAuthority, List.span_eq_takeWhile_dropWhile] at hmem
  simpa using List.mem_takeWhile_imp hmem

/-- What follows an authority begins with one of the bytes that end it. -/
theorem Uri.head_spanAuthority (s : Bytes) (b : UInt8)
    (hb : (Uri.spanAuthority s).2.head? = some b) : b = 0x2F ∨ b = 0x3F ∨ b = 0x23 := by
  rw [Uri.spanAuthority, List.span_eq_takeWhile_dropWhile] at hb
  have hstop := List.head?_dropWhile_not (fun b : UInt8 => b != 0x2F && b != 0x3F && b != 0x23) s
  rw [hb] at hstop
  simp only [Bool.and_eq_false_iff, bne_eq_false_iff_eq] at hstop
  tauto

/-- A target that `Uri.parse` gives. -/
def Uri.Readable (u : Uri) : Prop := ∃ s, Uri.parse s = .ok u

/-- The bytes that can stand in the parts of a target. -/
inductive Uri.Proper : Uri → Prop
  | origin {t : Target} (hpath : t.path.head? = some 0x2F) (hmark : 0x3F ∉ t.path) :
      Proper (.origin t)
  | asterisk : Proper .asterisk
  | authority {host : Bytes} (hhost : 0x2F ∉ host) : Proper (.authority host)
  | absolute {scheme : Scheme} {host : Bytes} {t : Target} (hhost : 0x2F ∉ host)
      (hpath : t.path = [] ∨ t.path.head? = some 0x2F) (hmark : 0x3F ∉ t.path) :
      Proper (.absolute scheme host t)

/-! What `Uri.parse` can give, one lemma for each form that is read. -/

theorem Uri.parseAbsolute_cases {scheme : Scheme} {s : Bytes} {u : Uri}
    (h : Uri.parseAbsolute scheme s = .ok u) :
    ∃ t, Target.parse (Uri.spanAuthority s).2 = .ok t ∧
      u = .absolute scheme (Uri.spanAuthority s).1 t := by
  simp only [Uri.parseAbsolute] at h
  split at h
  · cases h
  · cases hcheck : Uri.checkAuthority (Uri.spanAuthority s).1 with
    | error e => simp [hcheck, bind, Except.bind] at h
    | ok =>
      simp only [hcheck, bind, Except.bind] at h
      split at h
      · cases h
      · cases htarget : Target.parse (Uri.spanAuthority s).2 with
        | error e => simp [htarget] at h
        | ok t =>
          simp only [htarget, pure, Except.pure, Except.ok.injEq] at h
          exact ⟨t, rfl, h.symm⟩

theorem Uri.parseAuthority_cases {s : Bytes} {u : Uri} (h : Uri.parseAuthority s = .ok u) :
    u = .authority (Uri.spanAuthority s).1 := by
  simp only [Uri.parseAuthority] at h
  cases hcheck : Uri.checkAuthority (Uri.spanAuthority s).1 with
  | error e => simp [hcheck, bind, Except.bind] at h
  | ok =>
    simp only [hcheck, bind, Except.bind, pure, Except.pure] at h
    split at h
    · exact (Except.ok.inj h).symm
    · cases h

theorem Uri.parse_cases {s : Bytes} {u : Uri} (h : Uri.parse s = .ok u) :
    u = .asterisk ∨
    (∃ t, Target.parse s = .ok t ∧ s.head? = some 0x2F ∧ u = .origin t) ∨
    (∃ rest, u = .authority (Uri.spanAuthority rest).1) ∨
    ∃ scheme rest t, Target.parse (Uri.spanAuthority rest).2 = .ok t ∧
      u = .absolute scheme (Uri.spanAuthority rest).1 t := by
  simp only [Uri.parse] at h
  split at h
  · cases h
  split at h
  · cases h
  split at h
  · exact .inl (Except.ok.inj h).symm
  split at h
  next hslash =>
    cases htarget : Target.parse s with
    | error e => simp [htarget, bind, Except.bind] at h
    | ok t =>
      simp only [htarget, bind, Except.bind, pure, Except.pure, Except.ok.injEq] at h
      exact .inr (.inl ⟨t, rfl, hslash, h.symm⟩)
  split at h
  · split at h
    · cases h
    next => exact .inr (.inr (.inl ⟨s, Uri.parseAuthority_cases h⟩))
  · cases hscheme : Uri.splitScheme s with
    | error e => simp [hscheme, bind, Except.bind] at h
    | ok found =>
      simp only [hscheme, bind, Except.bind] at h
      cases found with
      | none => exact .inr (.inr (.inl ⟨s, Uri.parseAuthority_cases h⟩))
      | some p =>
        obtain ⟨t, ht, hu⟩ := Uri.parseAbsolute_cases h
        exact .inr (.inr (.inr ⟨p.1, p.2, t, ht, hu⟩))

theorem Uri.Readable.proper {u : Uri} (h : u.Readable) : u.Proper := by
  obtain ⟨s, hs⟩ := h
  obtain rfl | ⟨t, ht, hslash, rfl⟩ | ⟨rest, rfl⟩ | ⟨scheme, rest, t, ht, rfl⟩ := Uri.parse_cases hs
  · exact .asterisk
  · refine .origin ?_ (Target.mark_notMem_path ht)
    obtain ⟨rest, rfl⟩ := List.head?_eq_some_iff.1 hslash
    rw [Target.path_of_parse ht]
    rfl
  · exact .authority (Uri.slash_notMem_spanAuthority rest)
  · exact .absolute (Uri.slash_notMem_spanAuthority rest)
      (Target.path_eq_nil_or ht (Uri.head_spanAuthority rest)) (Target.mark_notMem_path ht)

namespace Uri.Readable

variable {u : Uri}

theorem mark_notMem_path (h : u.Readable) : 0x3F ∉ u.path := by
  cases h.proper with
  | origin _ hmark => exact hmark
  | asterisk => decide
  | authority => exact List.not_mem_nil
  | @absolute _ _ t _ _ hmark =>
    rw [Uri.path]
    split
    · decide
    · exact hmark

theorem slash_notMem_authority (h : u.Readable) {host : Bytes} (ha : u.authority? = some host) :
    0x2F ∉ host := by
  cases h.proper with
  | origin | asterisk => simp [Uri.authority?] at ha
  | authority hhost => exact Option.some.inj ha ▸ hhost
  | absolute hhost => exact Option.some.inj ha ▸ hhost

/-- A path begins with a slash, except for the two forms of target that have none. -/
theorem path_cases (h : u.Readable) :
    u = .asterisk ∨ (∃ host, u = .authority host) ∨ u.path.head? = some 0x2F := by
  cases h.proper with
  | origin hpath => exact .inr (.inr hpath)
  | asterisk => exact .inl rfl
  | @authority host => exact .inr (.inl ⟨host, rfl⟩)
  | @absolute _ _ t _ hpath _ =>
    refine .inr (.inr ?_)
    rw [Uri.path]
    split
    · rfl
    next hne => exact hpath.resolve_left (by simpa using hne)

theorem path_eq_nil (h : u.Readable) (hpath : u.path = []) : ∃ host, u = .authority host := by
  obtain rfl | hauth | hslash := h.path_cases
  · simp [Uri.path] at hpath
  · exact hauth
  · simp [hpath] at hslash

end Uri.Readable

/-! ## Reading a key back -/

/-- What a query adds to a key is nothing, or begins with a question mark. -/
theorem keyQuery_eq_nil_or (query : Option Bytes) :
    keyQuery query = [] ∨ ∃ q, keyQuery query = 0x3F :: q := by
  unfold keyQuery
  split
  · exact .inl rfl
  · exact .inr ⟨_, rfl⟩

theorem Method.blank_notMem (m : Method) : 0x20 ∉ m.text := by
  intro hmem
  have hall := m.valid
  simp only [isToken, Bool.and_eq_true, List.all_eq_true] at hall
  exact absurd (hall.2 _ hmem) (by decide)

theorem Method.text_inj {m m' : Method} (h : m.text = m'.text) : m = m' := by
  cases m
  cases m'
  cases h
  rfl

/-- Two texts that are each cut at a byte which does not stand before the cut are cut alike. -/
theorem Bytes.append_cons_inj {sep : UInt8} {s s' rest rest' : Bytes} (hs : sep ∉ s)
    (hs' : sep ∉ s') (h : s ++ sep :: rest = s' ++ sep :: rest') : s = s' ∧ rest = rest' := by
  obtain ⟨d, hd, hrest⟩ | ⟨d, hd, hrest⟩ := List.append_eq_append_iff.1 h
  · cases d with
    | nil => simp_all
    | cons b d =>
      obtain ⟨rfl, -⟩ := List.cons.inj hrest
      exact absurd (hd ▸ List.mem_append_right _ List.mem_cons_self) hs'
  · cases d with
    | nil => simp_all
    | cons b d =>
      obtain ⟨rfl, -⟩ := List.cons.inj hrest
      exact absurd (hd ▸ List.mem_append_right _ List.mem_cons_self) hs

namespace Request

/-- What a key has after the host: the path, and what the query adds. -/
def place (r : Request) : Bytes := r.uri.path ++ keyQuery r.uri.query

/-- Both requests are for the same host, path and canonical query. -/
def SameResource (a b : Request) : Prop :=
  a.host = b.host ∧ a.uri.path = b.uri.path ∧ keyQuery a.uri.query = keyQuery b.uri.query

/-- The host of `b` is the host of `a` and then some of what `a` has as path and query; the rest of
that is what `b` has. -/
def Overruns (a b : Request) : Prop :=
  ∃ d, d ≠ [] ∧ b.host = a.host ++ d ∧ a.place = d ++ b.place

theorem cacheKey_eq (r : Request) : r.cacheKey = r.method.text ++ 0x20 :: (r.host ++ r.place) := by
  simp [cacheKey, place]

variable {a b : Request}

/-- The first question mark ends the path, so path and query can be told apart. -/
theorem place_inj (ha : a.uri.Readable) (hb : b.uri.Readable) (h : a.place = b.place) :
    a.uri.path = b.uri.path ∧ keyQuery a.uri.query = keyQuery b.uri.query := by
  have hmarkA := ha.mark_notMem_path
  have hmarkB := hb.mark_notMem_path
  simp only [place] at h
  obtain hqa | ⟨qa, hqa⟩ := keyQuery_eq_nil_or a.uri.query <;>
    obtain hqb | ⟨qb, hqb⟩ := keyQuery_eq_nil_or b.uri.query <;>
    rw [hqa, hqb] at h ⊢
  · exact ⟨by simpa using h, rfl⟩
  · simp only [List.append_nil] at h
    exact absurd (h ▸ List.mem_append_right _ List.mem_cons_self) hmarkA
  · simp only [List.append_nil] at h
    exact absurd (h ▸ List.mem_append_right _ List.mem_cons_self) hmarkB
  · obtain ⟨hpath, hquery⟩ := Bytes.append_cons_inj hmarkA hmarkB h
    exact ⟨hpath, by rw [hquery]⟩

/-- Host and what follows it are the same text for both exactly when the requests are for the same
resource or the host of one reaches over into the path of the other. -/
theorem host_place_eq_iff (ha : a.uri.Readable) (hb : b.uri.Readable) :
    a.host ++ a.place = b.host ++ b.place ↔ a.SameResource b ∨ a.Overruns b ∨ b.Overruns a := by
  constructor
  · intro h
    by_cases hhost : a.host = b.host
    · rw [hhost] at h
      exact .inl ⟨hhost, place_inj ha hb (List.append_cancel_left h)⟩
    · obtain ⟨d, hd, hplace⟩ | ⟨d, hd, hplace⟩ := List.append_eq_append_iff.1 h
      · refine .inr (.inl ⟨d, ?_, hd, hplace⟩)
        rintro rfl
        exact hhost (by simpa using hd.symm)
      · refine .inr (.inr ⟨d, ?_, hd, hplace⟩)
        rintro rfl
        exact hhost (by simpa using hd)
  · rintro (⟨hhost, hpath, hquery⟩ | ⟨d, -, hhost, hplace⟩ | ⟨d, -, hhost, hplace⟩)
    · simp only [place, hhost, hpath, hquery]
    · rw [hhost, hplace, List.append_assoc]
    · rw [hhost, hplace, List.append_assoc]

/-- A host can reach over only if it comes from a `Host` field that has a slash in it, or if it is
an authority that ends in the asterisk which is the other request's whole target. -/
theorem Overruns.cases (ha : a.uri.Readable) (hb : b.uri.Readable) (h : a.Overruns b) :
    (b.uri.authority? = none ∧ 0x2F ∈ b.host) ∨
      (a.uri = .asterisk ∧ b.uri = .authority (a.host ++ [0x2A])) := by
  obtain ⟨d, hd, hhost, hplace⟩ := h
  obtain ⟨x, d, rfl⟩ := List.exists_cons_of_ne_nil hd
  obtain hstar | ⟨host, hauth⟩ | hslash := ha.path_cases
  · have hplaceA : a.place = [0x2A] := by rw [place, hstar]; rfl
    obtain ⟨rfl, hrest⟩ := List.cons.inj (hplaceA ▸ hplace)
    obtain ⟨rfl, hplaceB⟩ := List.append_eq_nil_iff.1 hrest.symm
    obtain ⟨host, hauth⟩ := hb.path_eq_nil (List.append_eq_nil_iff.1 hplaceB).1
    refine .inr ⟨hstar, ?_⟩
    rw [hauth, ← hhost, Request.host, hauth]
    rfl
  · simp [place, hauth, Uri.path, Uri.query, keyQuery] at hplace
  · obtain ⟨rest, hrest⟩ := List.head?_eq_some_iff.1 hslash
    have hx : x = 0x2F := by
      rw [place, hrest] at hplace
      exact (List.cons.inj hplace).1.symm
    have hmem : 0x2F ∈ b.host := by
      rw [hhost, hx]
      exact List.mem_append_right _ List.mem_cons_self
    refine .inl ⟨?_, hmem⟩
    cases hauthority : b.uri.authority? with
    | none => rfl
    | some host =>
      have hb' : b.host = host := by rw [Request.host, hauthority]
      exact absurd (hb' ▸ hmem) (hb.slash_notMem_authority hauthority)

/-- A request is not for the resource whose path its own host runs into. -/
theorem SameResource.not_overruns (h : a.SameResource b) : ¬ a.Overruns b := by
  rintro ⟨d, hd, hhost, -⟩
  rw [← h.1] at hhost
  exact hd (by simpa using hhost)

theorem SameResource.symm (h : a.SameResource b) : b.SameResource a :=
  ⟨h.1.symm, h.2.1.symm, h.2.2.symm⟩

/-- The blank behind the method ends it, so method and the rest can be told apart. -/
theorem method_eq_of_cacheKey_eq (h : a.cacheKey = b.cacheKey) :
    a.method = b.method ∧ a.host ++ a.place = b.host ++ b.place := by
  rw [cacheKey_eq, cacheKey_eq] at h
  obtain ⟨hmethod, hrest⟩ := Bytes.append_cons_inj a.method.blank_notMem b.method.blank_notMem h
  exact ⟨Method.text_inj hmethod, hrest⟩

/-- **Which requests share a key.**  Those with the same method, host, path and canonical query, and
those of one method where the host of one is the host of the other and then a beginning of the
other's path.  The two ways exclude each other, and the second needs a `Host` field with a slash in
it, or an authority that ends in the asterisk the other request consists of. -/
theorem cacheKey_eq_iff (ha : a.uri.Readable) (hb : b.uri.Readable) :
    (a.cacheKey = b.cacheKey ↔
        a.method = b.method ∧ (a.SameResource b ∨ a.Overruns b ∨ b.Overruns a)) ∧
      (a.SameResource b → ¬ a.Overruns b ∧ ¬ b.Overruns a) ∧
      (a.Overruns b → (b.uri.authority? = none ∧ 0x2F ∈ b.host) ∨
        (a.uri = .asterisk ∧ b.uri = .authority (a.host ++ [0x2A]))) := by
  refine ⟨?_, fun h => ⟨h.not_overruns, h.symm.not_overruns⟩, Overruns.cases ha hb⟩
  rw [← host_place_eq_iff ha hb]
  refine ⟨method_eq_of_cacheKey_eq, ?_⟩
  rintro ⟨hmethod, hrest⟩
  rw [cacheKey_eq, cacheKey_eq, hmethod, hrest]

/-- A request to the host `h` for `/x/y`. -/
def toHost : Request :=
  { method := .get, uri := .origin ⟨bytes "/x/y", none⟩, headers := ⟨[(.host, bytes "h")]⟩ }

/-- A request to the host `h/x` for `/y`. -/
def intoHost : Request :=
  { method := .get, uri := .origin ⟨bytes "/y", none⟩, headers := ⟨[(.host, bytes "h/x")]⟩ }

theorem cacheKey_eq_iff_intoHost :
    toHost.uri.Readable ∧ intoHost.uri.Readable ∧ toHost.Overruns intoHost ∧
      toHost.cacheKey = intoHost.cacheKey ∧ ¬ toHost.SameResource intoHost ∧
      0x2F ∈ intoHost.host := by
  have hto : toHost.uri.Readable := ⟨bytes "/x/y", by with_unfolding_all rfl⟩
  have hinto : intoHost.uri.Readable := ⟨bytes "/y", by with_unfolding_all rfl⟩
  have hover : toHost.Overruns intoHost := ⟨bytes "/x", by decide⟩
  obtain ⟨hkey, hsame, hslash⟩ := cacheKey_eq_iff hto hinto
  refine ⟨hto, hinto, hover, hkey.2 ⟨rfl, .inr (.inl hover)⟩, fun h => (hsame h).1 hover, ?_⟩
  exact (hslash hover).elim (·.2) fun h => absurd h.1 (by decide)

/-- Two requests that go through the cache and have the same key, though they are for different
paths on different hosts. -/
theorem cacheKey_twoHosts :
    ofParts (bytes "GET") (bytes "/x/y") [(bytes "host", bytes "h")] [] = .ok toHost ∧
    ofParts (bytes "GET") (bytes "/y") [(bytes "host", bytes "h/x")] [] = .ok intoHost ∧
    Eligibility.safeMethods true toHost = true ∧ Eligibility.safeMethods true intoHost = true ∧
    toHost.cacheKey = intoHost.cacheKey ∧
    toHost.host ≠ intoHost.host ∧ toHost.uri.path ≠ intoHost.uri.path := by
  refine ⟨by with_unfolding_all rfl, by with_unfolding_all rfl, ?_, ?_, ?_, ?_, ?_⟩ <;> decide

end Request
end EdgeCache
