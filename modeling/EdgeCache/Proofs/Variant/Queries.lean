import EdgeCache.Proofs.Text.Cutting
import EdgeCache.Proofs.Text.Utf8
import EdgeCache.Variant.Key
import Mathlib.Tactic.IntervalCases

/-!
# What a canonical query tells

A canonical query holds the parameters of a query and nothing else.  Two arguments meet in this:

* *Writing can be undone.*  A written name or value has neither `&` nor `=` in it
  (`mem_encode`), and each escape is read as the byte that it was written for, so the parameters of
  `render ps` are those of `ps` (`pairs_render`).  They are texts already, and reading does not
  change them (`Utf8.repaired_repaired`).
* *Sorting is determined by the values under each name.*  It keeps their order
  (`valuesOf_sortByName`), and a list that is sorted by name is put together from its values in one
  way only (`eq_of_valuesOf_eq`).

So the canonical query is the same exactly when every name has the same values in the same order
(`canonical_eq_iff`), and `Request.cacheKey_eq_iff_valuesOf` says so of the keys.
-/

set_option autoImplicit false

namespace EdgeCache

/-! ## The order of names -/

namespace Bytes

theorem lexLt_iff (s t : Bytes) : lexLt s t = true ↔ s < t := by
  induction s generalizing t with
  | nil => cases t <;> simp [lexLt]
  | cons a s ih =>
    cases t with
    | nil => simp [lexLt]
    | cons b t => simp [lexLt, List.cons_lt_cons_iff, ih]

theorem lexLe_iff (s t : Bytes) : lexLe s t = true ↔ s ≤ t := by
  rw [lexLe, Bool.not_eq_true', ← Bool.not_eq_true, lexLt_iff]
  exact List.not_lt

end Bytes

namespace Query

/-! ## Reading undoes writing -/

theorem hexValue?_hexDigit {n : Nat} (h : n < 16) :
    Bytes.hexValue? (Bytes.hexDigit n) = some n := by
  interval_cases n <;> rfl

theorem isPlain_hexDigit {n : Nat} (h : n < 16) : isPlain (Bytes.hexDigit n) = true := by
  interval_cases n <;> rfl

/-- A plain byte is read as itself: it neither stands for a space nor begins an escape. -/
theorem isPlain.not_special {b : UInt8} (h : isPlain b = true) : b ≠ 0x2B ∧ b ≠ 0x25 := by
  constructor <;> rintro rfl <;> exact absurd h (by decide)

theorem percentDecode_cons {b : UInt8} (rest : Bytes) (h : b ≠ 0x25) :
    percentDecode (b :: rest) = b :: percentDecode rest := by
  rw [percentDecode]
  exact fun _ _ _ hb => absurd hb h

theorem percentDecode_escape (b : UInt8) (rest : Bytes) :
    percentDecode (0x25 :: Bytes.hexDigit (b.toNat / 16) :: Bytes.hexDigit (b.toNat % 16) :: rest) =
      b :: percentDecode rest := by
  have hb : b.toNat < 256 := b.toNat_lt
  have hdigits : b.toNat / 16 * 16 + b.toNat % 16 = b.toNat := by omega
  rw [percentDecode, hexValue?_hexDigit (by omega), hexValue?_hexDigit (by omega)]
  simp only [hdigits, Nat.toUInt8_eq, UInt8.ofNat_toNat]

theorem decodeBytes_encodeByte (b : UInt8) (rest : Bytes) :
    decodeBytes (encodeByte b ++ rest) = b :: decodeBytes rest := by
  have hdigit : ∀ n, n < 16 → Bytes.hexDigit n ≠ 0x2B := fun n hn =>
    (isPlain.not_special (isPlain_hexDigit hn)).1
  have hb : b.toNat < 256 := b.toNat_lt
  unfold encodeByte decodeBytes plusToSpace
  split
  next hplain =>
    obtain ⟨hplus, hpercent⟩ := isPlain.not_special hplain
    simp only [List.singleton_append, List.map_cons, if_neg hplus]
    exact percentDecode_cons _ hpercent
  next =>
  split
  next hspace =>
    subst hspace
    simp only [List.singleton_append, List.map_cons, if_true]
    exact percentDecode_cons _ (by decide)
  next =>
    simp only [List.cons_append, List.nil_append, List.map_cons,
      if_neg (hdigit (b.toNat / 16) (by omega)), if_neg (hdigit (b.toNat % 16) (by omega))]
    exact percentDecode_escape b _

/-- What is written is read back. -/
theorem decodeBytes_encode (s : Bytes) : decodeBytes (encode s) = s := by
  induction s with
  | nil => simp [encode, decodeBytes, plusToSpace, percentDecode]
  | cons b s ih => rw [encode, List.flatMap_cons, decodeBytes_encodeByte, ← encode, ih]

/-- The bytes that a name or a value is written with. -/
theorem mem_encode {s : Bytes} {b : UInt8} (h : b ∈ encode s) :
    isPlain b = true ∨ b = 0x2B ∨ b = 0x25 := by
  obtain ⟨c, -, hb⟩ := List.mem_flatMap.1 h
  have hc : c.toNat < 256 := c.toNat_lt
  unfold encodeByte at hb
  split at hb
  next hplain =>
    obtain rfl := List.mem_singleton.1 hb
    exact .inl hplain
  next =>
  split at hb
  · exact .inr (.inl (List.mem_singleton.1 hb))
  · simp only [List.mem_cons, List.not_mem_nil, or_false] at hb
    obtain rfl | rfl | rfl := hb
    · exact .inr (.inr rfl)
    · exact .inl (isPlain_hexDigit (by omega))
    · exact .inl (isPlain_hexDigit (by omega))

theorem ampersand_notMem_encode (s : Bytes) : 0x26 ∉ encode s := fun h =>
  absurd (mem_encode h) (by decide)

theorem equals_notMem_encode (s : Bytes) : 0x3D ∉ encode s := fun h =>
  absurd (mem_encode h) (by decide)

/-- One parameter as it is written. -/
def piece (p : Bytes × Bytes) : Bytes := encode p.1 ++ 0x3D :: encode p.2

theorem render_eq (ps : List (Bytes × Bytes)) : render ps = Bytes.joinWith 0x26 (ps.map piece) :=
  rfl

theorem ampersand_notMem_piece (p : Bytes × Bytes) : 0x26 ∉ piece p := by
  simp [piece, ampersand_notMem_encode]

theorem rawPairs_render (ps : List (Bytes × Bytes)) :
    rawPairs (render ps) = ps.map fun p => (encode p.1, encode p.2) := by
  cases ps with
  | nil => rfl
  | cons p ps =>
    have hsplit : Bytes.splitOn 0x26 (render (p :: ps)) = (p :: ps).map piece := by
      rw [render_eq]
      refine Bytes.splitOn_joinWith (by simp) fun q hq => ?_
      obtain ⟨p', -, rfl⟩ := List.mem_map.1 hq
      exact ampersand_notMem_piece p'
    have hfilter : ((p :: ps).map piece).filter (fun piece => !piece.isEmpty) =
        (p :: ps).map piece := by
      refine List.filter_eq_self.2 fun q hq => ?_
      obtain ⟨p', -, rfl⟩ := List.mem_map.1 hq
      simp [piece]
    rw [rawPairs, hsplit, hfilter, List.map_map]
    refine List.map_congr_left fun p' _ => ?_
    simp [piece, Bytes.cut_append_cons _ (equals_notMem_encode p'.1)]

/-- Reading written parameters gives them back, as texts. -/
theorem pairs_render (ps : List (Bytes × Bytes)) :
    pairs (render ps) = ps.map fun p => (Utf8.repaired p.1, Utf8.repaired p.2) := by
  simp [pairs, rawPairs_render, decodeText, decodeBytes_encode, Function.comp_def]

/-! ## Sorting keeps the values of a name in order -/

/-- Names in ascending order. -/
def Sorted (ps : List (Bytes × Bytes)) : Prop := ps.Pairwise fun p q => p.1 ≤ q.1

theorem mem_insertByName {p r : Bytes × Bytes} {ps : List (Bytes × Bytes)} :
    r ∈ insertByName p ps ↔ r = p ∨ r ∈ ps := by
  induction ps with
  | nil => simp [insertByName]
  | cons q ps ih =>
    unfold insertByName
    split
    · simp
    · simp [ih, or_left_comm]

theorem mem_sortByName {r : Bytes × Bytes} {ps : List (Bytes × Bytes)} :
    r ∈ sortByName ps ↔ r ∈ ps := by
  induction ps with
  | nil => rfl
  | cons p ps ih =>
    rw [sortByName, List.foldr_cons, mem_insertByName, ← sortByName, ih, List.mem_cons]

theorem Sorted.insertByName {p : Bytes × Bytes} {ps : List (Bytes × Bytes)} (h : Sorted ps) :
    Sorted (insertByName p ps) := by
  induction ps with
  | nil => exact List.pairwise_singleton _ _
  | cons q ps ih =>
    obtain ⟨hq, hps⟩ := List.pairwise_cons.1 h
    unfold Query.insertByName
    split
    next hle =>
      have hpq : p.1 ≤ q.1 := (Bytes.lexLe_iff _ _).1 hle
      refine List.pairwise_cons.2 ⟨fun r hr => ?_, h⟩
      obtain rfl | hr := List.mem_cons.1 hr
      · exact hpq
      · exact List.le_trans hpq (hq r hr)
    next hgt =>
      have hqp : q.1 ≤ p.1 := (List.le_total _ _).resolve_left (mt (Bytes.lexLe_iff _ _).2 hgt)
      refine List.pairwise_cons.2 ⟨fun r hr => ?_, ih hps⟩
      obtain rfl | hr := mem_insertByName.1 hr
      · exact hqp
      · exact hq r hr

theorem sorted_sortByName (ps : List (Bytes × Bytes)) : Sorted (sortByName ps) := by
  induction ps with
  | nil => exact .nil
  | cons p ps ih => exact ih.insertByName

theorem valuesOf_cons (name : Bytes) (p : Bytes × Bytes) (ps : List (Bytes × Bytes)) :
    valuesOf name (p :: ps) =
      if p.1 = name then p.2 :: valuesOf name ps else valuesOf name ps := by
  by_cases h : p.1 = name <;> simp [valuesOf, h]

theorem valuesOf_ne_nil {name : Bytes} {ps : List (Bytes × Bytes)} :
    valuesOf name ps ≠ [] ↔ ∃ p ∈ ps, p.1 = name := by
  simp [valuesOf, List.filterMap_eq_nil_iff]

/-- A pair is put before all others with its name, so it stays the first of them. -/
theorem valuesOf_insertByName (name : Bytes) (p : Bytes × Bytes) (ps : List (Bytes × Bytes)) :
    valuesOf name (insertByName p ps) = valuesOf name (p :: ps) := by
  induction ps with
  | nil => rfl
  | cons q ps ih =>
    unfold insertByName
    split
    · rfl
    next hgt =>
      have hne : p.1 ≠ q.1 := fun heq => hgt ((Bytes.lexLe_iff _ _).2 (heq ▸ List.le_refl _))
      simp only [valuesOf_cons, ih]
      split
      next hq =>
        rw [if_neg fun hp => hne (hp.trans hq.symm), if_neg fun hp => hne (hp.trans hq.symm)]
      · rfl

theorem valuesOf_sortByName (name : Bytes) (ps : List (Bytes × Bytes)) :
    valuesOf name (sortByName ps) = valuesOf name ps := by
  induction ps with
  | nil => rfl
  | cons p ps ih =>
    rw [sortByName, List.foldr_cons, valuesOf_insertByName, ← sortByName, valuesOf_cons, ih,
      valuesOf_cons]

/-- The first name of a sorted list stands before every name that has a value. -/
theorem Sorted.head_le {p : Bytes × Bytes} {ps : List (Bytes × Bytes)} (h : Sorted (p :: ps))
    {name : Bytes} (hname : valuesOf name (p :: ps) ≠ []) : p.1 ≤ name := by
  obtain ⟨r, hr, rfl⟩ := valuesOf_ne_nil.1 hname
  obtain rfl | hr := List.mem_cons.1 hr
  · exact List.le_refl _
  · exact (List.pairwise_cons.1 h).1 r hr

/-- A sorted list is determined by the values under each name. -/
theorem eq_of_valuesOf_eq {ps qs : List (Bytes × Bytes)} (hps : Sorted ps) (hqs : Sorted qs)
    (h : ∀ name, valuesOf name ps = valuesOf name qs) : ps = qs := by
  have hself : ∀ (r : Bytes × Bytes) rs, valuesOf r.1 (r :: rs) ≠ [] := fun r rs =>
    valuesOf_ne_nil.2 ⟨r, List.mem_cons_self, rfl⟩
  induction ps generalizing qs with
  | nil =>
    cases qs with
    | nil => rfl
    | cons q qs => exact absurd (h q.1).symm (hself q qs)
  | cons p ps ih =>
    cases qs with
    | nil => exact absurd (h p.1) (hself p ps)
    | cons q qs =>
      have hname : p.1 = q.1 :=
        List.le_antisymm (hps.head_le (h q.1 ▸ hself q qs)) (hqs.head_le (h p.1 ▸ hself p ps))
      have hfirst := h q.1
      rw [valuesOf_cons, valuesOf_cons, if_pos hname, if_pos rfl] at hfirst
      have hvalue : p.2 = q.2 := (List.cons.inj hfirst).1
      have hrest : ∀ name, valuesOf name ps = valuesOf name qs := by
        intro name
        have hall := h name
        rw [valuesOf_cons, valuesOf_cons, hname] at hall
        split at hall
        · exact (List.cons.inj hall).2
        · exact hall
      rw [Prod.ext hname hvalue,
        ih (List.pairwise_cons.1 hps).2 (List.pairwise_cons.1 hqs).2 hrest]

theorem sortByName_eq_iff (ps qs : List (Bytes × Bytes)) :
    sortByName ps = sortByName qs ↔ ∀ name, valuesOf name ps = valuesOf name qs := by
  constructor
  · intro h name
    rw [← valuesOf_sortByName, h, valuesOf_sortByName]
  · intro h
    refine eq_of_valuesOf_eq (sorted_sortByName ps) (sorted_sortByName qs) fun name => ?_
    rw [valuesOf_sortByName, valuesOf_sortByName, h]

/-! ## Canonical queries -/

/-- The parameters of a canonical query are those of the query, sorted. -/
theorem pairs_canonical (query : Bytes) : pairs (canonical query) = sortByName (pairs query) := by
  rw [canonical, pairs_render]
  refine (List.map_congr_left fun p hp => ?_).trans (List.map_id _)
  -- Every name and value comes out of `decodeText`, which repairs.
  obtain ⟨raw, -, rfl⟩ := List.mem_map.1 (mem_sortByName.1 hp)
  simp [decodeText, Utf8.repaired_repaired]

theorem canonical_eq_iff (q q' : Bytes) :
    canonical q = canonical q' ↔ ∀ name, valuesOf name (pairs q) = valuesOf name (pairs q') := by
  rw [← sortByName_eq_iff]
  constructor
  · intro h
    rw [← pairs_canonical, h, pairs_canonical]
  · intro h
    rw [canonical, canonical, h]

theorem canonical_canonical (query : Bytes) : canonical (canonical query) = canonical query := by
  refine (canonical_eq_iff _ _).2 fun name => ?_
  rw [pairs_canonical, valuesOf_sortByName]

end Query

/-! ## Keys -/

/-- No query counts as one without parameters. -/
theorem keyQuery_eq_iff (query query' : Option Bytes) :
    keyQuery query = keyQuery query' ↔
      Query.canonical (query.getD []) = Query.canonical (query'.getD []) := by
  have hnone : ∀ q : Option Bytes,
      (q.map Query.canonical).getD [] = Query.canonical (q.getD []) := by
    rintro (_ | q) <;> rfl
  unfold keyQuery
  rw [hnone, hnone]
  split <;> split <;> simp_all

namespace Request

/-- The values of a parameter of the request, in order. -/
def valuesUnder (r : Request) (name : Bytes) : List Bytes :=
  Query.valuesOf name (Query.pairs (r.uri.query.getD []))

theorem host_eq_of_headers {r : Request} {headers : Headers}
    (h : r.uri.authority?.isSome ∨ headers.values .host = r.headers.values .host) :
    { r with headers }.host = r.host := by
  unfold host
  cases hauthority : r.uri.authority? with
  | some a => rfl
  | none =>
    have hvalues : headers.values .host = r.headers.values .host :=
      h.resolve_left (by simp [hauthority])
    simp only [Headers.text?, Headers.get?, hvalues]

/-- **A key holds the parameters and nothing more.**  For the same method, host and path, two
requests have the same key exactly when every parameter has the same values in the same order.
Making a query canonical twice is making it so once, and no header has a part in the key except
`Host`, nor has that one when the target names its authority. -/
theorem cacheKey_eq_iff_valuesUnder {a b : Request} (hmethod : a.method = b.method)
    (hhost : a.host = b.host) (hpath : a.uri.path = b.uri.path) :
    (a.cacheKey = b.cacheKey ↔ ∀ name, a.valuesUnder name = b.valuesUnder name) ∧
      (∀ query, Query.canonical (Query.canonical query) = Query.canonical query) ∧
      ∀ headers : Headers,
        a.uri.authority?.isSome ∨ headers.values .host = a.headers.values .host →
          { a with headers }.cacheKey = a.cacheKey := by
  refine ⟨?_, Query.canonical_canonical, fun headers h => ?_⟩
  · have hkeys : a.cacheKey = b.cacheKey ↔ keyQuery a.uri.query = keyQuery b.uri.query := by
      simp [cacheKey, hmethod, hhost, hpath]
    rw [hkeys, keyQuery_eq_iff, Query.canonical_eq_iff]
    rfl
  · simp only [cacheKey, host_eq_of_headers h]

/-- A request to the host `h` for the page `/p` with a query. -/
def forPage (query : String) : Request :=
  { method := .get, uri := .origin ⟨bytes "/p", some (bytes query)⟩
    headers := ⟨[(.host, bytes "h")]⟩ }

theorem cacheKey_eq_iff_valuesUnder_forPage :
    (∀ name, (forPage "b=2&a=%31&&b=1").valuesUnder name =
        (forPage "a=1&b=2&b=1").valuesUnder name) ∧
      (forPage "b=1&b=2").cacheKey ≠ (forPage "b=2&b=1").cacheKey ∧
      { forPage "a=1" with
          headers := (forPage "a=1").headers.append .referer (bytes "x") }.cacheKey =
        (forPage "a=1").cacheKey := by
  have hkey : (forPage "b=2&a=%31&&b=1").cacheKey = (forPage "a=1&b=2&b=1").cacheKey := by
    with_unfolding_all rfl
  have hvalues : (forPage "b=1&b=2").valuesUnder (bytes "b") ≠
      (forPage "b=2&b=1").valuesUnder (bytes "b") := by
    with_unfolding_all decide
  have hall := fun q q' : String =>
    cacheKey_eq_iff_valuesUnder (a := forPage q) (b := forPage q') rfl rfl rfl
  exact ⟨(hall _ _).1.1 hkey, fun h => hvalues ((hall _ _).1.1 h (bytes "b")),
    (hall _ "").2.2 _ (.inr (by decide))⟩

end Request
end EdgeCache
