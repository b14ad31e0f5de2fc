import EdgeCache.Proofs.Variant.Queries
import EdgeCache.Variant.Policy
import Mathlib.Data.List.Basic

/-!
# Queries and their bytes

An origin that undoes the escapes of a query gets bytes (`Query.bytePairs`).  A key has the text
that these bytes stand for, in which every part that is no UTF-8 has been replaced by U+FFFD, so it
says less: `id=%FF` and `id=%FE` are two values for the origin and one for the key.

`Request.byteParameters_eq_iff` says how much less.  Requests that share a key have the same bytes
under every name, except perhaps where a name or a value that is not UTF-8 is involved
(`Query.Blurs`); as long as all names and values are text, a key tells queries apart by their bytes.
The reason is that repairing leaves text as it is and changes everything else
(`Utf8.repaired_eq_self_iff`).
-/

set_option autoImplicit false

namespace EdgeCache
namespace Query

/-- The parameters as bytes, sorted by name with the values of one name in their order. -/
def byteParameters (query : Bytes) : List (Bytes × Bytes) := sortByName (bytePairs query)

/-- Under a name that reads like this one, the name or the value is not UTF-8. -/
def Blurs (query name : Bytes) : Prop :=
  ∃ p ∈ bytePairs query, Utf8.repaired p.1 = Utf8.repaired name ∧
    (Utf8.valid p.1 = false ∨ Utf8.valid p.2 = false)

/-- All names and values are UTF-8. -/
def IsText (query : Bytes) : Prop :=
  ∀ p ∈ bytePairs query, Utf8.valid p.1 = true ∧ Utf8.valid p.2 = true

variable {query query' name : Bytes}

theorem pairs_eq_map (query : Bytes) :
    pairs query = (bytePairs query).map fun p => (Utf8.repaired p.1, Utf8.repaired p.2) := by
  simp [pairs, bytePairs, decodeText]

/-- Where nothing is blurred, a name that is text has as text the values that it has as bytes. -/
theorem valuesOf_pairs (h : ¬ Blurs query name) (hname : Utf8.valid name = true) :
    valuesOf name (pairs query) = valuesOf name (bytePairs query) := by
  have hself : Utf8.repaired name = name := (Utf8.repaired_eq_self_iff name).2 hname
  rw [pairs_eq_map, valuesOf, valuesOf, List.filterMap_map]
  refine List.filterMap_congr fun p hp => ?_
  by_cases hread : Utf8.repaired p.1 = name
  · -- a pair that reads like the name is text on both sides
    have hclear : Utf8.valid p.1 = true ∧ Utf8.valid p.2 = true := by
      constructor <;> rw [← Bool.not_eq_false] <;> intro hno
      · exact h ⟨p, hp, hread.trans hself.symm, .inl hno⟩
      · exact h ⟨p, hp, hread.trans hself.symm, .inr hno⟩
    have hsame : p.1 = name := ((Utf8.repaired_eq_self_iff p.1).2 hclear.1).symm.trans hread
    have hvalue : Utf8.repaired p.2 = p.2 := (Utf8.repaired_eq_self_iff p.2).2 hclear.2
    simp [hself, hsame, hvalue]
  · have hother : p.1 ≠ name := by
      rintro rfl
      exact hread hself
    simp [hread, hother]

/-- Where nothing is blurred, a name that is not text does not occur. -/
theorem valuesOf_eq_nil (h : ¬ Blurs query name) (hname : Utf8.valid name = false) :
    valuesOf name (bytePairs query) = [] := by
  by_contra hne
  obtain ⟨p, hp, rfl⟩ := valuesOf_ne_nil.1 hne
  exact h ⟨p, hp, rfl, .inl hname⟩

/-- Queries with one canonical form agree on the bytes under a name that neither blurs. -/
theorem valuesOf_bytePairs_eq (hcanonical : canonical query = canonical query')
    (h : ¬ Blurs query name) (h' : ¬ Blurs query' name) :
    valuesOf name (bytePairs query) = valuesOf name (bytePairs query') := by
  cases hname : Utf8.valid name with
  | true =>
    rw [← valuesOf_pairs h hname, ← valuesOf_pairs h' hname]
    exact (canonical_eq_iff query query').1 hcanonical name
  | false => rw [valuesOf_eq_nil h hname, valuesOf_eq_nil h' hname]

theorem canonical_eq_of_pairs_eq (h : pairs query = pairs query') :
    canonical query = canonical query' := by
  rw [canonical, canonical, h]

/-- When all is text, reading it changes nothing. -/
theorem IsText.pairs_eq (h : IsText query) : pairs query = bytePairs query := by
  rw [pairs_eq_map]
  refine (List.map_congr_left fun p hp => ?_).trans (List.map_id _)
  exact Prod.ext ((Utf8.repaired_eq_self_iff p.1).2 (h p hp).1)
    ((Utf8.repaired_eq_self_iff p.2).2 (h p hp).2)

end Query

namespace Request

variable {a b : Request}

/-- The parameters of a request as bytes. -/
def byteParameters (r : Request) : List (Bytes × Bytes) :=
  Query.byteParameters (r.uri.query.getD [])

/-- The bytes of the values of a parameter of the request, in order. -/
def bytesUnder (r : Request) (name : Bytes) : List Bytes :=
  Query.valuesOf name (Query.bytePairs (r.uri.query.getD []))

/-- The key does not show all of what the request has under a name that reads like this one. -/
def Blurs (r : Request) (name : Bytes) : Prop := Query.Blurs (r.uri.query.getD []) name

/-- All parameters of the request are text. -/
def IsText (r : Request) : Prop := Query.IsText (r.uri.query.getD [])

theorem cacheKey_eq_iff_canonical (hmethod : a.method = b.method) (hhost : a.host = b.host)
    (hpath : a.uri.path = b.uri.path) :
    a.cacheKey = b.cacheKey ↔
      Query.canonical (a.uri.query.getD []) = Query.canonical (b.uri.query.getD []) := by
  rw [← keyQuery_eq_iff]
  simp [cacheKey, hmethod, hhost, hpath]

/-- **What a key tells about the bytes of a query.**  Let two requests be for the same method, host
and path.  If they share a key, then their parameters are the same bytes exactly when they are so
under those names that one of the two queries blurs.  If all their parameters are text, then they
share a key exactly when their parameters are the same bytes. -/
theorem byteParameters_eq_iff (hmethod : a.method = b.method) (hhost : a.host = b.host)
    (hpath : a.uri.path = b.uri.path) :
    (a.cacheKey = b.cacheKey → (a.byteParameters = b.byteParameters ↔
        ∀ name, a.Blurs name ∨ b.Blurs name → a.bytesUnder name = b.bytesUnder name)) ∧
      (a.IsText → b.IsText → (a.cacheKey = b.cacheKey ↔ a.byteParameters = b.byteParameters)) := by
  rw [cacheKey_eq_iff_canonical hmethod hhost hpath]
  constructor
  · intro hcanonical
    rw [byteParameters, byteParameters, Query.byteParameters, Query.byteParameters,
      Query.sortByName_eq_iff]
    refine ⟨fun h name _ => h name, fun h name => ?_⟩
    by_cases hblurs : a.Blurs name ∨ b.Blurs name
    · exact h name hblurs
    · obtain ⟨ha, hb⟩ := not_or.1 hblurs
      exact Query.valuesOf_bytePairs_eq hcanonical ha hb
  · intro ha hb
    rw [Query.canonical_eq_iff, ← Query.sortByName_eq_iff, Query.IsText.pairs_eq ha,
      Query.IsText.pairs_eq hb]
    rfl

/-- Requests for the page differ in their query only. -/
theorem forPage_alike (query query' : String) :
    (forPage query).method = (forPage query').method ∧
      (forPage query).host = (forPage query').host ∧
      (forPage query).uri.path = (forPage query').uri.path :=
  ⟨rfl, rfl, rfl⟩

theorem forPage_cacheKey_eq {query query' : String}
    (h : Query.pairs (bytes query) = Query.pairs (bytes query')) :
    (forPage query).cacheKey = (forPage query').cacheKey :=
  let ⟨hmethod, hhost, hpath⟩ := forPage_alike query query'
  (cacheKey_eq_iff_canonical hmethod hhost hpath).2 (Query.canonical_eq_of_pairs_eq h)

/-- Two spellings of the same parameters, one of them not in ASCII, and two values that are not
text. -/
theorem byteParameters_eq_iff_forPage :
    ((forPage "n=%C3%BC&m=a+b").cacheKey = (forPage "m=a%20b&n=ü").cacheKey ∧
      (forPage "n=%C3%BC&m=a+b").byteParameters = (forPage "m=a%20b&n=ü").byteParameters) ∧
    ((forPage "id=%FF").cacheKey = (forPage "id=%FE").cacheKey ∧
      (forPage "id=%FF").Blurs (bytes "id") ∧
      (forPage "id=%FF").bytesUnder (bytes "id") ≠ (forPage "id=%FE").bytesUnder (bytes "id") ∧
      (forPage "id=%FF").byteParameters ≠ (forPage "id=%FE").byteParameters) := by
  have hfirst : Query.bytePairs (bytes "n=%C3%BC&m=a+b") =
      [(bytes "n", bytes "ü"), (bytes "m", bytes "a b")] := by with_unfolding_all rfl
  have hsecond : Query.bytePairs (bytes "m=a%20b&n=ü") =
      [(bytes "m", bytes "a b"), (bytes "n", bytes "ü")] := by with_unfolding_all rfl
  have htext : Query.IsText (bytes "n=%C3%BC&m=a+b") := by
    rw [Query.IsText, hfirst]
    with_unfolding_all decide
  have htext' : Query.IsText (bytes "m=a%20b&n=ü") := by
    rw [Query.IsText, hsecond]
    with_unfolding_all decide
  have hsame : (forPage "n=%C3%BC&m=a+b").byteParameters = (forPage "m=a%20b&n=ü").byteParameters :=
    (congrArg Query.sortByName hfirst).trans (.trans (by with_unfolding_all rfl)
      (congrArg Query.sortByName hsecond).symm)
  have hhigh : Query.bytePairs (bytes "id=%FF") = [(bytes "id", [0xFF])] := by
    with_unfolding_all rfl
  have hlow : Query.bytePairs (bytes "id=%FE") = [(bytes "id", [0xFE])] := by
    with_unfolding_all rfl
  have hshared : (forPage "id=%FF").cacheKey = (forPage "id=%FE").cacheKey := by
    refine forPage_cacheKey_eq ?_
    exact .trans (b := [(bytes "id", bytes "\uFFFD")]) (by with_unfolding_all rfl)
      (by with_unfolding_all rfl)
  have hblurs : (forPage "id=%FF").Blurs (bytes "id") :=
    ⟨(bytes "id", [0xFF]), hhigh ▸ List.mem_cons_self, rfl, .inr (by with_unfolding_all rfl)⟩
  have hbytes : (forPage "id=%FF").bytesUnder (bytes "id") ≠
      (forPage "id=%FE").bytesUnder (bytes "id") := by
    have hvalues : Query.valuesOf (bytes "id") [(bytes "id", [0xFF])] ≠
        Query.valuesOf (bytes "id") [(bytes "id", [0xFE])] := by decide
    rwa [← hhigh, ← hlow] at hvalues
  have hall := fun query query' : String =>
    let ⟨hmethod, hhost, hpath⟩ := forPage_alike query query'
    byteParameters_eq_iff hmethod hhost hpath
  exact ⟨⟨((hall _ _).2 htext htext').2 hsame, hsame⟩, hshared, hblurs, hbytes,
    fun h => hbytes (((hall _ _).1 hshared).1 h _ (.inl hblurs))⟩

/-- **Two requests that differ in the bytes of a value and share a key**, both of them such as go
through the cache. -/
theorem cacheKey_twoValues :
    ofParts (bytes "GET") (bytes "/p?id=%FF") [(bytes "host", bytes "h")] [] =
        .ok (forPage "id=%FF") ∧
      ofParts (bytes "GET") (bytes "/p?id=%FE") [(bytes "host", bytes "h")] [] =
        .ok (forPage "id=%FE") ∧
      Eligibility.safeMethods true (forPage "id=%FF") = true ∧
      Eligibility.safeMethods true (forPage "id=%FE") = true ∧
      (forPage "id=%FF").method = (forPage "id=%FE").method ∧
      (forPage "id=%FF").host = (forPage "id=%FE").host ∧
      (forPage "id=%FF").uri.path = (forPage "id=%FE").uri.path ∧
      (forPage "id=%FF").cacheKey = (forPage "id=%FE").cacheKey ∧
      (forPage "id=%FF").byteParameters = [(bytes "id", [0xFF])] ∧
      (forPage "id=%FE").byteParameters = [(bytes "id", [0xFE])] := by
  have hhigh : Query.pairs (bytes "id=%FF") = [(bytes "id", bytes "\uFFFD")] := by
    with_unfolding_all rfl
  have hlow : Query.pairs (bytes "id=%FE") = [(bytes "id", bytes "\uFFFD")] := by
    with_unfolding_all rfl
  obtain ⟨hmethod, hhost, hpath⟩ := forPage_alike "id=%FF" "id=%FE"
  exact ⟨by with_unfolding_all rfl, by with_unfolding_all rfl, rfl, rfl, hmethod, hhost, hpath,
    forPage_cacheKey_eq (hhigh.trans hlow.symm), by with_unfolding_all rfl,
    by with_unfolding_all rfl⟩

end Request
end EdgeCache
