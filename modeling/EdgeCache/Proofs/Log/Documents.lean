import EdgeCache.Log.Access
import EdgeCache.Proofs.Log.Times
import EdgeCache.Proofs.Text.Json

/-!
# Log lines that are documents

The `json` form of an entry is a single line without control characters, reads back as a document
with twelve members that hold just what the entry holds, and is the form of no other entry
(`json_line_faithful`).  What a client puts into its request therefore stays inside the member that
it belongs to.
-/

set_option autoImplicit false

namespace EdgeCache.Log.Access

/-- An entry as the server makes them: the numbers fit into 64 bits, and the time is one that a
clock can show. -/
structure Genuine (e : Access) : Prop where
  time : e.time.instant.Genuine
  status : e.status ≤ Json.maxSignificand
  bodyBytes : e.bodyBytes ≤ Json.maxSignificand
  requestTime : e.requestTime ≤ Json.maxSignificand

theorem readable_nat {depth n : Nat} (h : n ≤ Json.maxSignificand) :
    Json.Readable depth (.int n) :=
  .int (by omega) (by omega)

theorem readable_textOrNull {depth : Nat} (s : Option String) :
    Json.Readable depth (textOrNull s) := by
  cases s with
  | none => exact .null
  | some s => exact .str s

/-- The document of an entry can be read back. -/
theorem Genuine.readable {e : Access} (h : e.Genuine) : Json.Readable Json.maxDepth e.json := by
  have htext (s : String) : Json.Readable 127 (.str s) := .str s
  refine .obj ?_ ?_
  · simp only [List.map_cons, List.map_nil]
    decide
  · simp only [List.forall_mem_cons, List.not_mem_nil, IsEmpty.forall_iff, implies_true,
      readable_nat h.bodyBytes, readable_nat h.requestTime, readable_nat h.status,
      readable_textOrNull, htext, and_self]

theorem textOrNull_eq (s : Option String) : textOrNull s = s.elim .null .str := by
  cases s <;> rfl

theorem textOrNull_inj {s s' : Option String} (h : textOrNull s = textOrNull s') : s = s' := by
  cases s <;> cases s' <;> simp_all [textOrNull]

/-- Entries with the same document are the same. -/
theorem Genuine.json_inj {e e' : Access} (h : e.Genuine) (h' : e'.Genuine)
    (heq : e.json = e'.json) : e = e' := by
  simp only [json, Json.obj.injEq, List.cons.injEq, Prod.mk.injEq, Json.int.injEq, Json.str.injEq,
    Int.natCast_inj, true_and, and_true] at heq
  obtain ⟨hbodyBytes, hcacheStatus, hhttpVersion, hmethod, hpath, hquery, hreferer, hremoteAddr,
    hrequestTime, hstatus, htime, huserAgent⟩ := heq
  cases e
  cases e'
  rw [mk.injEq]
  exact ⟨hremoteAddr, LocalTime.iso_inj h.time h'.time htime, hmethod, hpath,
    textOrNull_inj hquery, hhttpVersion, hstatus, hbodyBytes, textOrNull_inj hreferer,
    textOrNull_inj huserAgent, hrequestTime, textOrNull_inj hcacheStatus⟩

/-- **The `json` form of an entry is faithful.**  No character of the line is a control character,
so that it is a single line; read back it is an object with twelve members, which hold what the
entry holds and null for what is absent; and it is the line of no other entry. -/
theorem json_line_faithful {e : Access} (h : e.Genuine) :
    (∀ c ∈ (e.format "json").toList, 0x20 ≤ c.toNat) ∧
    Json.parse (e.format "json") = some (.obj [
      ("body_bytes", .int e.bodyBytes),
      ("cache_status", e.cacheStatus.elim .null .str),
      ("http_version", .str e.httpVersion),
      ("method", .str e.method),
      ("path", .str e.path),
      ("query", e.query.elim .null .str),
      ("referer", e.referer.elim .null .str),
      ("remote_addr", .str e.remoteAddr),
      ("request_time_us", .int e.requestTime),
      ("status", .int e.status),
      ("time", .str e.time.iso),
      ("user_agent", e.userAgent.elim .null .str)]) ∧
    ∀ e' : Access, e'.Genuine → e'.format "json" = e.format "json" → e' = e := by
  have hformat (e : Access) : e.format "json" = e.json.render := rfl
  have hparse {e : Access} (h : e.Genuine) : Json.parse (e.format "json") = some e.json := by
    rw [hformat, Json.parse_render h.readable]
  refine ⟨?_, ?_, fun e' h' hline => ?_⟩
  · rw [hformat, Json.render, String.toList_ofList]
    exact Json.printable_chars e.json
  · rw [hparse h, json]
    simp only [textOrNull_eq]
  · have hjson : some e'.json = some e.json := by rw [← hparse h', hline, hparse h]
    exact h'.json_inj h (Option.some.inj hjson)

/-- An entry full of what has to be escaped, in a leap second. -/
def awkward : Access where
  remoteAddr := "::1"
  time := { instant := ⟨1435708799, 1500000000⟩, offset := -210 }
  method := "M\"\\"
  path := "/\x00\x1f\x7f\x08\x0c\t"
  query := some "\",\"status\":0,\"q\":\"\\\\"
  status := 599
  bodyBytes := 18446744073709551615
  userAgent := some "\r\n[\x7b😀\x7d]"

theorem json_line_faithful_awkward :
    awkward.Genuine ∧
    Json.parse (awkward.format "json") = some (.obj [
      ("body_bytes", .int 18446744073709551615),
      ("cache_status", .null),
      ("http_version", .str "1.1"),
      ("method", .str "M\"\\"),
      ("path", .str "/\x00\x1f\x7f\x08\x0c\t"),
      ("query", .str "\",\"status\":0,\"q\":\"\\\\"),
      ("referer", .null),
      ("remote_addr", .str "::1"),
      ("request_time_us", .int 0),
      ("status", .int 599),
      ("time", .str "2015-06-30T20:29:60.500-03:30"),
      ("user_agent", .str "\r\n[\x7b😀\x7d]")]) := by
  have hgenuine : awkward.Genuine := ⟨.inr (by decide), by decide, by decide, by decide⟩
  have htime : awkward.time.iso = "2015-06-30T20:29:60.500-03:30" := by decide
  refine ⟨hgenuine, ?_⟩
  rw [(json_line_faithful hgenuine).2.1, htime]
  rfl

end EdgeCache.Log.Access
