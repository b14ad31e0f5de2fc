import EdgeCache.Exchange.World
import EdgeCache.Proofs.Store.Readers

/-!
# Reading a body that grows

An exchange that replays a growing body writes each chunk that its reader gives it.  `Reads` is what
holds of the reader and of what has been written; it survives whatever becomes of the body
(`Growing.Grows`), and when the reader ends, the body is closed and all of it has been written.
-/

set_option autoImplicit false

namespace EdgeCache

/-- What may become of a body: it stays, or it was open and has got more. -/
def Growing.Grows (g g' : Growing) : Prop :=
  g' = g ∨ g.closed = false ∧ g.chunks <+: g'.chunks ∧ g.version < g'.version

/-- What the exchange of a reader has written: the chunks up to the reader's place in the body, but
for those in hand, and all were taken. -/
structure Reads (written : List (Bytes × Option IoError)) (inHand : List Bytes) (g : Growing)
    (r : Reader) : Prop where
  taken : ∀ p ∈ written, p.2 = none
  chunks : written.map (·.1) ++ inHand = g.chunks.take r.index
  le : r.index ≤ g.chunks.length
  /-- A waiting reader that has seen all changes has read all chunks. -/
  seen : r.waiting = true → r.seen ≤ g.version ∧ (r.seen = g.version → r.index = g.chunks.length)

namespace Reads

variable {written : List (Bytes × Option IoError)} {inHand : List Bytes} {g g' : Growing}
  {r r' : Reader}

theorem start (g : Growing) : Reads [] [] g {} := by
  constructor <;> simp

theorem follows (h : Reads written inHand g r) : r.Follows g := ⟨h.le, h.seen⟩

theorem grows (h : Reads written inHand g r) (hg : g.Grows g') : Reads written inHand g' r := by
  rcases hg with rfl | ⟨-, hprefix, hversion⟩
  · exact h
  · obtain ⟨hle, hseen⟩ := h.follows.grows hprefix hversion
    obtain ⟨rest, hrest⟩ := hprefix
    refine ⟨h.taken, ?_, hle, hseen⟩
    rw [h.chunks, ← hrest, List.take_append_of_le_length h.le]

theorem turn (h : Reads written inHand g r) (hr : r.step g = .turning r') :
    Reads written inHand g r' := by
  obtain ⟨⟨hle, hseen⟩, hindex⟩ := h.follows.turning hr
  exact ⟨h.taken, hindex ▸ h.chunks, hle, hseen⟩

theorem chunk {data : Bytes} (h : Reads written [] g r) (hr : r.step g = .chunk data r') :
    Reads written [data] g r' := by
  obtain ⟨⟨hle, hseen⟩, htake⟩ := Reader.Follows.chunk hr
  refine ⟨h.taken, ?_, hle, hseen⟩
  rw [htake, ← h.chunks, List.append_nil]

theorem write {data : Bytes} (h : Reads written [data] g r) :
    Reads (written ++ [(data, none)]) [] g r := by
  refine ⟨fun p hp => ?_, ?_, h.le, h.seen⟩
  · rcases List.mem_append.1 hp with hp | hp
    · exact h.taken p hp
    · rw [List.mem_singleton.1 hp]
  · rw [← h.chunks]
    simp

/-- **A reader ends when the body is closed**, and its exchange has then written all of it. -/
theorem finish (h : Reads written [] g r) (hattached : g.attached = !g.closed)
    (hr : r.step g = .finish) : g.closed = true ∧ written.map (·.1) = g.chunks := by
  obtain ⟨hcomplete, hindex⟩ := h.follows.finish hr
  rw [Growing.complete, hattached, Bool.not_not, Bool.or_self] at hcomplete
  refine ⟨hcomplete, ?_⟩
  rw [← List.append_nil (written.map _), h.chunks, hindex, List.take_length]

end Reads
end EdgeCache
