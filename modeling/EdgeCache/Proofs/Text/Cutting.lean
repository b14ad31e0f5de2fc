import EdgeCache.Bytes
import Mathlib.Data.List.TakeDrop
import Mathlib.Data.List.TakeWhile
import Mathlib.Logic.Basic

/-!
# Cutting and joining

A byte string is cut at every occurrence of a separator, or at the first one only.  A string without
the separator is one piece, and what stands before the first separator is the first piece: this is
how every string is made, so it is enough to look at these two cases (`Bytes.cutting_induction`).
The pieces hold the bytes of the string but for the separators (`Bytes.exists_mem_splitOn_iff`), and
cutting undoes joining (`Bytes.splitOn_joinWith`).
-/

set_option autoImplicit false

namespace EdgeCache
namespace Bytes

variable {sep : UInt8}

/-! ## At every separator -/

theorem splitOn_eq (sep : UInt8) (s : Bytes) : splitOn sep s = List.splitOn sep s := by
  induction s with
  | nil => rw [splitOn, List.splitOn_nil]
  | cons b rest ih =>
    rw [splitOn, ih, List.splitOn_cons_eq_if_modifyHead]
    by_cases hb : b = sep
    · simp [hb]
    · cases hpieces : List.splitOn sep rest with
      | nil => exact absurd hpieces (List.splitOn_ne_nil sep rest)
      | cons first others => simp [hb]

theorem joinWith_eq (sep : UInt8) (pieces : List Bytes) :
    joinWith sep pieces = List.intercalate [sep] pieces := by
  induction pieces with
  | nil => rfl
  | cons piece pieces ih =>
    cases pieces with
    | nil => simp [joinWith]
    | cons next pieces =>
      rw [List.intercalate_cons_of_ne_nil (List.cons_ne_nil _ _), ← ih, List.append_assoc,
        List.singleton_append]
      rfl

theorem splitOn_ne_nil (sep : UInt8) (s : Bytes) : splitOn sep s ≠ [] := by
  rw [splitOn_eq]
  exact List.splitOn_ne_nil sep s

theorem splitOn_of_notMem {piece : Bytes} (h : sep ∉ piece) : splitOn sep piece = [piece] := by
  rw [splitOn_eq, List.splitOn_eq_singleton h]

theorem splitOn_append (s rest : Bytes) :
    splitOn sep (s ++ sep :: rest) = splitOn sep s ++ splitOn sep rest := by
  simp only [splitOn_eq, List.splitOn_append_cons_self]

theorem splitOn_append_cons {piece : Bytes} (rest : Bytes) (h : sep ∉ piece) :
    splitOn sep (piece ++ sep :: rest) = piece :: splitOn sep rest := by
  rw [splitOn_append, splitOn_of_notMem h, List.singleton_append]

/-- A string is one piece, or a piece, a separator and a string. -/
@[elab_as_elim]
theorem cutting_induction (sep : UInt8) {motive : Bytes → Prop}
    (single : ∀ piece, sep ∉ piece → motive piece)
    (cons : ∀ piece rest, sep ∉ piece → motive rest → motive (piece ++ sep :: rest)) (s : Bytes) :
    motive s := by
  induction hn : s.length using Nat.strong_induction_on generalizing s with
  | h n ih =>
    by_cases hsep : sep ∈ s
    · obtain ⟨piece, rest, rfl, hpiece⟩ := List.eq_append_cons_of_mem hsep
      have hshorter : rest.length < n := by
        rw [← hn, List.length_append, List.length_cons]
        omega
      exact cons piece rest hpiece (ih _ hshorter rest rfl)
    · exact single s hsep

/-- The pieces hold every byte but the separator. -/
theorem exists_mem_splitOn_iff {b : UInt8} {s : Bytes} :
    (∃ piece ∈ splitOn sep s, b ∈ piece) ↔ b ∈ s ∧ b ≠ sep := by
  induction s using cutting_induction sep with
  | single piece h =>
    have hne : b ∈ piece → b ≠ sep := fun hb hsep => h (hsep ▸ hb)
    simp only [splitOn_of_notMem h, List.mem_singleton, exists_eq_left]
    exact ⟨fun hb => ⟨hb, hne hb⟩, And.left⟩
  | cons piece rest h ih =>
    have hne : b ∈ piece → b ≠ sep := fun hb hsep => h (hsep ▸ hb)
    simp only [splitOn_append_cons rest h, List.mem_cons, exists_eq_or_imp, ih, List.mem_append]
    tauto

theorem mem_of_mem_splitOn {s piece : Bytes} (h : piece ∈ splitOn sep s) {b : UInt8}
    (hb : b ∈ piece) : b ∈ s :=
  (exists_mem_splitOn_iff.1 ⟨piece, h, hb⟩).1

theorem notMem_of_mem_splitOn {s piece : Bytes} (h : piece ∈ splitOn sep s) : sep ∉ piece :=
  fun hb => (exists_mem_splitOn_iff.1 ⟨piece, h, hb⟩).2 rfl

theorem splitOn_joinWith {pieces : List Bytes} (hne : pieces ≠ [])
    (h : ∀ piece ∈ pieces, sep ∉ piece) : splitOn sep (joinWith sep pieces) = pieces := by
  rw [splitOn_eq, joinWith_eq, List.splitOn_intercalate sep h hne]

/-! ## At the first separator -/

theorem cut_append_cons {s : Bytes} (rest : Bytes) (h : sep ∉ s) :
    cut sep (s ++ sep :: rest) = (s, some rest) := by
  induction s with
  | nil => simp [cut]
  | cons b s ih =>
    obtain ⟨hb, hs⟩ : sep ≠ b ∧ sep ∉ s := by simpa using h
    rw [List.cons_append, cut, if_neg (Ne.symm hb), ih hs]

theorem cut_of_notMem {s : Bytes} (h : sep ∉ s) : cut sep s = (s, none) := by
  induction s with
  | nil => rfl
  | cons b s ih =>
    obtain ⟨hb, hs⟩ : sep ≠ b ∧ sep ∉ s := by simpa using h
    rw [cut, if_neg (Ne.symm hb), ih hs]

theorem cut_fst (sep : UInt8) (s : Bytes) : (cut sep s).1 = s.takeWhile (· != sep) := by
  induction s with
  | nil => rfl
  | cons b rest ih =>
    by_cases hb : b = sep
    · simp [cut, hb]
    · simp [cut, hb, ih]

/-! ## At the end -/

/-- A text is what trimming leaves and then bytes of the class, and what is left does not end in
one. -/
theorem trimEndBy_append (p : UInt8 → Bool) (s : Bytes) :
    (∃ tail, (∀ b ∈ tail, p b = true) ∧ s = trimEndBy p s ++ tail) ∧
      ∀ b, (trimEndBy p s).getLast? = some b → p b = false := by
  refine ⟨⟨(s.reverse.takeWhile p).reverse, fun b hb => ?_, ?_⟩, fun b hb => ?_⟩
  · exact List.mem_takeWhile_imp (List.mem_reverse.1 hb)
  · rw [trimEndBy, ← List.reverse_append, List.takeWhile_append_dropWhile, List.reverse_reverse]
  · rw [trimEndBy, List.getLast?_reverse] at hb
    have hstop := List.head?_dropWhile_not p s.reverse
    rwa [hb] at hstop

end Bytes
end EdgeCache
