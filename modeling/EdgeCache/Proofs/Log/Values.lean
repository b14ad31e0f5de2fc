import EdgeCache.Log.Access
import EdgeCache.Proofs.Text.Binary64

/-!
# What times and numbers look like in a log

The values of an access log entry that do not come from a request are numbers and times.  None of
them has a dollar sign in it, and all begin with a digit, with a sign, or, where a number is too
large to be divided, with a capital (`Plain`).  A day begins with one of four digits
(`head_common`).
-/

set_option autoImplicit false

namespace EdgeCache

namespace LocalTime

theorem day_le (days : Int) : (dateOf days).2.2 ≤ 31 := by
  simp only [dateOf]
  omega

end LocalTime

namespace Log

/-- A value that does not begin with a small letter and has no dollar sign in it. -/
structure Plain (s : List Char) : Prop where
  head : ∃ c rest, s = c :: rest ∧ (c.isDigit = true ∨ c ∈ ['+', '-', 'N'])
  dollar : '$' ∉ s

namespace Plain

variable {s t : List Char}

theorem append (h : Plain s) (ht : '$' ∉ t) : Plain (s ++ t) where
  head := by
    obtain ⟨c, rest, rfl, hc⟩ := h.head
    exact ⟨c, rest ++ t, rfl, hc⟩
  dollar := by simp [h.dollar, ht]

theorem of_digits (hs : s ≠ []) (h : ∀ c ∈ s, c.isDigit = true) : Plain s where
  head := by
    cases s with
    | nil => exact absurd rfl hs
    | cons c rest => exact ⟨c, rest, rfl, .inl (h c List.mem_cons_self)⟩
  dollar hd := absurd (h _ hd) (by decide)

theorem toString (n : Nat) : Plain (toString n).toList :=
  of_digits (by rw [Binary64.toList_toString]; exact Nat.toDigits_ne_nil) fun _ =>
    Binary64.isDigit_of_mem_toString

theorem padded (width n : Nat) : Plain (Binary64.padded width n).toList := by
  refine of_digits ?_ fun _ => Binary64.isDigit_of_mem_padded
  simp [Binary64.padded, Nat.toDigits_ne_nil]

end Plain

theorem dollar_notMem_month (n : Nat) : '$' ∉ (LocalTime.months[n]?.getD "").toList := by
  cases h : LocalTime.months[n]? with
  | none => decide
  | some month =>
    have hall : ∀ month ∈ LocalTime.months, '$' ∉ month.toList := by decide
    exact hall month (List.mem_of_getElem? h)

theorem dollar_notMem_offset (offset : Int) (colon : String) (h : '$' ∉ colon.toList) :
    '$' ∉ (LocalTime.offsetText offset colon).toList := by
  have hsign : '$' ∉ (if offset < 0 then "-" else "+").toList := by split <;> decide
  simp [LocalTime.offsetText, LocalTime.two, (Plain.padded _ _).dollar, h, hsign]

theorem dollar_notMem_clock (c : LocalTime.Civil) : '$' ∉ (LocalTime.clockText c).toList := by
  simp [LocalTime.clockText, LocalTime.two, (Plain.padded _ _).dollar]

theorem plain_year (y : Int) : Plain (LocalTime.yearText y).toList := by
  rw [LocalTime.yearText]
  split
  · exact .padded _ _
  · rw [String.toList_append]
    refine .append ?_ (Plain.padded _ _).dollar
    split
    · exact ⟨⟨'-', [], rfl, .inr (by decide)⟩, by decide⟩
    · exact ⟨⟨'+', [], rfl, .inr (by decide)⟩, by decide⟩

theorem dollar_notMem_fraction (nanos : Nat) : '$' ∉ (LocalTime.fractionText nanos).toList := by
  rw [LocalTime.fractionText]
  split_ifs <;> simp [(Plain.padded _ _).dollar]

theorem plain_common (t : LocalTime) : Plain t.common.toList := by
  simp only [LocalTime.common, LocalTime.two, String.toList_append, List.append_assoc]
  refine (Plain.padded _ _).append ?_
  simp [dollar_notMem_month, (plain_year _).dollar, dollar_notMem_clock,
    dollar_notMem_offset _ "" (by decide)]

theorem plain_iso (t : LocalTime) : Plain t.iso.toList := by
  simp only [LocalTime.iso, LocalTime.two, String.toList_append, List.append_assoc]
  refine (plain_year _).append ?_
  simp [(Plain.padded _ _).dollar, dollar_notMem_fraction, dollar_notMem_clock,
    dollar_notMem_offset _ ":" (by decide)]

/-- The day in the common format begins with one of the digits that a day can begin with. -/
theorem head_common (t : LocalTime) :
    ∃ c rest, t.common.toList = c :: rest ∧ c ∈ ['0', '1', '2', '3'] := by
  have hdays : ∀ day ≤ 31, (LocalTime.two day).toList.head?.any (· ∈ ['0', '1', '2', '3']) := by
    decide
  have hday := hdays t.civil.day (LocalTime.day_le _)
  simp only [LocalTime.common, String.toList_append, List.append_assoc]
  cases h : (LocalTime.two t.civil.day).toList with
  | nil => simp [h] at hday
  | cons c rest =>
    rw [h, List.head?_cons, Option.any_some, decide_eq_true_eq] at hday
    exact ⟨c, _, rfl, hday⟩

theorem plain_seconds (e : Access) : Plain e.seconds.toList := by
  rw [Access.seconds]
  cases h : (Binary64.ofNat e.requestTime).divide (Binary64.ofNat 1000000) with
  | infinite sign => exact absurd h (Binary64.divide_million_ne_infinite _ sign)
  | nan => exact ⟨⟨'N', _, rfl, .inr (by decide)⟩, by decide⟩
  | finite sign m exp =>
    simp only [Binary64.fixed, String.toList_append, List.append_assoc]
    refine (Plain.toString _).append ?_
    simp [(Plain.padded _ _).dollar]

end Log
end EdgeCache
