import EdgeCache.Log.Calendar
import EdgeCache.Proofs.Text.Binary64

/-!
# Times can be told from their text

Two local times that a clock can show have different texts in the form of RFC 3339 (`iso_inj`).  The
text is taken apart from the left, one field after another, and the date is counted back to the day
that it was counted from (`dayOf_dateOf`).  A leap second is the one second whose number is sixty.
-/

set_option autoImplicit false

namespace EdgeCache

open Binary64 (padded EndsDigits padded_append_inj length_padded)

/-- An instant that a clock can show: its nanoseconds make less than a second, or less than two in
a leap second, which is the last one of a minute. -/
def Instant.Genuine (t : Instant) : Prop :=
  t.nanos < 1000000000 ∨ t.nanos < 2000000000 ∧ t.seconds % 60 = 59

/-- Whole seconds stand in the nanoseconds only of a leap second, behind the second 59. -/
theorem Instant.Genuine.leap {t : Instant} (h : t.Genuine) :
    t.nanos / 1000000000 = 0 ∨ t.nanos / 1000000000 = 1 ∧ t.seconds % 60 = 59 := by
  unfold Genuine at h
  omega

namespace LocalTime

/-! ## Counting days -/

/-- The year of an era, counted from March, that a day of the era lies in. -/
theorem yearOfEra_spec {doe yoe : Nat} (hdoe : doe < 146097)
    (hyoe : yoe = (doe - doe / 1460 + doe / 36524 - doe / 146096) / 365) :
    yoe < 400 ∧ 365 * yoe + yoe / 4 - yoe / 100 ≤ doe ∧
      doe ≤ 365 * yoe + yoe / 4 - yoe / 100 + 366 := by
  by_cases hlast : doe = 146096
  · subst hlast
    subst hyoe
    decide
  · have hera : doe / 146096 = 0 := by omega
    rw [hera] at hyoe
    -- A leap day is counted in the year whose number four divides, and the last of each century
    -- is made up for.
    have hfour : doe / 1460 ≤ yoe / 4 + 1 ∧ yoe / 4 ≤ doe / 1460 := by omega
    have hcentury : yoe / 100 = doe / 36524 := by omega
    omega

/-- The day, counted from the first of January 1970, of a date. -/
def dayOf (date : Int × Nat × Nat) : Int :=
  let (year, month, day) := date
  let y := year - (if month ≤ 2 then 1 else 0)
  let era := Int.fdiv y 400
  let yoe := (y - era * 400).toNat
  let mp := if month ≤ 2 then month + 9 else month - 3
  let doy := (153 * mp + 2) / 5 + (day - 1)
  era * 146097 + (365 * yoe + yoe / 4 - yoe / 100 + doy : Nat) - 719468

theorem dayOf_dateOf (days : Int) : dayOf (dateOf days) = days := by
  have hfloor (z : Int) : 0 ≤ z - Int.fdiv z 146097 * 146097 ∧
      z - Int.fdiv z 146097 * 146097 < 146097 := by
    rw [Int.fdiv_eq_ediv_of_nonneg _ (by decide)]
    omega
  obtain ⟨hnonneg, hlt⟩ := hfloor (days + 719468)
  simp only [dateOf]
  generalize Int.fdiv (days + 719468) 146097 = era at hnonneg hlt ⊢
  generalize hdoe : (days + 719468 - era * 146097).toNat = doe
  have hdays : days = era * 146097 + doe - 719468 := by omega
  generalize hyoe : (doe - doe / 1460 + doe / 36524 - doe / 146096) / 365 = yoe
  obtain ⟨hyear, hfrom, hto⟩ := yearOfEra_spec (by omega) hyoe.symm
  generalize hstart : 365 * yoe + yoe / 4 - yoe / 100 = start at hfrom hto ⊢
  generalize hdoy : doe - start = doy
  have hmonth : (5 * doy + 2) / 153 < 12 := by omega
  generalize hmp : (5 * doy + 2) / 153 = mp at hmonth ⊢
  have hmp' : (153 * mp + 2) / 5 ≤ doy := by omega
  have hera : Int.fdiv (era * 400 + yoe) 400 = era := by
    rw [Int.fdiv_eq_ediv_of_nonneg _ (by decide)]
    omega
  have hyoe' : (era * 400 + (yoe : Int) - era * 400).toNat = yoe := by omega
  simp only [dayOf, Int.add_sub_cancel, hera, hyoe', hstart]
  split_ifs <;> omega

/-- A time is given by what a clock and a calendar show of it, the part of the second and the local
offset. -/
theorem eq_of_civil {t t' : LocalTime} (ht : t.instant.Genuine) (ht' : t'.instant.Genuine)
    (hcivil : t.civil = t'.civil) (hoffset : t.offset = t'.offset)
    (hnanos : t.instant.nanos % 1000000000 = t'.instant.nanos % 1000000000) : t = t' := by
  obtain ⟨⟨seconds, nanos⟩, offset⟩ := t
  obtain ⟨⟨seconds', nanos'⟩, offset'⟩ := t'
  obtain rfl : offset = offset' := hoffset
  dsimp only at hnanos
  have hdate : dateOf (Int.fdiv (seconds + offset * 60) 86400) =
      dateOf (Int.fdiv (seconds' + offset * 60) 86400) :=
    congrArg (fun c => (c.year, c.month, c.day)) hcivil
  have hdays := congrArg dayOf hdate
  rw [dayOf_dateOf, dayOf_dateOf] at hdays
  have hhour := congrArg Civil.hour hcivil
  have hminute := congrArg Civil.minute hcivil
  have hsecond := congrArg Civil.second hcivil
  simp only [civil, hdays] at hhour hminute hsecond
  rw [Int.fdiv_eq_ediv_of_nonneg _ (by decide), Int.fdiv_eq_ediv_of_nonneg _ (by decide)] at hdays
  rw [Int.fdiv_eq_ediv_of_nonneg _ (by decide)] at hhour hminute hsecond
  -- Offsets are whole minutes, so that the second 59 is the same one in local time.
  have hleap : nanos / 1000000000 = 0 ∨ nanos / 1000000000 = 1 ∧ seconds % 60 = 59 := ht.leap
  have hleap' : nanos' / 1000000000 = 0 ∨ nanos' / 1000000000 = 1 ∧ seconds' % 60 = 59 := ht'.leap
  obtain rfl : seconds = seconds' := by omega
  obtain rfl : nanos = nanos' := by omega
  rfl

/-! ## Fields of the text -/

variable {s s' : List Char}

theorem endsDigits_cons {c : Char} (h : c.isDigit = false) (s : List Char) :
    EndsDigits (c :: s) := by
  simpa [EndsDigits] using h

theorem padded_append_ne_cons (width n : Nat) {c : Char} (hc : c.isDigit = false) :
    (padded width n).toList ++ s ≠ c :: s' := by
  intro h
  cases hd : (padded width n).toList with
  | nil => simp [padded, Nat.toDigits_ne_nil] at hd
  | cons d ds =>
    have hmem : d ∈ (padded width n).toList := by simp [hd]
    have hdigit := Binary64.isDigit_of_mem_padded hmem
    rw [hd, List.cons_append, List.cons.injEq] at h
    rw [h.1, hc] at hdigit
    cases hdigit

/-- A text that begins with a sign. -/
def Signed (s : List Char) : Prop := ∃ c t, s = c :: t ∧ (c = '+' ∨ c = '-')

section Signs

variable {negative negative' : Prop} [Decidable negative] [Decidable negative']

theorem signed_append (s : List Char) : Signed ((if negative then "-" else "+").toList ++ s) := by
  split
  · exact ⟨'-', s, rfl, .inr rfl⟩
  · exact ⟨'+', s, rfl, .inl rfl⟩

theorem sign_append_inj (h : (if negative then "-" else "+").toList ++ s =
    (if negative' then "-" else "+").toList ++ s') : (negative ↔ negative') ∧ s = s' := by
  split_ifs at h with hneg hneg' hneg' <;> simp_all

end Signs

theorem Signed.endsDigits (h : Signed s) : EndsDigits s := by
  obtain ⟨c, t, rfl, rfl | rfl⟩ := h <;> exact endsDigits_cons (by decide) t

theorem Signed.ne_padded (h : Signed s) (width n : Nat) : (padded width n).toList ++ s' ≠ s := by
  obtain ⟨c, t, rfl, rfl | rfl⟩ := h <;> exact padded_append_ne_cons width n (by decide)

theorem yearText_append_inj {y y' : Int} (hs : EndsDigits s) (hs' : EndsDigits s')
    (h : (yearText y).toList ++ s = (yearText y').toList ++ s') : y = y' ∧ s = s' := by
  rw [yearText, yearText] at h
  by_cases hy : 0 ≤ y ∧ y ≤ 9999 <;> by_cases hy' : 0 ≤ y' ∧ y' ≤ 9999
  · rw [if_pos hy, if_pos hy'] at h
    obtain ⟨hn, -, rfl⟩ := padded_append_inj hs hs' h
    exact ⟨by omega, rfl⟩
  · rw [if_pos hy, if_neg hy', String.toList_append, List.append_assoc] at h
    exact absurd h ((signed_append _).ne_padded 4 y.toNat)
  · rw [if_neg hy, if_pos hy', String.toList_append, List.append_assoc] at h
    exact absurd h.symm ((signed_append _).ne_padded 4 y'.toNat)
  · rw [if_neg hy, if_neg hy', String.toList_append, String.toList_append, List.append_assoc,
      List.append_assoc] at h
    obtain ⟨hneg, hrest⟩ := sign_append_inj h
    obtain ⟨hn, -, rfl⟩ := padded_append_inj hs hs' hrest
    exact ⟨by omega, rfl⟩

/-- A fraction that is not zero has three, six or nine digits. -/
theorem fractionText_of_pos {nanos : Nat} (hpos : 0 < nanos) (hlt : nanos < 1000000000) :
    ∃ width unit n, (width, unit) ∈ [(3, 1000000), (6, 1000), (9, 1)] ∧
      (fractionText nanos).toList = '.' :: (padded width n).toList ∧ n < 10 ^ width ∧
      nanos = n * unit := by
  rw [fractionText, if_neg (by omega)]
  split_ifs with hmilli hmicro
  · exact ⟨3, 1000000, nanos / 1000000, by decide, by simp, by omega, by omega⟩
  · exact ⟨6, 1000, nanos / 1000, by decide, by simp, by omega, by omega⟩
  · exact ⟨9, 1, nanos, by decide, by simp, hlt, by omega⟩

theorem endsDigits_fractionText {nanos : Nat} (hs : Signed s) :
    EndsDigits ((fractionText nanos).toList ++ s) := by
  rw [fractionText]
  split_ifs
  · exact hs.endsDigits
  all_goals
    rw [String.toList_append, List.append_assoc]
    exact endsDigits_cons (by decide) _

theorem fractionText_append_inj {nanos nanos' : Nat} (hlt : nanos < 1000000000)
    (hlt' : nanos' < 1000000000) (hs : Signed s) (hs' : Signed s')
    (h : (fractionText nanos).toList ++ s = (fractionText nanos').toList ++ s') :
    nanos = nanos' ∧ s = s' := by
  have hpoint (t : List Char) {s : List Char} (hs : Signed s) : '.' :: t ≠ s := by
    obtain ⟨c, t, rfl, rfl | rfl⟩ := hs <;> simp
  rcases Nat.eq_zero_or_pos nanos with rfl | hpos <;>
    rcases Nat.eq_zero_or_pos nanos' with rfl | hpos'
  · exact ⟨rfl, by simpa [fractionText] using h⟩
  · obtain ⟨width, unit, n, -, htext, -, -⟩ := fractionText_of_pos hpos' hlt'
    rw [htext] at h
    exact absurd h.symm (hpoint _ hs)
  · obtain ⟨width, unit, n, -, htext, -, -⟩ := fractionText_of_pos hpos hlt
    rw [htext] at h
    exact absurd h (hpoint _ hs')
  · obtain ⟨width, unit, n, hmem, htext, hn, rfl⟩ := fractionText_of_pos hpos hlt
    obtain ⟨width', unit', n', hmem', htext', hn', rfl⟩ := fractionText_of_pos hpos' hlt'
    rw [htext, htext', List.cons_append, List.cons_append, List.cons.injEq] at h
    obtain ⟨rfl, hdigits, rfl⟩ := padded_append_inj hs.endsDigits hs'.endsDigits h.2
    have hlength := congrArg List.length hdigits
    have hpositive : ∀ w : Nat × Nat, w ∈ [(3, 1000000), (6, 1000), (9, 1)] → 0 < w.1 := by decide
    rw [length_padded (hpositive _ hmem) hn, length_padded (hpositive _ hmem') hn'] at hlength
    simp only [List.mem_cons, Prod.mk.injEq, List.not_mem_nil, or_false] at hmem hmem'
    exact ⟨by rw [show unit = unit' by omega], rfl⟩

/-- A separator is told from a number in front of it. -/
def Separates (separator : String) : Prop :=
  separator.toList.head?.any (fun c => !c.isDigit) = true

instance (separator : String) : Decidable (Separates separator) :=
  inferInstanceAs (Decidable (_ = true))

theorem Separates.endsDigits {separator : String} (h : Separates separator) (s : List Char) :
    EndsDigits (separator.toList ++ s) := by
  rw [Separates] at h
  cases hd : separator.toList with
  | nil => simp [hd] at h
  | cons c t => exact endsDigits_cons (by simpa [hd] using h) _

theorem Separates.two_inj {separator : String} (h : Separates separator) {n n' : Nat}
    (heq : (two n).toList ++ (separator.toList ++ s) =
      (two n').toList ++ (separator.toList ++ s')) : n = n' ∧ s = s' := by
  obtain ⟨hn, -, hrest⟩ := padded_append_inj (h.endsDigits s) (h.endsDigits s') heq
  exact ⟨hn, List.append_cancel_left hrest⟩

theorem offsetText_inj {offset offset' : Int}
    (h : (offsetText offset ":").toList = (offsetText offset' ":").toList) : offset = offset' := by
  simp only [offsetText, String.toList_append, List.append_assoc] at h
  obtain ⟨hneg, h⟩ := sign_append_inj h
  obtain ⟨hhours, h⟩ := Separates.two_inj (by decide : Separates ":") h
  have hminutes := congrArg (fun ds => Nat.ofDigitChars 10 ds 0) h
  simp only [two, Binary64.ofDigitChars_padded] at hminutes
  omega

/-! ## The whole text -/

/-- **Times that clocks can show differ in their text.** -/
theorem iso_inj {t t' : LocalTime} (ht : t.instant.Genuine) (ht' : t'.instant.Genuine)
    (h : t.iso = t'.iso) : t = t' := by
  have hdash : Separates "-" := by decide
  have hcolon : Separates ":" := by decide
  have htext := congrArg String.toList h
  simp only [iso, clockText, String.toList_append, List.append_assoc] at htext
  obtain ⟨hyear, htext⟩ := yearText_append_inj (hdash.endsDigits _) (hdash.endsDigits _) htext
  obtain ⟨hmonth, htext⟩ := hdash.two_inj (List.append_cancel_left htext)
  obtain ⟨hday, htext⟩ := Separates.two_inj (by decide : Separates "T") htext
  obtain ⟨hhour, htext⟩ := hcolon.two_inj htext
  obtain ⟨hminute, htext⟩ := hcolon.two_inj htext
  have hsigned (t : LocalTime) : Signed (offsetText t.offset ":").toList := by
    simp only [offsetText, String.toList_append, List.append_assoc]
    exact signed_append _
  obtain ⟨hsecond, -, htext⟩ := padded_append_inj (endsDigits_fractionText (hsigned t))
    (endsDigits_fractionText (hsigned t')) htext
  obtain ⟨hnanos, htext⟩ := fractionText_append_inj (Nat.mod_lt _ (by decide))
    (Nat.mod_lt _ (by decide)) (hsigned t) (hsigned t') htext
  refine eq_of_civil ht ht' ?_ (offsetText_inj htext) hnanos
  show (⟨t.civil.year, t.civil.month, t.civil.day, t.civil.hour, t.civil.minute, t.civil.second⟩ :
    Civil) = _
  rw [hyear, hmonth, hday, hhour, hminute, hsecond]

end LocalTime
end EdgeCache
