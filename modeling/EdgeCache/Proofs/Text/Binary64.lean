import EdgeCache.Text.Binary64
import Mathlib.Data.Nat.Log
import Mathlib.Tactic.SplitIfs
import Mathlib.Tactic.Positivity

/-!
# Whole numbers as doubles

How large the double of a whole number is, as far as it takes to see that a million parts of one are
finite (`divide_million_ne_infinite`), what printed numbers are made of, and that they can be told
from their digits, whatever follows them (`padded_append_inj`).
-/

set_option autoImplicit false

namespace EdgeCache

theorem roundQuotient_le (num den : Nat) : roundQuotient num den ≤ num / den + 1 := by
  simp only [roundQuotient]
  split_ifs <;> omega

namespace Binary64

/-- Only a large quotient is rounded to an infinite double. -/
theorem log2_of_ofQuotient_infinite {negative sign : Bool} {num den : Nat}
    (h : ofQuotient negative num den = infinite sign) : Nat.log2 den + 1022 ≤ Nat.log2 num := by
  simp only [ofQuotient, minExp, maxExp] at h
  split_ifs at h <;> dsimp only at * <;> omega

theorem scaleTwo_div_lt {num : Nat} {exp : Int} (h : (Nat.log2 num : Int) - 53 ≤ exp) :
    (scaleTwo num 1 exp).1 / (scaleTwo num 1 exp).2 < 2 ^ 54 := by
  have hnum : num < 2 ^ (Nat.log2 num + 1) := Nat.lt_log2_self
  simp only [scaleTwo, Nat.pow_eq]
  split_ifs with hexp <;> dsimp only
  · rw [Nat.div_lt_iff_lt_mul (by positivity), one_mul, ← Nat.pow_add]
    exact hnum.trans_le (Nat.pow_le_pow_right (by decide) (by omega))
  · rw [Nat.div_one]
    calc num * 2 ^ (-exp).toNat < 2 ^ (Nat.log2 num + 1) * 2 ^ (-exp).toNat :=
          Nat.mul_lt_mul_of_pos_right hnum (by positivity)
      _ = 2 ^ (Nat.log2 num + 1 + (-exp).toNat) := (Nat.pow_add ..).symm
      _ ≤ 2 ^ 54 := Nat.pow_le_pow_right (by decide) (by omega)

theorem ofNat_finite {n m : Nat} {sign : Bool} {exp : Int} (h : ofNat n = finite sign m exp) :
    m ≤ 2 ^ 54 ∧ exp ≤ maxExp := by
  have hround (e : Int) (he : (Nat.log2 n : Int) - 53 ≤ e) :
      roundQuotient (scaleTwo n 1 e).1 (scaleTwo n 1 e).2 ≤ 2 ^ 54 :=
    Nat.le_trans (roundQuotient_le _ _) (scaleTwo_div_lt he)
  have hlog : Nat.log2 1 = 0 := by decide
  simp only [ofNat, ofQuotient, minExp, maxExp, hlog] at h ⊢
  split_ifs at h <;> simp only [finite.injEq] at h <;> obtain ⟨-, rfl, rfl⟩ := h
  all_goals refine ⟨?_, by omega⟩
  all_goals first | decide | exact hround _ (by omega)

theorem log2_lt_of_lt {n k : Nat} (hk : 0 < k) (h : n < 2 ^ k) : Nat.log2 n < k := by
  by_cases hn : n = 0
  · rw [hn, Nat.log2_zero]
    exact hk
  · exact (Nat.log2_lt hn).2 h

theorem log2_mul_lt {m j k : Nat} (hj : 0 < j) (h : m < 2 ^ j) : Nat.log2 (m * 2 ^ k) < j + k := by
  refine log2_lt_of_lt (by omega) ?_
  rw [Nat.pow_add]
  exact Nat.mul_lt_mul_of_pos_right h (Nat.two_pow_pos k)

/-- A whole number over a million is no infinite double. -/
theorem divide_million_ne_infinite (n : Nat) (sign : Bool) :
    (ofNat n).divide (ofNat 1000000) ≠ infinite sign := by
  have hmillion : ofNat 1000000 = finite false 8589934592000000 (-33) := by decide
  have hden : Nat.log2 8589934592000000 = 52 := by decide
  intro h
  cases hn : ofNat n with
  | infinite negative => rw [hn, hmillion] at h; cases h
  | nan => rw [hn, hmillion] at h; cases h
  | finite negative m exp =>
    obtain ⟨hm, hexp⟩ := ofNat_finite hn
    rw [hn, hmillion, divide] at h
    have hlarge : Nat.log2 (scaleTwo m 8589934592000000 (-33 - exp)).2 + 1022 ≤
        Nat.log2 (scaleTwo m 8589934592000000 (-33 - exp)).1 := log2_of_ofQuotient_infinite h
    simp only [scaleTwo, Nat.pow_eq] at hlarge
    split_ifs at hlarge <;> dsimp only at hlarge
    · have hnum := log2_lt_of_lt (n := m) (k := 55) (by decide) (by omega)
      omega
    · have hnum := log2_mul_lt (m := m) (j := 55) (k := (-(-33 - exp)).toNat) (by decide) (by omega)
      rw [maxExp] at hexp
      omega

/-! ## What printed numbers are made of -/

theorem isDigit_of_mem_padded {width n : Nat} {c : Char} (h : c ∈ (padded width n).toList) :
    c.isDigit = true := by
  rw [padded, String.toList_ofList, List.mem_append] at h
  rcases h with h | h
  · rw [List.eq_of_mem_replicate h]
    decide
  · exact Nat.isDigit_of_mem_toDigits (by decide) (by decide) h

theorem exists_toDigits (n : Nat) :
    ∃ c ds, Nat.toDigits 10 n = c :: ds ∧ c.isDigit = true := by
  cases h : Nat.toDigits 10 n with
  | nil => exact absurd h Nat.toDigits_ne_nil
  | cons c ds =>
    have hc : c ∈ Nat.toDigits 10 n := by simp [h]
    exact ⟨c, ds, rfl, Nat.isDigit_of_mem_toDigits (by decide) (by decide) hc⟩

/-- The text does not go on with a digit. -/
def EndsDigits (s : List Char) : Prop := ∀ c ∈ s.head?, c.isDigit = false

theorem EndsDigits.takeWhile {s : List Char} (h : EndsDigits s) :
    s.takeWhile Char.isDigit = [] := by
  cases s with
  | nil => rfl
  | cons c s => rw [List.takeWhile_cons_of_neg (by simp [h c rfl])]

theorem ofDigitChars_padded (width n : Nat) :
    Nat.ofDigitChars 10 (padded width n).toList 0 = n := by
  rw [padded, String.toList_ofList, Nat.ofDigitChars_append, Nat.ofDigitChars_replicate_zero,
    Nat.mul_zero]
  exact Nat.ofDigitChars_ten_toDigits

/-- A number can be told from its digits, also where a text follows them. -/
theorem padded_append_inj {width width' n n' : Nat} {s s' : List Char} (hs : EndsDigits s)
    (hs' : EndsDigits s')
    (h : (padded width n).toList ++ s = (padded width' n').toList ++ s') :
    n = n' ∧ (padded width n).toList = (padded width' n').toList ∧ s = s' := by
  have htake (width n : Nat) {s : List Char} (hs : EndsDigits s) :
      ((padded width n).toList ++ s).takeWhile Char.isDigit = (padded width n).toList := by
    rw [List.takeWhile_append_of_pos fun _ => isDigit_of_mem_padded, hs.takeWhile, List.append_nil]
  have hdigits : (padded width n).toList = (padded width' n').toList := by
    rw [← htake width n hs, h, htake width' n' hs']
  refine ⟨?_, hdigits, List.append_cancel_left (hdigits ▸ h)⟩
  rw [← ofDigitChars_padded width n, hdigits, ofDigitChars_padded]

theorem length_padded {width n : Nat} (hwidth : 0 < width) (hn : n < 10 ^ width) :
    (padded width n).toList.length = width := by
  have hlength := (Nat.length_toDigits_le_iff (b := 10) (by decide) hwidth).2 hn
  rw [padded, String.toList_ofList, List.length_append, List.length_replicate]
  omega

theorem toList_toString (n : Nat) : (toString n).toList = Nat.toDigits 10 n := by
  simp [toString, Nat.repr]

theorem isDigit_of_mem_toString {n : Nat} {c : Char} (h : c ∈ (toString n).toList) :
    c.isDigit = true := by
  rw [toList_toString] at h
  exact Nat.isDigit_of_mem_toDigits (by decide) (by decide) h

end Binary64
end EdgeCache
