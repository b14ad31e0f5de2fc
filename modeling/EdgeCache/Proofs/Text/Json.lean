import EdgeCache.Text.Json
import EdgeCache.Proofs.Text.Binary64

/-!
# Documents read back

What is written as a document contains no control character (`printable_chars`), whatever texts
stand in it, and reads back as the same document (`parse_render`).  The second holds for documents
without doubles whose numbers fit into 64 bits, whose objects name no member twice, and which are
not nested too deeply (`Readable`).

Reading is followed from the inside out: a digit, an escaped character, a number, a string, and then
a whole value.  At each of these the text that comes after is arbitrary, apart from what would carry
a number on.
-/

set_option autoImplicit false

namespace EdgeCache.Json

open Binary64 (EndsDigits)

/-! ## Numbers -/

/-- What may come after a value: nothing, a comma or a closing bracket. -/
def Closes (rest : List Char) : Prop := ∀ c ∈ rest.head?, c ∈ [',', ']', '\x7d']

theorem closes_comma (rest : List Char) : Closes (',' :: rest) := by simp [Closes]

theorem closes_bracket (rest : List Char) : Closes (']' :: rest) := by simp [Closes]

theorem closes_brace (rest : List Char) : Closes ('\x7d' :: rest) := by simp [Closes]

theorem Closes.endsDigits {rest : List Char} (h : Closes rest) : EndsDigits rest := by
  intro c hc
  have hall : [',', ']', '\x7d'].all (fun c => !c.isDigit) = true := by decide
  simpa using List.all_eq_true.1 hall c (h c hc)

theorem Closes.cases {rest : List Char} (h : Closes rest) :
    rest = [] ∨ ∃ c t, rest = c :: t ∧ (c = ',' ∨ c = ']' ∨ c = '\x7d') := by
  cases rest with
  | nil => exact .inl rfl
  | cons c t =>
    have hc := h c rfl
    simp only [List.mem_cons, List.not_mem_nil, or_false] at hc
    exact .inr ⟨c, t, rfl, hc⟩

theorem le_ofDigitChars (ds : List Char) (n : Nat) : n ≤ Nat.ofDigitChars 10 ds n := by
  induction ds generalizing n with
  | nil => exact Nat.le_refl n
  | cons c ds ih =>
    rw [Nat.ofDigitChars_cons]
    exact Nat.le_trans (by omega) (ih _)

/-- The digits of a number that fits are all collected. -/
theorem collect_append {ds rest : List Char} (hds : ∀ c ∈ ds, c.isDigit = true)
    (hrest : EndsDigits rest) (n : Nat) (hn : Nat.ofDigitChars 10 ds n ≤ maxSignificand) :
    collect n (ds ++ rest) = (Nat.ofDigitChars 10 ds n, ds.length, 0, rest) := by
  induction ds generalizing n with
  | nil =>
    cases rest with
    | nil => rfl
    | cons c rest =>
      have hc : digit? c = none := by simp [digit?, hrest c rfl]
      simp [collect, hc, Nat.ofDigitChars]
  | cons c ds ih =>
    have hc : digit? c = some (c.toNat - 0x30) := by rw [digit?, if_pos (hds c List.mem_cons_self)]
    have hstep : 10 * n + (c.toNat - '0'.toNat) = n * 10 + (c.toNat - 0x30) := by
      rw [Nat.mul_comm]
      rfl
    rw [Nat.ofDigitChars_cons, hstep] at hn ⊢
    -- What has been collected so far is never more than the whole number, so it fits as well.
    have hfits := Nat.le_trans (le_ofDigitChars ds _) hn
    rw [List.cons_append, collect]
    simp only [hc, if_pos hfits, ih (fun c' h => hds c' (List.mem_cons_of_mem _ h)) _ hn,
      List.length_cons]

theorem collect_toDigits {n : Nat} (hn : n ≤ maxSignificand) {rest : List Char}
    (hrest : EndsDigits rest) :
    collect 0 (Nat.toDigits 10 n ++ rest) = (n, (Nat.toDigits 10 n).length, 0, rest) := by
  have hvalue : Nat.ofDigitChars 10 (Nat.toDigits 10 n) 0 = n := Nat.ofDigitChars_ten_toDigits
  have hdigits : ∀ c ∈ Nat.toDigits 10 n, c.isDigit = true := fun _ hc =>
    Nat.isDigit_of_mem_toDigits (by decide) (by decide) hc
  rw [collect_append hdigits hrest 0 (by rwa [hvalue]), hvalue]

/-- The digits of a positive number do not begin with a zero. -/
theorem toDigits_ne_zero_cons {n : Nat} (h : 0 < n) (ds : List Char) :
    Nat.toDigits 10 n ≠ '0' :: ds := by
  induction n using Nat.strongRecOn generalizing ds with
  | ind n ih =>
    intro hd
    by_cases hn : n < 10
    · have hall : ∀ k < 10, 0 < k → (Nat.toDigits 10 k).head? ≠ some '0' := by decide
      exact hall n hn h (by rw [hd]; rfl)
    · rw [Nat.toDigits_of_base_le (by decide) (by omega)] at hd
      cases hq : Nat.toDigits 10 (n / 10) with
      | nil => exact Nat.toDigits_ne_nil hq
      | cons c ds' =>
        rw [hq, List.cons_append, List.cons.injEq] at hd
        exact ih (n / 10) (by omega) (by omega) ds' (by rw [hq, hd.1])

/-- A positive number is read back after its sign, as long as it fits into 64 bits. -/
theorem numberRest_toDigits (negative : Bool) {n : Nat} (hpos : 0 < n) (hn : n ≤ maxSignificand)
    (hlow : negative = true → ¬9223372036854775808 < n) {rest : List Char} (hrest : Closes rest) :
    numberRest negative (Nat.toDigits 10 n ++ rest) =
      some (int (if negative then -(n : Int) else n), rest) := by
  have hlength : (Nat.toDigits 10 n).length ≠ 0 := by simp [Nat.toDigits_ne_nil]
  have hzero : n ≠ 0 := by omega
  rw [numberRest, collect_toDigits hn hrest.endsDigits]
  · cases negative with
    | false => obtain rfl | ⟨c, t, rfl, rfl | rfl | rfl⟩ := hrest.cases <;> simp [hlength, hzero]
    | true =>
      have hlow := hlow rfl
      obtain rfl | ⟨c, t, rfl, rfl | rfl | rfl⟩ := hrest.cases <;> simp [hlength, hzero, hlow]
  · intro t ht
    obtain ⟨c, ds, hd, -⟩ := Binary64.exists_toDigits n
    rw [hd, List.cons_append, List.cons.injEq] at ht
    exact toDigits_ne_zero_cons hpos ds (by rw [hd, ht.1])

/-! ## Strings -/

theorem unit_hexChar :
    ∀ n < 0x20, unit? '0' '0' (hexChar (n / 16)) (hexChar (n % 16)) = some n := by
  decide

/-- One escaped character is read as that character. -/
theorem stringRest_escape (c : Char) (s : List Char) :
    stringRest (escape c ++ s) = (stringRest s).map fun t => (c :: t.1, t.2) := by
  rw [escape]
  split_ifs with h h h h h h h hcontrol
  any_goals
    subst h
    simp [stringRest, simpleEscape?]
  · have hlow : ¬(0xDC00 ≤ c.toNat ∧ c.toNat ≤ 0xDFFF) := by omega
    have hhigh : ¬(0xD800 ≤ c.toNat ∧ c.toNat ≤ 0xDBFF) := by omega
    simp only [List.cons_append, List.nil_append, stringRest, unit_hexChar _ hcontrol,
      if_neg hlow, if_neg hhigh, Char.ofNat_toNat]
  · -- Neither a quote nor a backslash nor a control character: only the last branch is left.
    rw [List.singleton_append, stringRest.eq_def]
    split <;> simp_all

theorem stringRest_flatMap_escape (s rest : List Char) :
    stringRest (s.flatMap escape ++ '"' :: rest) = some (s, rest) := by
  induction s with
  | nil => simp [stringRest]
  | cons c s ih => rw [List.flatMap_cons, List.append_assoc, stringRest_escape, ih, Option.map_some]

/-! ## Values -/

/-- A document that can be read back: no number is a double or does not fit into 64 bits, no object
names a member twice, and there are less than `depth` levels of brackets. -/
inductive Readable : Nat → Json → Prop
  | null {depth : Nat} : Readable depth null
  | bool {depth : Nat} (b : Bool) : Readable depth (bool b)
  | int {depth : Nat} {n : Int} (hlow : -9223372036854775808 ≤ n) (hhigh : n ≤ maxSignificand) :
      Readable depth (int n)
  | str {depth : Nat} (s : String) : Readable depth (str s)
  | arr {depth : Nat} {items : List Json} (h : ∀ j ∈ items, Readable (depth + 1) j) :
      Readable (depth + 2) (arr items)
  | obj {depth : Nat} {members : List (String × Json)} (hnames : (members.map (·.1)).Nodup)
      (h : ∀ m ∈ members, Readable (depth + 1) m.2) : Readable (depth + 2) (obj members)

/-- The decimal digits. -/
def digits : List Char := ['0', '1', '2', '3', '4', '5', '6', '7', '8', '9']

theorem mem_digits_of_isDigit {c : Char} (h : c.isDigit = true) : c ∈ digits := by
  have hall : ∀ n < 0x3a, 0x30 ≤ n → Char.ofNat n ∈ digits := by decide
  simp only [Char.isDigit, Bool.and_eq_true, decide_eq_true_eq] at h
  rw [← Char.ofNat_toNat c]
  exact hall c.toNat (Nat.lt_succ_of_le h.2) h.1

/-- A blank between the parts of a document. -/
def isBlank (c : Char) : Bool := c = ' ' || c = '\t' || c = '\n' || c = '\r'

theorem skip_cons {c : Char} (h : isBlank c = false) (s : List Char) : skip (c :: s) = c :: s := by
  rw [isBlank] at h
  rw [skip, List.dropWhile_cons_of_neg (by simp [h])]

/-- The characters that a value begins with. -/
def opening : List Char := ['n', 't', 'f', '"', '-', '[', '\x7b'] ++ digits

/-- A text that begins as a value does. -/
def Opens (s : List Char) : Prop := ∃ c t, s = c :: t ∧ c ∈ opening

theorem Opens.append {s : List Char} (h : Opens s) (rest : List Char) : Opens (s ++ rest) := by
  obtain ⟨c, t, rfl, hc⟩ := h
  exact ⟨c, t ++ rest, rfl, hc⟩

theorem Opens.skip {s : List Char} (h : Opens s) : skip s = s := by
  have hall : opening.all (fun c => !isBlank c) = true := by decide
  obtain ⟨c, t, rfl, hc⟩ := h
  exact skip_cons (by simpa using List.all_eq_true.1 hall c hc) t

theorem Opens.ne_close {s : List Char} (h : Opens s) (t : List Char) :
    s ≠ ']' :: t ∧ s ≠ '\x7d' :: t := by
  have hclose : ']' ∉ opening ∧ '\x7d' ∉ opening := by decide
  obtain ⟨c, t', rfl, hc⟩ := h
  constructor
  · rintro ⟨⟩
    exact hclose.1 hc
  · rintro ⟨⟩
    exact hclose.2 hc

theorem Readable.opens {depth : Nat} {j : Json} (h : Readable depth j) : Opens (chars j) := by
  cases h with
  | null => exact ⟨'n', _, rfl, by decide⟩
  | bool b => cases b with
    | true => exact ⟨'t', _, rfl, by decide⟩
    | false => exact ⟨'f', _, rfl, by decide⟩
  | @int _ n hlow hhigh =>
    rw [chars]
    split
    · obtain ⟨c, ds, hd, hc⟩ := Binary64.exists_toDigits n.toNat
      exact ⟨c, ds, hd, List.mem_append_right _ (mem_digits_of_isDigit hc)⟩
    · exact ⟨'-', _, rfl, by decide⟩
  | str s => exact ⟨'"', _, rfl, by decide⟩
  | arr h => exact ⟨'[', _, rfl, by decide⟩
  | obj hnames h => exact ⟨'\x7b', _, rfl, by decide⟩

/-- The value is read back from its characters, whatever comes after them.  Each character pays for
one level of the reader's recursion. -/
def ReadsBack (depth : Nat) (j : Json) : Prop :=
  ∀ fuel rest, (chars j).length ≤ fuel + 1 → Closes rest →
    value (fuel + 1) depth (chars j ++ rest) = some (j, rest)

theorem value_digit {fuel depth : Nat} {c : Char} {s : List Char} (h : c.isDigit = true) :
    value (fuel + 1) depth (c :: s) = numberRest false (c :: s) := by
  have hc := mem_digits_of_isDigit h
  simp only [digits, List.mem_cons, List.not_mem_nil, or_false] at hc
  rcases hc with rfl | rfl | rfl | rfl | rfl | rfl | rfl | rfl | rfl | rfl <;> rfl

theorem readsBack_int {depth : Nat} {n : Int} (hlow : -9223372036854775808 ≤ n)
    (hhigh : n ≤ maxSignificand) : ReadsBack depth (int n) := by
  intro fuel rest hfuel hrest
  rw [chars]
  split
  · rename_i hn
    -- Zero is read on its own, for no other number begins with it.
    have hread : numberRest false (Nat.toDigits 10 n.toNat ++ rest) = some (int n, rest) := by
      rcases Nat.eq_zero_or_pos n.toNat with hzero | hpos
      · obtain rfl : n = 0 := by omega
        obtain rfl | ⟨c, t, rfl, rfl | rfl | rfl⟩ := hrest.cases <;> rfl
      · rw [numberRest_toDigits false hpos (by omega) (by simp) hrest, if_neg Bool.false_ne_true,
          Int.toNat_of_nonneg hn]
    obtain ⟨c, ds, hd, hc⟩ := Binary64.exists_toDigits n.toNat
    rw [hd, List.cons_append] at hread ⊢
    rw [value_digit hc, hread]
  · rename_i hn
    have hmax : (-n).toNat ≤ maxSignificand := by rw [maxSignificand]; omega
    show numberRest true (Nat.toDigits 10 (-n).toNat ++ rest) = some (int n, rest)
    rw [numberRest_toDigits true (by omega) hmax (fun _ => by omega) hrest, if_pos rfl,
      Int.toNat_of_nonneg (by omega), Int.neg_neg]

theorem readsBack_str {depth : Nat} (s : String) : ReadsBack depth (str s) := by
  intro fuel rest hfuel hrest
  have hs : stringRest (s.toList.flatMap escape ++ '"' :: rest) = some (s.toList, rest) :=
    stringRest_flatMap_escape s.toList rest
  rw [chars, quote, List.cons_append, List.append_assoc, List.singleton_append]
  show (stringRest (s.toList.flatMap escape ++ '"' :: rest)).map _ = some (str s, rest)
  rw [hs, Option.map_some]
  simp only [String.ofList_toList]

/-! ### Arrays -/

theorem Opens.length_pos {s : List Char} (h : Opens s) : 0 < s.length := by
  obtain ⟨c, t, rfl, hc⟩ := h
  exact Nat.succ_pos _

theorem commas_cons_cons (a b : List Char) (pieces : List (List Char)) :
    commas (a :: b :: pieces) = a ++ ',' :: commas (b :: pieces) := rfl

theorem Opens.commas {a : List Char} (h : Opens a) (pieces : List (List Char)) :
    Opens (commas (a :: pieces)) := by
  cases pieces with
  | nil => exact h
  | cons b pieces => exact h.append _

theorem itemsRest_commas {depth : Nat} {j : Json} {js : List Json}
    (hopens : ∀ i ∈ j :: js, Opens (chars i)) (hread : ∀ i ∈ j :: js, ReadsBack depth i)
    {fuel : Nat} (rest : List Char) (hfuel : (commas (itemChars (j :: js))).length ≤ fuel) :
    itemsRest (fuel + 1) depth (commas (itemChars (j :: js)) ++ ']' :: rest) =
      some (j :: js, rest) := by
  induction js generalizing j fuel with
  | nil =>
    have hpos := (hopens j List.mem_cons_self).length_pos
    simp only [itemChars, commas] at hfuel ⊢
    obtain ⟨k, rfl⟩ : ∃ k, fuel = k + 1 := ⟨fuel - 1, by omega⟩
    rw [itemsRest, hread j List.mem_cons_self k _ hfuel (closes_bracket rest)]
    rfl
  | cons j' js ih =>
    have hpos := (hopens j List.mem_cons_self).length_pos
    rw [itemChars, itemChars, commas_cons_cons, ← itemChars] at hfuel ⊢
    rw [List.length_append, List.length_cons] at hfuel
    obtain ⟨k, rfl⟩ : ∃ k, fuel = k + 1 := ⟨fuel - 1, by omega⟩
    rw [itemsRest, List.append_assoc, List.cons_append,
      hread j List.mem_cons_self k _ (by omega) (closes_comma _)]
    show (itemsRest (k + 1) depth (commas (itemChars (j' :: js)) ++ ']' :: rest)).map _ = _
    rw [ih (fun i hi => hopens i (List.mem_cons_of_mem j hi))
      (fun i hi => hread i (List.mem_cons_of_mem j hi)) (by omega)]
    rfl

theorem value_bracket {fuel depth : Nat} {s : List Char} (hs : Opens s) :
    value (fuel + 1) (depth + 2) ('[' :: s) =
      (itemsRest fuel (depth + 1) s).map fun t => (arr t.1, t.2) := by
  rw [value, skip_cons (by decide)]
  simp only [hs.skip]
  split
  · omega
  · split
    · rename_i r
      exact absurd rfl (hs.ne_close r).1
    · rfl

theorem readsBack_arr {depth : Nat} {items : List Json} (hopens : ∀ j ∈ items, Opens (chars j))
    (hread : ∀ j ∈ items, ReadsBack (depth + 1) j) : ReadsBack (depth + 2) (arr items) := by
  intro fuel rest hfuel hrest
  rw [chars] at hfuel ⊢
  cases items with
  | nil => rfl
  | cons j js =>
    have hlist := (hopens j List.mem_cons_self).commas (itemChars js)
    rw [List.length_cons, List.length_append, List.length_singleton, itemChars] at hfuel
    have hpos := hlist.length_pos
    obtain ⟨k, rfl⟩ : ∃ k, fuel = k + 1 := ⟨fuel - 1, by omega⟩
    rw [List.cons_append, List.append_assoc, List.singleton_append, itemChars,
      value_bracket (hlist.append _), ← itemChars,
      itemsRest_commas hopens hread rest (by rw [itemChars]; omega)]
    rfl

/-! ### Objects -/

theorem opens_quote (s : List Char) : Opens (quote s) := ⟨'"', _, rfl, by decide⟩

theorem quote_append (s rest : List Char) :
    quote s ++ rest = '"' :: (s.flatMap escape ++ '"' :: rest) := by
  rw [quote, List.cons_append, List.append_assoc, List.singleton_append]

theorem memberChars_cons (m : String × Json) (ms : List (String × Json)) :
    memberChars (m :: ms) = (quote m.1.toList ++ ':' :: chars m.2) :: memberChars ms := by
  rw [memberChars]

section Member

variable {fuel depth : Nat} {m : String × Json} (hread : ReadsBack depth m.2)
  (hfuel : (chars m.2).length ≤ fuel + 1) (rest : List Char)
include hread hfuel

/-- Reading goes on behind a comma. -/
theorem membersRest_comma :
    membersRest (fuel + 2) depth (quote m.1.toList ++ ':' :: chars m.2 ++ ',' :: rest) =
      (membersRest (fuel + 1) depth rest).map fun t => (m :: t.1, t.2) := by
  have hname := stringRest_flatMap_escape m.1.toList (':' :: (chars m.2 ++ ',' :: rest))
  have hvalue := hread fuel _ hfuel (closes_comma rest)
  rw [List.append_assoc, List.cons_append, quote_append, membersRest]
  simp only [skip_cons (c := '"') (by decide), hname, skip_cons (c := ':') (by decide), hvalue,
    skip_cons (c := ',') (by decide), String.ofList_toList, Prod.mk.eta]

theorem membersRest_brace :
    membersRest (fuel + 2) depth (quote m.1.toList ++ ':' :: chars m.2 ++ '\x7d' :: rest) =
      some ([m], rest) := by
  have hname := stringRest_flatMap_escape m.1.toList (':' :: (chars m.2 ++ '\x7d' :: rest))
  have hvalue := hread fuel _ hfuel (closes_brace rest)
  rw [List.append_assoc, List.cons_append, quote_append, membersRest]
  simp only [skip_cons (c := '"') (by decide), hname, skip_cons (c := ':') (by decide), hvalue,
    skip_cons (c := '\x7d') (by decide), String.ofList_toList, Prod.mk.eta]

end Member

theorem length_lt_length_member (m : String × Json) :
    (chars m.2).length < (quote m.1.toList ++ ':' :: chars m.2).length := by
  rw [List.length_append, List.length_cons]
  omega

theorem membersRest_commas {depth : Nat} {m : String × Json} {ms : List (String × Json)}
    (hread : ∀ i ∈ m :: ms, ReadsBack depth i.2) {fuel : Nat} (rest : List Char)
    (hfuel : (commas (memberChars (m :: ms))).length ≤ fuel) :
    membersRest (fuel + 1) depth (commas (memberChars (m :: ms)) ++ '\x7d' :: rest) =
      some (m :: ms, rest) := by
  induction ms generalizing m fuel with
  | nil =>
    have hlength := length_lt_length_member m
    simp only [memberChars, commas] at hfuel ⊢
    obtain ⟨k, rfl⟩ : ∃ k, fuel = k + 1 := ⟨fuel - 1, by omega⟩
    exact membersRest_brace (hread m List.mem_cons_self) (by omega) rest
  | cons m' ms ih =>
    have hlength := length_lt_length_member m
    rw [memberChars_cons, memberChars_cons, commas_cons_cons, ← memberChars_cons] at hfuel ⊢
    rw [List.length_append, List.length_cons] at hfuel
    obtain ⟨k, rfl⟩ : ∃ k, fuel = k + 1 := ⟨fuel - 1, by omega⟩
    rw [List.append_assoc, List.cons_append,
      membersRest_comma (hread m List.mem_cons_self) (by omega),
      ih (fun i hi => hread i (List.mem_cons_of_mem m hi)) (by omega), Option.map_some]

/-- Members with different names all stand, in the order in which they are read. -/
theorem foldl_setMember {members : List (String × Json)} (acc : List (String × Json))
    (h : ((acc ++ members).map (·.1)).Nodup) :
    members.foldl (fun acc m => setMember acc m.1 m.2) acc = acc ++ members := by
  induction members generalizing acc with
  | nil => exact (List.append_nil acc).symm
  | cons m members ih =>
    have hm : ∀ i ∈ acc, (i.1 != m.1) = true := by
      intro i hi
      rw [List.map_append, List.map_cons, List.nodup_append] at h
      exact bne_iff_ne.2 (h.2.2 i.1 (List.mem_map_of_mem hi) m.1 List.mem_cons_self)
    rw [List.foldl_cons, setMember, List.filter_eq_self.2 hm]
    rw [ih (acc ++ [m]) (by rwa [List.append_assoc, List.singleton_append]), List.append_assoc,
      List.singleton_append]

theorem value_brace {fuel depth : Nat} {s : List Char} (hs : Opens s) :
    value (fuel + 1) (depth + 2) ('\x7b' :: s) =
      (membersRest fuel (depth + 1) s).map fun t =>
        (obj (t.1.foldl (fun acc m => setMember acc m.1 m.2) []), t.2) := by
  rw [value, skip_cons (by decide)]
  simp only [hs.skip]
  split
  · omega
  · split
    · rename_i r
      exact absurd rfl (hs.ne_close r).2
    · rfl

theorem readsBack_obj {depth : Nat} {members : List (String × Json)}
    (hnames : (members.map (·.1)).Nodup) (hread : ∀ m ∈ members, ReadsBack (depth + 1) m.2) :
    ReadsBack (depth + 2) (obj members) := by
  intro fuel rest hfuel hrest
  rw [chars] at hfuel ⊢
  cases members with
  | nil => rfl
  | cons m ms =>
    have hlist : Opens (commas (memberChars (m :: ms))) :=
      ((opens_quote m.1.toList).append _).commas (memberChars ms)
    rw [List.length_cons, List.length_append, List.length_singleton] at hfuel
    have hpos := hlist.length_pos
    obtain ⟨k, rfl⟩ : ∃ k, fuel = k + 1 := ⟨fuel - 1, by omega⟩
    rw [List.cons_append, List.append_assoc, List.singleton_append, value_brace (hlist.append _),
      membersRest_commas hread rest (by omega), Option.map_some, foldl_setMember [] hnames]
    rfl

/-! ### Documents -/

/-- Each value in a readable document reads back. -/
theorem Readable.readsBack {depth : Nat} {j : Json} (h : Readable depth j) : ReadsBack depth j := by
  induction h with
  | null => exact fun fuel rest hfuel hrest => rfl
  | bool b => cases b <;> exact fun fuel rest hfuel hrest => rfl
  | int hlow hhigh => exact readsBack_int hlow hhigh
  | str s => exact readsBack_str s
  | arr h ih => exact readsBack_arr (fun j hj => (h j hj).opens) ih
  | obj hnames h ih => exact readsBack_obj hnames ih

/-- A readable document is read back as it was written. -/
theorem parse_render {j : Json} (h : Readable maxDepth j) : parse j.render = some j := by
  have hread := h.readsBack (2 * j.chars.length + 1) [] (by omega) (by simp [Closes])
  rw [List.append_nil] at hread
  have hsize : 2 * j.render.length + 2 = 2 * j.chars.length + 1 + 1 := by
    rw [render, String.length_ofList]
  rw [parse, hsize, render, String.toList_ofList, hread]
  rfl

/-! ## No control characters -/

/-- No control character stands in the text. -/
def Printable (s : List Char) : Prop := ∀ c ∈ s, 0x20 ≤ c.toNat

@[simp] theorem printable_nil : Printable [] := by simp [Printable]

@[simp] theorem printable_cons (c : Char) (s : List Char) :
    Printable (c :: s) ↔ 0x20 ≤ c.toNat ∧ Printable s := by simp [Printable]

@[simp] theorem printable_append (s t : List Char) :
    Printable (s ++ t) ↔ Printable s ∧ Printable t := by simp [Printable, or_imp, forall_and]

theorem Printable.subset {s t : List Char} (h : Printable t) (hst : s ⊆ t) : Printable s :=
  fun c hc => h c (hst hc)

theorem printable_of_digits {s : List Char} (h : ∀ c ∈ s, c.isDigit = true) : Printable s := by
  intro c hc
  have hdigit := h c hc
  simp only [Char.isDigit, Bool.and_eq_true, decide_eq_true_eq] at hdigit
  exact Nat.le_trans (by decide) hdigit.1

theorem printable_toDigits (n : Nat) : Printable (Nat.toDigits 10 n) :=
  printable_of_digits fun _ hc => Nat.isDigit_of_mem_toDigits (by decide) (by decide) hc

theorem printable_replicate (n : Nat) : Printable (List.replicate n '0') :=
  printable_of_digits fun _ hc => by rw [List.eq_of_mem_replicate hc]; decide

theorem printable_shortest (x : Binary64) : Printable x.shortest.toList := by
  cases x with
  | nan => simp [Binary64.shortest]
  | infinite negative => cases negative <;> simp [Binary64.shortest]
  | finite negative m e =>
    have hsign : Printable (if negative then "-" else "").toList := by cases negative <;> simp
    have hdigits (k n : Nat) : Printable (List.replicate k '0' ++ Nat.toDigits 10 n) := by
      simp [printable_replicate, printable_toDigits]
    simp only [Binary64.shortest]
    generalize (if negative then "-" else "") = sign at hsign ⊢
    generalize Binary64.shortestDigits m e = shortest
    split
    · simp [hsign]
    split
    · simp [hsign, printable_toDigits, printable_replicate]
    generalize hds : List.replicate _ '0' ++ Nat.toDigits 10 shortest.1 = ds
    have hall : Printable ds := hds ▸ hdigits _ _
    rw [String.toList_append, printable_append, String.toList_ofList]
    have hwhole (k : Nat) : Printable (ds.take k) := hall.subset (List.take_subset k ds)
    have hrest (k : Nat) : Printable ((ds.drop k).reverse.dropWhile (· == '0')).reverse := by
      refine hall.subset fun c hc => ?_
      rw [List.mem_reverse] at hc
      have hdropped := List.mem_reverse.1 ((List.dropWhile_sublist _).subset hc)
      exact List.drop_subset k ds hdropped
    refine ⟨hsign, ?_⟩
    split
    · exact hwhole _
    · simp [hwhole, hrest]

theorem printable_escape (c : Char) : Printable (escape c) := by
  have hhex : ∀ k < 16, 0x20 ≤ (hexChar k).toNat := by decide
  rw [escape]
  split_ifs
  all_goals simp only [printable_cons, printable_nil, and_true]
  any_goals decide
  · have hhigh := hhex (c.toNat / 16) (by omega)
    have hlow := hhex (c.toNat % 16) (by omega)
    exact ⟨by decide, by decide, by decide, by decide, hhigh, hlow⟩
  · omega

theorem printable_quote (s : List Char) : Printable (quote s) := by
  have hs : Printable (s.flatMap escape) := by
    intro d hd
    obtain ⟨c, hc, hd⟩ := List.mem_flatMap.1 hd
    exact printable_escape c d hd
  simpa [quote] using hs

theorem printable_commas {pieces : List (List Char)} (h : ∀ piece ∈ pieces, Printable piece) :
    Printable (commas pieces) := by
  induction pieces with
  | nil => exact printable_nil
  | cons a pieces ih =>
    have ha := h a List.mem_cons_self
    have htail := ih fun b hb => h b (List.mem_cons_of_mem a hb)
    cases pieces with
    | nil => exact ha
    | cons b pieces => simp [commas_cons_cons, ha, htail]

mutual

/-- **No control character stands in a document**, whatever its texts are. -/
theorem printable_chars : ∀ j : Json, Printable (chars j)
  | null => by simp [chars]
  | bool true => by simp [chars]
  | bool false => by simp [chars]
  | int n => by
    rw [chars]
    split
    · exact printable_toDigits _
    · simpa using printable_toDigits _
  | float x => printable_shortest x
  | str s => printable_quote _
  | arr items => by simpa [chars] using printable_commas (printable_itemChars items)
  | obj members => by simpa [chars] using printable_commas (printable_memberChars members)

theorem printable_itemChars : ∀ items : List Json, ∀ piece ∈ itemChars items, Printable piece
  | [] => by simp [itemChars]
  | j :: js => by simpa [itemChars] using ⟨printable_chars j, printable_itemChars js⟩

theorem printable_memberChars :
    ∀ members : List (String × Json), ∀ piece ∈ memberChars members, Printable piece
  | [] => by simp [memberChars]
  | (name, j) :: ms => by
    simpa [memberChars] using
      ⟨⟨printable_quote _, printable_chars j⟩, printable_memberChars ms⟩

end

end EdgeCache.Json
