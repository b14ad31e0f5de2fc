import EdgeCache.Text.Utf8
import Mathlib.Tactic.IntervalCases

/-!
# Text survives being read

The UTF-8 bytes of a character are read as that character, whatever follows them (`decode_encode`).
So a text is read as the characters it was written from, and repairing leaves it as it is: what has
been repaired once is not changed by repairing it again (`repaired_repaired`).

The bounds that `lead?` puts on the byte after a first byte of `E0`, `ED`, `F0` or `F4` are where
the proof meets the two facts about characters that it needs: a character is never written longer
than necessary, and is neither a surrogate nor above `10FFFF`.

For the same reason well-formed bytes come back unchanged, and only they do
(`repaired_eq_self_iff`): what repairing makes of bytes tells them apart as long as there is nothing
to repair.  Well-formed bytes may be joined, and cut before an ASCII byte (`valid_append`,
`valid_of_append_cons`).
-/

set_option autoImplicit false

namespace EdgeCache.Utf8

/-! ## First bytes -/

theorem lead?_ascii {v : Nat} (h : v ≤ 127) :
    lead? (UInt8.ofNat v) = some ⟨0, 0, 0, v⟩ := by
  have hv : (UInt8.ofNat v).toNat = v := UInt8.toNat_ofNat_of_lt' (show v < 256 by omega)
  have hlt : UInt8.ofNat v < 0x80 := by
    rw [UInt8.lt_iff_toNat_lt, hv]
    exact Nat.lt_succ_of_le h
  rw [lead?, if_pos hlt, hv]

theorem lead?_two {k : Nat} (h : 2 ≤ k) (h' : k < 32) :
    lead? (UInt8.ofNat (k + 192)) = some ⟨1, 0x80, 0xBF, k⟩ := by
  interval_cases k <;> rfl

theorem lead?_three {k : Nat} (h : k < 16) :
    lead? (UInt8.ofNat (k + 224)) =
      some ⟨2, if k = 0 then 0xA0 else 0x80, if k = 13 then 0x9F else 0xBF, k⟩ := by
  interval_cases k <;> rfl

theorem lead?_four {k : Nat} (h : k < 5) :
    lead? (UInt8.ofNat (k + 240)) =
      some ⟨3, if k = 0 then 0x90 else 0x80, if k = 4 then 0x8F else 0xBF, k⟩ := by
  interval_cases k <;> rfl

/-! ## The bytes that follow -/

/-- The byte that carries six bits. -/
def follower (m : Nat) : UInt8 := UInt8.ofNat (m + 128)

theorem toNat_follower {m : Nat} (h : m < 64) : (follower m).toNat = m + 128 :=
  UInt8.toNat_ofNat_of_lt' (show m + 128 < 256 by omega)

theorem continuation_follower {n m : Nat} {low high : UInt8} (rest : Bytes) (hm : m < 64)
    (hlow : low.toNat ≤ m + 128) (hhigh : m + 128 ≤ high.toNat) :
    continuation (n + 1) low high (follower m :: rest) =
      follower m :: continuation n 0x80 0xBF rest := by
  have hin : low ≤ follower m ∧ follower m ≤ high := by
    rw [UInt8.le_iff_toNat_le, UInt8.le_iff_toNat_le, toNat_follower hm]
    exact ⟨hlow, hhigh⟩
  simp [continuation, hin]

/-- Any byte that carries six bits can follow where only the first byte after the lead is
bounded. -/
theorem continuation_followers (ms : List Nat) (rest : Bytes) (hms : ∀ m ∈ ms, m < 64) :
    continuation ms.length 0x80 0xBF (ms.map follower ++ rest) = ms.map follower := by
  induction ms with
  | nil => rfl
  | cons m ms ih =>
    have hm : m < 64 := hms m List.mem_cons_self
    rw [List.map_cons, List.cons_append, List.length_cons,
      continuation_follower _ hm (Nat.le_add_left _ _) (by show m + 128 ≤ 191; omega),
      ih fun k hk => hms k (List.mem_cons_of_mem _ hk)]

theorem codePoint_followers (bits : Nat) (ms : List Nat) (hms : ∀ m ∈ ms, m < 64) :
    codePoint bits (ms.map follower) = ms.foldl (fun n m => n * 64 + m) bits := by
  induction ms generalizing bits with
  | nil => rfl
  | cons m ms ih =>
    have hm : m < 64 := hms m List.mem_cons_self
    have hbits : (follower m).toNat % 64 = m := by rw [toNat_follower hm]; omega
    have hrest := ih (bits * 64 + m) fun k hk => hms k (List.mem_cons_of_mem _ hk)
    rw [codePoint] at hrest ⊢
    rw [List.map_cons, List.foldl_cons, hbits, hrest, List.foldl_cons]

/-- A first byte with as many bytes behind it as it promises, the first of them in its range, is
read as the character that they spell. -/
theorem decode_spelled {b : UInt8} {l : Lead} (m : Nat) (ms : List Nat) (rest : Bytes)
    (hlead : lead? b = some l) (hmore : l.more = ms.length + 1) (hm : m < 64)
    (hms : ∀ k ∈ ms, k < 64) (hlow : l.low.toNat ≤ m + 128) (hhigh : m + 128 ≤ l.high.toNat) :
    decode (b :: ((m :: ms).map follower ++ rest)) =
      some (Char.ofNat ((m :: ms).foldl (fun n k => n * 64 + k) l.bits)) :: decode rest := by
  have hall : ∀ k ∈ m :: ms, k < 64 := by
    intro k hk
    obtain rfl | hk := List.mem_cons.1 hk
    · exact hm
    · exact hms k hk
  have htail : continuation l.more l.low l.high ((m :: ms).map follower ++ rest) =
      (m :: ms).map follower := by
    rw [hmore, List.map_cons, List.cons_append, continuation_follower _ hm hlow hhigh,
      continuation_followers ms rest hms]
  have hlength : ((m :: ms).map follower).length = l.more := by simp [hmore]
  rw [decode]
  simp only [hlead, htail, hlength, if_true, List.drop_left' hlength,
    codePoint_followers _ _ hall]

/-! ## Characters and texts -/

/-- A character is read back from its bytes. -/
theorem decode_encode (c : Char) (rest : Bytes) :
    decode (String.utf8EncodeChar c ++ rest) = some c :: decode rest := by
  obtain ⟨v, hv⟩ : ∃ v, v = c.val.toNat := ⟨_, rfl⟩
  have hc : Char.ofNat v = c := hv ▸ Char.ofNat_toNat c
  have hvalid : v < 55296 ∨ 57343 < v ∧ v < 1114112 := hv ▸ c.valid
  simp only [String.utf8EncodeChar, ← hv]
  split
  next h1 =>
    rw [List.singleton_append, decode, lead?_ascii h1]
    simp [continuation, codePoint, hc]
  next h1 =>
  split
  next h2 =>
    have hlead : v / 64 % 32 + 192 = v / 64 + 192 := by omega
    have hspell := decode_spelled (v % 64) [] rest
      (lead?_two (k := v / 64) (by omega) (by omega)) rfl (by omega) (by simp)
      (by show 128 ≤ _; omega) (by show _ ≤ 191; omega)
    have hpoint : v / 64 * 64 + v % 64 = v := by omega
    rw [hlead]
    simpa [follower, hpoint, hc] using hspell
  next h2 =>
  split
  next h3 =>
    have hlead : v / 4096 % 16 + 224 = v / 4096 + 224 := by omega
    have hspell := decode_spelled (v / 64 % 64) [v % 64] rest
      (lead?_three (k := v / 4096) (by omega)) rfl (by omega) (by simp; omega)
      (by dsimp only; split <;> [show 160 ≤ _; show 128 ≤ _] <;> omega)
      (by dsimp only; split <;> [show _ ≤ 159; show _ ≤ 191] <;> omega)
    have hpoint : (v / 4096 * 64 + v / 64 % 64) * 64 + v % 64 = v := by omega
    rw [hlead]
    simpa [follower, hpoint, hc] using hspell
  next h3 =>
    have hlead : v / 262144 % 8 + 240 = v / 262144 + 240 := by omega
    have hspell := decode_spelled (v / 4096 % 64) [v / 64 % 64, v % 64] rest
      (lead?_four (k := v / 262144) (by omega)) rfl (by omega) (by simp; omega)
      (by dsimp only; split <;> [show 144 ≤ _; show 128 ≤ _] <;> omega)
      (by dsimp only; split <;> [show _ ≤ 143; show _ ≤ 191] <;> omega)
    have hpoint : ((v / 262144 * 64 + v / 4096 % 64) * 64 + v / 64 % 64) * 64 + v % 64 = v := by
      omega
    rw [hlead]
    simpa [follower, hpoint, hc] using hspell

/-- A text is read as the characters it was written from. -/
theorem decode_flatMap_encode (cs : List Char) :
    decode (cs.flatMap String.utf8EncodeChar) = cs.map some := by
  induction cs with
  | nil => simp [decode]
  | cons c cs ih => rw [List.flatMap_cons, decode_encode, ih, List.map_cons]

theorem repaired_flatMap_encode (cs : List Char) :
    repaired (cs.flatMap String.utf8EncodeChar) = cs.flatMap String.utf8EncodeChar := by
  rw [repaired, decode_flatMap_encode, List.flatMap_map]
  rfl

/-- What has been repaired needs no repair. -/
theorem repaired_repaired (s : Bytes) : repaired (repaired s) = repaired s := by
  have htext : repaired s =
      ((decode s).map fun c => c.getD replacement).flatMap String.utf8EncodeChar := by
    rw [repaired, List.flatMap_map]
  rw [htext, repaired_flatMap_encode]

/-! ## Well-formed bytes

The other way round: bytes that are read without a gap are the bytes of the text they are read as.
A first byte and the bytes behind it are turned into numbers, so that for each length it is
arithmetic that the character they spell is written with these very bytes. -/

/-- No character begins with a byte between ASCII and the first lead, or above the last one. -/
theorem lead?_none {n : Nat} (h : 128 ≤ n ∧ n < 194 ∨ 245 ≤ n ∧ n < 256) :
    lead? (UInt8.ofNat n) = none := by
  obtain ⟨hlow, hhigh⟩ | ⟨hlow, hhigh⟩ := h <;> interval_cases n <;> rfl

/-- The first bytes that begin a character, by how many bytes they promise. -/
theorem lead?_eq_some {b : UInt8} {l : Lead} (h : lead? b = some l) :
    (∃ v, v ≤ 127 ∧ b = UInt8.ofNat v ∧ l = ⟨0, 0, 0, v⟩) ∨
    (∃ k, 2 ≤ k ∧ k < 32 ∧ b = UInt8.ofNat (k + 192) ∧ l = ⟨1, 0x80, 0xBF, k⟩) ∨
    (∃ k, k < 16 ∧ b = UInt8.ofNat (k + 224) ∧
      l = ⟨2, if k = 0 then 0xA0 else 0x80, if k = 13 then 0x9F else 0xBF, k⟩) ∨
    ∃ k, k < 5 ∧ b = UInt8.ofNat (k + 240) ∧
      l = ⟨3, if k = 0 then 0x90 else 0x80, if k = 4 then 0x8F else 0xBF, k⟩ := by
  obtain ⟨n, hn, rfl⟩ : ∃ n, n < 256 ∧ b = UInt8.ofNat n :=
    ⟨b.toNat, b.toNat_lt, UInt8.ofNat_toNat.symm⟩
  rcases Nat.lt_or_ge n 128 with h1 | h1
  · rw [lead?_ascii (by omega)] at h
    exact .inl ⟨n, by omega, rfl, (Option.some.inj h).symm⟩
  rcases Nat.lt_or_ge n 194 with h2 | h2
  · rw [lead?_none (.inl ⟨h1, h2⟩)] at h
    cases h
  rcases Nat.lt_or_ge n 224 with h3 | h3
  · obtain ⟨k, rfl⟩ := Nat.exists_eq_add_of_le' (show 192 ≤ n by omega)
    rw [lead?_two (by omega) (by omega)] at h
    exact .inr (.inl ⟨k, by omega, by omega, rfl, (Option.some.inj h).symm⟩)
  rcases Nat.lt_or_ge n 240 with h4 | h4
  · obtain ⟨k, rfl⟩ := Nat.exists_eq_add_of_le' h3
    rw [lead?_three (by omega)] at h
    exact .inr (.inr (.inl ⟨k, by omega, rfl, (Option.some.inj h).symm⟩))
  rcases Nat.lt_or_ge n 245 with h5 | h5
  · obtain ⟨k, rfl⟩ := Nat.exists_eq_add_of_le' h4
    rw [lead?_four (by omega)] at h
    exact .inr (.inr (.inr ⟨k, by omega, rfl, (Option.some.inj h).symm⟩))
  · rw [lead?_none (.inr ⟨h5, hn⟩)] at h
    cases h

/-- A byte that follows carries six bits. -/
theorem exists_follower {b : UInt8} (hlow : 128 ≤ b.toNat) (hhigh : b.toNat ≤ 191) :
    ∃ m, m < 64 ∧ b = follower m ∧ b.toNat = m + 128 := by
  have hb : b.toNat - 128 + 128 = b.toNat := by omega
  refine ⟨b.toNat - 128, by omega, ?_, hb.symm⟩
  rw [follower, hb, UInt8.ofNat_toNat]

/-- As many bytes follow as there can be: then the first of them is in its range. -/
theorem continuation_full {n : Nat} {low high : UInt8} {rest : Bytes}
    (h : (continuation (n + 1) low high rest).length = n + 1) :
    ∃ b rest', low.toNat ≤ b.toNat ∧ b.toNat ≤ high.toNat ∧
      (continuation n 0x80 0xBF rest').length = n ∧
      continuation (n + 1) low high rest = b :: continuation n 0x80 0xBF rest' := by
  cases rest with
  | nil => simp [continuation] at h
  | cons b rest =>
    simp only [continuation] at h ⊢
    split at h
    next hin =>
      have hrange : low ≤ b ∧ b ≤ high := by simpa using hin
      rw [UInt8.le_iff_toNat_le, UInt8.le_iff_toNat_le] at hrange
      exact ⟨b, rest, hrange.1, hrange.2, Nat.succ.inj h, if_pos hin⟩
    next => simp at h

theorem continuation_eq_map {n : Nat} {rest : Bytes}
    (h : (continuation n 0x80 0xBF rest).length = n) :
    ∃ ms : List Nat, ms.length = n ∧ (∀ m ∈ ms, m < 64) ∧
      continuation n 0x80 0xBF rest = ms.map follower := by
  induction n generalizing rest with
  | zero => exact ⟨[], rfl, by simp, rfl⟩
  | succ n ih =>
    obtain ⟨b, rest', hlow, hhigh, hrest, heq⟩ := continuation_full h
    obtain ⟨m, hm, rfl, -⟩ := exists_follower hlow hhigh
    obtain ⟨ms, hlength, hms, hmap⟩ := ih hrest
    refine ⟨m :: ms, by simp [hlength], ?_, by rw [heq, hmap, List.map_cons]⟩
    simpa [hm] using hms

/-- The bytes that follow carry six bits each, and those of the first are bounded. -/
theorem continuation_eq_map_cons {n : Nat} {low high : UInt8} {rest : Bytes}
    (hl : 128 ≤ low.toNat) (hh : high.toNat ≤ 191)
    (h : (continuation (n + 1) low high rest).length = n + 1) :
    ∃ (m : Nat) (ms : List Nat), ms.length = n ∧ (∀ k ∈ m :: ms, k < 64) ∧
      low.toNat ≤ m + 128 ∧ m + 128 ≤ high.toNat ∧
      continuation (n + 1) low high rest = (m :: ms).map follower := by
  obtain ⟨b, rest', hlow, hhigh, hrest, heq⟩ := continuation_full h
  obtain ⟨m, hm, rfl, hb⟩ := exists_follower (hl.trans hlow) (hhigh.trans hh)
  obtain ⟨ms, hlength, hms, hmap⟩ := continuation_eq_map hrest
  refine ⟨m, ms, hlength, by simpa [hm] using hms, hb ▸ hlow, hb ▸ hhigh, ?_⟩
  rw [heq, hmap, List.map_cons]

theorem continuation_append_drop (n : Nat) (low high : UInt8) (rest : Bytes) :
    continuation n low high rest ++ rest.drop (continuation n low high rest).length = rest := by
  induction n generalizing low high rest with
  | zero => simp [continuation]
  | succ n ih =>
    cases rest with
    | nil => simp [continuation]
    | cons b rest =>
      rw [continuation]
      split
      · simp [ih]
      · simp

/-! ### How a code point is written -/

theorem toNat_val_ofNat {v : Nat} (h : v.isValidChar) : (Char.ofNat v).val.toNat = v := by
  rw [Char.ofNat, dif_pos h]
  rfl

theorem encode_one {v : Nat} (h : v ≤ 127) :
    String.utf8EncodeChar (Char.ofNat v) = [UInt8.ofNat v] := by
  have hv : (Char.ofNat v).val.toNat = v := toNat_val_ofNat (.inl (by omega))
  simp only [String.utf8EncodeChar, hv, if_pos h]

theorem encode_two {k m : Nat} (h : 2 ≤ k) (h' : k < 32) (hm : m < 64) :
    String.utf8EncodeChar (Char.ofNat (k * 64 + m)) = [UInt8.ofNat (k + 192), follower m] := by
  have hv : (Char.ofNat (k * 64 + m)).val.toNat = k * 64 + m := toNat_val_ofNat (.inl (by omega))
  have hk : (k * 64 + m) / 64 % 32 = k := by omega
  have hm' : (k * 64 + m) % 64 = m := by omega
  simp only [String.utf8EncodeChar, hv, hk, hm', follower]
  rw [if_neg (by omega), if_pos (by omega)]

theorem encode_three {k m n : Nat} (h : k < 16) (hm : m < 64) (hn : n < 64)
    (hlow : k = 0 → 32 ≤ m) (hhigh : k = 13 → m < 32) :
    String.utf8EncodeChar (Char.ofNat ((k * 64 + m) * 64 + n)) =
      [UInt8.ofNat (k + 224), follower m, follower n] := by
  have hv : (Char.ofNat ((k * 64 + m) * 64 + n)).val.toNat = (k * 64 + m) * 64 + n :=
    toNat_val_ofNat (by
      unfold Nat.isValidChar
      omega)
  have hk : ((k * 64 + m) * 64 + n) / 4096 % 16 = k := by omega
  have hm' : ((k * 64 + m) * 64 + n) / 64 % 64 = m := by omega
  have hn' : ((k * 64 + m) * 64 + n) % 64 = n := by omega
  simp only [String.utf8EncodeChar, hv, hk, hm', hn', follower]
  rw [if_neg (by omega), if_neg (by omega), if_pos (by omega)]

theorem encode_four {k m n o : Nat} (h : k < 5) (hm : m < 64) (hn : n < 64) (ho : o < 64)
    (hlow : k = 0 → 16 ≤ m) (hhigh : k = 4 → m < 16) :
    String.utf8EncodeChar (Char.ofNat (((k * 64 + m) * 64 + n) * 64 + o)) =
      [UInt8.ofNat (k + 240), follower m, follower n, follower o] := by
  have hv : (Char.ofNat (((k * 64 + m) * 64 + n) * 64 + o)).val.toNat =
      ((k * 64 + m) * 64 + n) * 64 + o :=
    toNat_val_ofNat (.inr (by omega))
  have hk : (((k * 64 + m) * 64 + n) * 64 + o) / 262144 % 8 = k := by omega
  have hm' : (((k * 64 + m) * 64 + n) * 64 + o) / 4096 % 64 = m := by omega
  have hn' : (((k * 64 + m) * 64 + n) * 64 + o) / 64 % 64 = n := by omega
  have ho' : (((k * 64 + m) * 64 + n) * 64 + o) % 64 = o := by omega
  simp only [String.utf8EncodeChar, hv, hk, hm', hn', ho', follower]
  rw [if_neg (by omega), if_neg (by omega), if_neg (by omega)]

/-! ### Reading and writing -/

/-- A first byte with as many bytes behind it as it promises is what the character that they spell
is written with. -/
theorem encode_spelled {b : UInt8} {l : Lead} {rest : Bytes} (hlead : lead? b = some l)
    (hfull : (continuation l.more l.low l.high rest).length = l.more) :
    String.utf8EncodeChar
        (Char.ofNat (codePoint l.bits (continuation l.more l.low l.high rest))) =
      b :: continuation l.more l.low l.high rest := by
  obtain ⟨v, hv, rfl, rfl⟩ | ⟨k, hk, hk', rfl, rfl⟩ | ⟨k, hk, rfl, rfl⟩ | ⟨k, hk, rfl, rfl⟩ :=
    lead?_eq_some hlead
  · simpa [continuation, codePoint] using encode_one hv
  · obtain ⟨m, ms, hlength, hms, -, -, heq⟩ :=
      continuation_eq_map_cons (by dsimp only; decide) (by dsimp only; decide) hfull
    obtain rfl := List.length_eq_zero_iff.1 hlength
    rw [heq, codePoint_followers _ _ hms]
    exact encode_two hk hk' (hms m (by simp))
  · obtain ⟨m, ms, hlength, hms, hlow, hhigh, heq⟩ :=
      continuation_eq_map_cons (by dsimp only; split <;> decide) (by dsimp only; split <;> decide)
        hfull
    obtain ⟨n, rfl⟩ := List.length_eq_one_iff.1 hlength
    rw [heq, codePoint_followers _ _ hms]
    refine encode_three hk (hms m (by simp)) (hms n (by simp)) (fun h => ?_) fun h => ?_
    · have hm : 160 ≤ m + 128 := by rwa [if_pos h] at hlow
      omega
    · have hm : m + 128 ≤ 159 := by rwa [if_pos h] at hhigh
      omega
  · obtain ⟨m, ms, hlength, hms, hlow, hhigh, heq⟩ :=
      continuation_eq_map_cons (by dsimp only; split <;> decide) (by dsimp only; split <;> decide)
        hfull
    obtain ⟨n, o, rfl⟩ : ∃ n o, ms = [n, o] := by
      match ms, hlength with
      | [n, o], _ => exact ⟨n, o, rfl⟩
    rw [heq, codePoint_followers _ _ hms]
    refine encode_four hk (hms m (by simp)) (hms n (by simp)) (hms o (by simp)) (fun h => ?_)
      fun h => ?_
    · have hm : 144 ≤ m + 128 := by rwa [if_pos h] at hlow
      omega
    · have hm : m + 128 ≤ 143 := by rwa [if_pos h] at hhigh
      omega

/-- Repairing changes the bytes that are not well formed, and no others. -/
theorem repaired_eq_self_iff (s : Bytes) : repaired s = s ↔ valid s = true := by
  constructor
  · intro h
    have htext :
        s = ((decode s).map fun c => c.getD replacement).flatMap String.utf8EncodeChar := by
      rw [List.flatMap_map]
      exact h.symm
    rw [htext, valid, decode_flatMap_encode]
    simp
  · intro h
    induction s using decode.induct with
    | case1 => simp [repaired, decode]
    | case2 b rest hlead => simp [valid, decode, hlead] at h
    | case3 b rest l hlead tail ih =>
      rw [valid, decode] at h
      simp only [hlead, List.all_cons, Bool.and_eq_true] at h
      obtain ⟨hfirst, hrest⟩ := h
      have hfull : tail.length = l.more := by
        by_contra hne
        simp [tail, hne] at hfirst
      have hdrop : repaired (rest.drop tail.length) = rest.drop tail.length := ih hrest
      rw [repaired, decode]
      simp only [hlead, List.flatMap_cons]
      rw [if_pos hfull, Option.getD_some, encode_spelled hlead hfull, ← repaired, hdrop,
        List.cons_append, continuation_append_drop]

/-! ## Cutting and joining -/

/-- Well-formed bytes are those that some text is written with. -/
theorem valid_iff_exists {s : Bytes} :
    valid s = true ↔ ∃ cs : List Char, cs.flatMap String.utf8EncodeChar = s := by
  constructor
  · intro h
    refine ⟨(decode s).map fun c => c.getD replacement, ?_⟩
    rw [List.flatMap_map]
    exact (repaired_eq_self_iff s).2 h
  · rintro ⟨cs, rfl⟩
    exact (repaired_eq_self_iff _).1 (repaired_flatMap_encode cs)

theorem valid_append {s t : Bytes} (hs : valid s = true) (ht : valid t = true) :
    valid (s ++ t) = true := by
  obtain ⟨cs, rfl⟩ := valid_iff_exists.1 hs
  obtain ⟨ds, rfl⟩ := valid_iff_exists.1 ht
  exact valid_iff_exists.2 ⟨cs ++ ds, List.flatMap_append⟩

/-- An ASCII byte is not a part of a longer character. -/
theorem encode_of_mem_ascii {c : Char} {b : UInt8} (hb : b ∈ String.utf8EncodeChar c)
    (hascii : b.toNat < 128) : String.utf8EncodeChar c = [b] := by
  have hlong : ∀ n, 128 ≤ n → n < 256 → b ≠ UInt8.ofNat n := by
    rintro n hn hn' rfl
    rw [UInt8.toNat_ofNat_of_lt' hn'] at hascii
    omega
  simp only [String.utf8EncodeChar] at hb ⊢
  split at hb
  · next hone => rw [if_pos hone, List.mem_singleton.1 hb]
  · exfalso
    split at hb
    · simp only [List.mem_cons, List.not_mem_nil, or_false] at hb
      obtain hb | hb := hb <;> exact hlong _ (by omega) (by omega) hb
    · split at hb
      · simp only [List.mem_cons, List.not_mem_nil, or_false] at hb
        obtain hb | hb | hb := hb <;> exact hlong _ (by omega) (by omega) hb
      · simp only [List.mem_cons, List.not_mem_nil, or_false] at hb
        obtain hb | hb | hb | hb := hb <;> exact hlong _ (by omega) (by omega) hb

/-- What stands before an ASCII byte is well formed by itself. -/
theorem valid_of_append_cons {s rest : Bytes} {b : UInt8} (hascii : b.toNat < 128)
    (h : valid (s ++ b :: rest) = true) : valid s = true := by
  obtain ⟨cs, hcs⟩ := valid_iff_exists.1 h
  clear h
  induction cs generalizing s with
  | nil => simp at hcs
  | cons c cs ih =>
    rw [List.flatMap_cons] at hcs
    obtain ⟨t, rfl, ht⟩ | ⟨t, hc, ht⟩ := List.append_eq_append_iff.1 hcs
    · exact valid_append (valid_iff_exists.2 ⟨[c], by simp⟩) (ih ht)
    · cases t with
      | nil => exact valid_iff_exists.2 ⟨[c], by simp [hc]⟩
      | cons d t =>
        obtain ⟨rfl, -⟩ := List.cons.inj ht
        have hone := encode_of_mem_ascii (c := c) (hc ▸ by simp) hascii
        have hlength : s.length = 0 := by
          have := congrArg List.length (hone.symm.trans hc)
          simp only [List.length_append, List.length_cons, List.length_nil] at this
          omega
        exact valid_iff_exists.2 ⟨[], (List.length_eq_zero_iff.1 hlength).symm⟩

/-- ASCII is well formed. -/
theorem valid_of_ascii {s : Bytes} (h : ∀ b ∈ s, b.toNat < 128) : valid s = true := by
  refine valid_iff_exists.2 ⟨s.map fun b => Char.ofNat b.toNat, ?_⟩
  rw [List.flatMap_map]
  induction s with
  | nil => rfl
  | cons b s ih =>
    rw [List.flatMap_cons, encode_one (Nat.le_of_lt_succ (h b List.mem_cons_self)),
      ih fun c hc => h c (List.mem_cons_of_mem _ hc), UInt8.ofNat_toNat]
    rfl

end EdgeCache.Utf8
