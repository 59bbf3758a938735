import RegisterMachine.Text.Rune

/-!
# Texts of characters

`badRune?` finds no stray byte exactly in the texts of character strings (`badRune?_eq_none_iff`): the encoding of
a character is always cut off as one piece, and a piece that is no stray byte is the encoding of a character.

Bytes are compared as natural numbers, so that the arithmetic of the encoding is left to `omega`.
-/

namespace RegisterMachine

open Rune

variable {a b c d : UInt8} {rest : Bytes}

/-! ## The pieces, by their first byte -/

theorem Rune.isTail_iff : isTail b = true ↔ 0x80 ≤ b.toNat ∧ b.toNat ≤ 0xBF := by
  simp [isTail, UInt8.le_iff_toNat_le]

theorem Rune.secondOfThree_iff : secondOfThree a b = true ↔
    isTail b = true ∧ (a.toNat = 0xE0 → 0xA0 ≤ b.toNat) ∧ (a.toNat = 0xED → b.toNat ≤ 0x9F) := by
  simp [secondOfThree, UInt8.le_iff_toNat_le, ← UInt8.toNat_inj, Decidable.imp_iff_not_or, and_assoc]

theorem Rune.secondOfFour_iff : secondOfFour a b = true ↔
    isTail b = true ∧ (a.toNat = 0xF0 → 0x90 ≤ b.toNat) ∧ (a.toNat = 0xF4 → b.toNat ≤ 0x8F) := by
  simp [secondOfFour, UInt8.le_iff_toNat_le, ← UInt8.toNat_inj, Decidable.imp_iff_not_or, and_assoc]

theorem runes_one (ha : a.toNat < 0x80) : runes (a :: rest) = ⟨some a.toNat, [a]⟩ :: runes rest := by
  have h1 : a < 0x80 := ha
  rw [runes.eq_def]
  exact if_pos h1

/-- The first byte of a longer piece is neither an ASCII character nor stray. -/
theorem not_stray_of_lead (ha : 0xC2 ≤ a.toNat) (ha' : a.toNat ≤ 0xF4) :
    ¬ a < 0x80 ∧ (decide (a < 0xC2) || decide (0xF4 < a)) = false := by
  have h1 : ¬ a < 0x80 :=
    fun h => absurd (UInt8.lt_iff_toNat_lt.mp h) (Nat.not_lt.mpr (Nat.le_trans (by decide) ha))
  have h2 : ¬ a < 0xC2 := fun h => absurd (UInt8.lt_iff_toNat_lt.mp h) (Nat.not_lt.mpr ha)
  have h3 : ¬ 0xF4 < a := fun h => absurd (UInt8.lt_iff_toNat_lt.mp h) (Nat.not_lt.mpr ha')
  simp [h1, h2, h3]

theorem runes_two (ha : 0xC2 ≤ a.toNat) (ha' : a.toNat < 0xE0) (hb : isTail b = true) :
    runes (a :: b :: rest) = ⟨some (a.toNat % 32 * 64 + payload b), [a, b]⟩ :: runes rest := by
  obtain ⟨h1, h2⟩ := not_stray_of_lead ha (by omega)
  have h3 : a < 0xE0 := ha'
  rw [runes.eq_def]
  simp only [h1, h2, h3, hb, if_true, if_false, Bool.false_eq_true]

theorem runes_three (ha : 0xE0 ≤ a.toNat) (ha' : a.toNat < 0xF0) (hb : secondOfThree a b = true)
    (hc : isTail c = true) :
    runes (a :: b :: c :: rest) =
      ⟨some ((a.toNat % 16 * 64 + payload b) * 64 + payload c), [a, b, c]⟩ :: runes rest := by
  obtain ⟨h1, h2⟩ := not_stray_of_lead (Nat.le_trans (by decide) ha) (by omega)
  have h3 : ¬ a < 0xE0 := Nat.not_lt.mpr ha
  have h4 : a < 0xF0 := ha'
  rw [runes.eq_def]
  simp only [h1, h2, h3, h4, hb, hc, if_true, if_false, Bool.false_eq_true, Bool.and_self]

theorem runes_four (ha : 0xF0 ≤ a.toNat) (ha' : a.toNat ≤ 0xF4) (hb : secondOfFour a b = true)
    (hc : isTail c = true) (hd : isTail d = true) :
    runes (a :: b :: c :: d :: rest) =
      ⟨some (((a.toNat % 8 * 64 + payload b) * 64 + payload c) * 64 + payload d), [a, b, c, d]⟩ :: runes rest := by
  obtain ⟨h1, h2⟩ := not_stray_of_lead (Nat.le_trans (by decide) ha) ha'
  have h3 : ¬ a < 0xE0 := Nat.not_lt.mpr (Nat.le_trans (by decide) ha)
  have h4 : ¬ a < 0xF0 := Nat.not_lt.mpr ha
  rw [runes.eq_def]
  simp only [h1, h2, h3, h4, hb, hc, hd, if_true, if_false, Bool.false_eq_true, Bool.and_self]

/-! ## The encoding of a character is one piece -/

theorem utf8_ofList (l : List Char) : utf8 (String.ofList l) = l.flatMap String.utf8EncodeChar := by
  simp [utf8, String.toUTF8_eq_toByteArray, List.utf8Encode]

theorem runes_utf8EncodeChar_append (x : Char) (rest : Bytes) :
    ∃ r, r.code.isSome ∧ runes (String.utf8EncodeChar x ++ rest) = r :: runes rest := by
  have hv : x.val.toNat < 55296 ∨ 57343 < x.val.toNat ∧ x.val.toNat < 1114112 := x.valid
  unfold String.utf8EncodeChar
  generalize x.val.toNat = n at hv
  dsimp only
  split
  · refine ⟨_, rfl, runes_one ?_⟩
    simp only [UInt8.toNat_ofNat']; omega
  split
  · refine ⟨_, rfl, runes_two ?_ ?_ (isTail_iff.mpr ?_)⟩ <;> simp only [UInt8.toNat_ofNat'] <;> omega
  split
  · refine ⟨_, rfl, runes_three ?_ ?_ (secondOfThree_iff.mpr ⟨isTail_iff.mpr ?_, ?_⟩) (isTail_iff.mpr ?_)⟩ <;>
      simp only [UInt8.toNat_ofNat'] <;> omega
  · refine ⟨_, rfl, runes_four ?_ ?_ (secondOfFour_iff.mpr ⟨isTail_iff.mpr ?_, ?_⟩) (isTail_iff.mpr ?_)
      (isTail_iff.mpr ?_)⟩ <;> simp only [UInt8.toNat_ofNat'] <;> omega

/-- A text of characters has no stray byte. -/
theorem runes_utf8 (l : List Char) : ∀ r ∈ runes (l.flatMap String.utf8EncodeChar), r.code.isSome := by
  induction l with
  | nil => simp [runes]
  | cons x l ih =>
    obtain ⟨r, hr, he⟩ := runes_utf8EncodeChar_append x (l.flatMap String.utf8EncodeChar)
    rw [List.flatMap_cons, he]
    exact List.forall_mem_cons.mpr ⟨hr, ih⟩

/-! ## A piece with a code is the encoding of a character -/

theorem exists_char_val {n : Nat} (h : n.isValidChar) : ∃ x : Char, x.val.toNat = n :=
  ⟨Char.ofNatAux n h, rfl⟩

theorem exists_utf8EncodeChar_one (ha : a.toNat < 0x80) : ∃ x : Char, String.utf8EncodeChar x = [a] := by
  obtain ⟨x, hx⟩ := exists_char_val (n := a.toNat) (.inl (by omega))
  refine ⟨x, ?_⟩
  rw [String.utf8EncodeChar, hx, if_pos (by omega), UInt8.ofNat_toNat]

theorem exists_utf8EncodeChar_two (ha : 0xC2 ≤ a.toNat) (ha' : a.toNat < 0xE0) (hb : isTail b = true) :
    ∃ x : Char, String.utf8EncodeChar x = [a, b] := by
  rw [isTail_iff] at hb
  obtain ⟨x, hx⟩ := exists_char_val (n := (a.toNat - 0xC0) * 64 + (b.toNat - 0x80)) (.inl (by omega))
  refine ⟨x, ?_⟩
  have h1 : x.val.toNat / 64 % 0x20 + 0xC0 = a.toNat := by omega
  have h2 : x.val.toNat % 0x40 + 0x80 = b.toNat := by omega
  rw [String.utf8EncodeChar, if_neg (by omega), if_pos (by omega), h1, h2, UInt8.ofNat_toNat, UInt8.ofNat_toNat]

theorem exists_utf8EncodeChar_three (ha : 0xE0 ≤ a.toNat) (ha' : a.toNat < 0xF0) (hb : secondOfThree a b = true)
    (hc : isTail c = true) : ∃ x : Char, String.utf8EncodeChar x = [a, b, c] := by
  simp only [secondOfThree_iff, isTail_iff] at hb hc
  obtain ⟨x, hx⟩ := exists_char_val
    (n := (a.toNat - 0xE0) * 4096 + (b.toNat - 0x80) * 64 + (c.toNat - 0x80))
    (by simp only [Nat.isValidChar]; omega)
  refine ⟨x, ?_⟩
  have h1 : x.val.toNat / 4096 % 0x10 + 0xE0 = a.toNat := by omega
  have h2 : x.val.toNat / 64 % 0x40 + 0x80 = b.toNat := by omega
  have h3 : x.val.toNat % 0x40 + 0x80 = c.toNat := by omega
  rw [String.utf8EncodeChar, if_neg (by omega), if_neg (by omega), if_pos (by omega), h1, h2, h3,
    UInt8.ofNat_toNat, UInt8.ofNat_toNat, UInt8.ofNat_toNat]

theorem exists_utf8EncodeChar_four (ha : 0xF0 ≤ a.toNat) (ha' : a.toNat ≤ 0xF4) (hb : secondOfFour a b = true)
    (hc : isTail c = true) (hd : isTail d = true) : ∃ x : Char, String.utf8EncodeChar x = [a, b, c, d] := by
  simp only [secondOfFour_iff, isTail_iff] at hb hc hd
  obtain ⟨x, hx⟩ := exists_char_val
    (n := (a.toNat - 0xF0) * 262144 + (b.toNat - 0x80) * 4096 + (c.toNat - 0x80) * 64 + (d.toNat - 0x80))
    (by simp only [Nat.isValidChar]; omega)
  refine ⟨x, ?_⟩
  have h1 : x.val.toNat / 262144 % 0x08 + 0xF0 = a.toNat := by omega
  have h2 : x.val.toNat / 4096 % 0x40 + 0x80 = b.toNat := by omega
  have h3 : x.val.toNat / 64 % 0x40 + 0x80 = c.toNat := by omega
  have h4 : x.val.toNat % 0x40 + 0x80 = d.toNat := by omega
  rw [String.utf8EncodeChar, if_neg (by omega), if_neg (by omega), if_neg (by omega), h1, h2, h3, h4,
    UInt8.ofNat_toNat, UInt8.ofNat_toNat, UInt8.ofNat_toNat, UInt8.ofNat_toNat]

theorem chars_append {p s : Bytes} (hp : ∃ x : Char, String.utf8EncodeChar x = p)
    (hs : ∃ l : List Char, s = l.flatMap String.utf8EncodeChar) :
    ∃ l : List Char, p ++ s = l.flatMap String.utf8EncodeChar := by
  obtain ⟨x, rfl⟩ := hp
  obtain ⟨l, rfl⟩ := hs
  exact ⟨x :: l, rfl⟩

/-- A text without stray bytes is the text of characters. -/
theorem exists_chars_of_runes (s : Bytes) (h : ∀ r ∈ runes s, r.code.isSome) :
    ∃ l : List Char, s = l.flatMap String.utf8EncodeChar := by
  have lead {a : UInt8} (ha : ¬ (decide (a < 0xC2) || decide (0xF4 < a)) = true) :
      0xC2 ≤ a.toNat ∧ a.toNat ≤ 0xF4 := by
    simp only [Bool.or_eq_true, decide_eq_true_eq, not_or] at ha
    exact ⟨Nat.not_lt.mp ha.1, Nat.not_lt.mp ha.2⟩
  -- the pieces with a code are the cases 2, 5, 8 and 11; in all others the first byte is stray
  fun_induction runes s with
  | case1 => exact ⟨[], rfl⟩
  | case2 a rest ha ih =>
    exact chars_append (p := [a]) (exists_utf8EncodeChar_one ha) (ih (List.forall_mem_cons.mp h).2)
  | case5 a h1 h2 b rest h3 hb ih =>
    exact chars_append (p := [a, b]) (exists_utf8EncodeChar_two (lead h2).1 h3 hb)
      (ih (List.forall_mem_cons.mp h).2)
  | case8 a h1 h2 b h3 c rest h4 hbc ih =>
    rw [Bool.and_eq_true] at hbc
    exact chars_append (p := [a, b, c])
      (exists_utf8EncodeChar_three (Nat.not_lt.mp h3) h4 hbc.1 hbc.2) (ih (List.forall_mem_cons.mp h).2)
  | case11 a h1 h2 b h3 c h4 d rest hbcd ih =>
    simp only [Bool.and_eq_true] at hbcd
    exact chars_append (p := [a, b, c, d])
      (exists_utf8EncodeChar_four (Nat.not_lt.mp h4) (lead h2).2 hbcd.1.1 hbcd.1.2 hbcd.2)
      (ih (List.forall_mem_cons.mp h).2)
  | _ => exact absurd (h _ List.mem_cons_self) (by simp [stray])

/-! ## Stray bytes -/

theorem badRuneFrom?_eq_none_iff (offset : Nat) (rs : List Rune) :
    badRuneFrom? offset rs = none ↔ ∀ r ∈ rs, r.code.isSome := by
  induction rs generalizing offset with
  | nil => simp [badRuneFrom?]
  | cons r rs ih =>
    rw [badRuneFrom?, List.forall_mem_cons]
    cases hr : r.code with
    | none => simp
    | some n => simp [ih]

/-- The pieces of a text are the text. -/
theorem flatMap_runes (s : Bytes) : (runes s).flatMap Rune.bytes = s := by
  fun_induction runes s <;> simp_all [stray]

theorem le_of_badRuneFrom? {offset i : Nat} {rs : List Rune} (h : badRuneFrom? offset rs = some i) :
    i ≤ offset + (rs.flatMap Rune.bytes).length := by
  induction rs generalizing offset with
  | nil => cases h
  | cons r rs ih =>
    rw [badRuneFrom?] at h
    rw [List.flatMap_cons, List.length_append, ← Nat.add_assoc]
    split at h
    · cases h
      omega
    · exact ih h

theorem le_of_badRune? {s : Bytes} {i : Nat} (h : badRune? s = some i) : i ≤ s.length := by
  have := le_of_badRuneFrom? h
  rwa [Nat.zero_add, flatMap_runes] at this

/-- **A text has no stray byte exactly if it is the text of a string.** -/
theorem badRune?_eq_none_iff {s : Bytes} : badRune? s = none ↔ ∃ t : String, s = utf8 t := by
  rw [badRune?, badRuneFrom?_eq_none_iff]
  constructor
  · intro h
    obtain ⟨l, hl⟩ := exists_chars_of_runes s h
    exact ⟨String.ofList l, hl.trans (utf8_ofList l).symm⟩
  · rintro ⟨t, rfl⟩
    rw [← String.ofList_toList (s := t), utf8_ofList]
    exact runes_utf8 t.toList

end RegisterMachine
