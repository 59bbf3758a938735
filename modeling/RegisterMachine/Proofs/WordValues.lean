import RegisterMachine.Description.Assignment
import RegisterMachine.Proofs.RegisterNames
import RegisterMachine.Proofs.ValueReading

/-!
# Values of words

A word is given a value in two places: where values are assigned on a line (`scalar`) and where it is a constant of
a controller (`Form.datum`).  Both try integers, floating point numbers and truth values in turn, but not by the
same rules.

* `Literal.digit_of_finiteFloat?`, `Literal.no_digit_of_namedFloat?`: the numbers that are written with a digit and
  those that are named.
* `Literal.Lenient`: an integer without a base mark that is no plain decimal one, so that it has an underscore or a
  leading zero.  `Literal.finiteFloat?_of_anyBaseInt?`: it is a floating point literal too.
* `scalar_agrees`: the two values are the same, but for named numbers and lenient integers.
-/

namespace RegisterMachine

namespace Literal

/-! ## Digits -/

/-- In a base up to ten, only decimal digits are digits. -/
theorem allDigits_of_digitsFrom? {base k v : Nat} {ds : Bytes} (hb : base ≤ 10)
    (h : digitsFrom? base k ds = some v) :
    AllDigits ds := by
  induction ds generalizing k with
  | nil => simp [AllDigits]
  | cons c ds ih =>
    rw [digitsFrom?] at h
    split at h
    · next d hd =>
      split at h
      · next hlt =>
        refine List.forall_mem_cons.mpr ⟨?_, ih h⟩
        by_contra hc
        rw [digitValue?, if_neg hc] at hd
        split at hd
        · have := Option.some.inj hd
          omega
        · cases hd
      · cases h
    · cases h

theorem ten_mul_add_le_sq {base k k' d : Nat} (hb : 4 ≤ base) (hk : k' ≤ k ^ 2) :
    k' * 10 + d ≤ (k * base + d) ^ 2 := by
  have hbase : 10 ≤ base * base := Nat.le_trans (by decide) (Nat.mul_le_mul hb hb)
  calc k' * 10 + d ≤ k ^ 2 * (base * base) + d * d := Nat.add_le_add (Nat.mul_le_mul hk hbase) (Nat.le_mul_self d)
    _ ≤ k ^ 2 * (base * base) + d * d + 2 * (k * base * d) := Nat.le_add_right _ _
    _ = (k * base + d) ^ 2 := by ring

/-- The digits of a number, read as decimal ones, denote at most the square of the number. -/
theorem digitsOn_le_sq {base k k' v : Nat} {ds : Bytes} (hb : 4 ≤ base) (hb' : base ≤ 10)
    (h : digitsFrom? base k ds = some v) (hk : k' ≤ k ^ 2) : digitsOn k' ds ≤ v ^ 2 := by
  have hds := allDigits_of_digitsFrom? hb' h
  induction ds generalizing k k' with
  | nil =>
    obtain rfl := Option.some.inj h
    exact hk
  | cons c ds ih =>
    obtain ⟨hc, hds⟩ := List.forall_mem_cons.mp hds
    rw [digitsFrom?, digitValue?_of_isDigit hc] at h
    dsimp only at h
    split at h
    · exact ih h (ten_mul_add_le_sq hb hk) hds
    · cases h

theorem allDigits_of_decimalInt? {s : Bytes} {n : Int64} (h : decimalInt? s = some n) :
    (splitSign s).2 ≠ [] ∧ AllDigits (splitSign s).2 := by
  rw [decimalInt?] at h
  dsimp only at h
  split at h
  · cases h
  · next hne =>
    obtain ⟨v, hv, -⟩ := Option.bind_eq_some_iff.mp h
    exact ⟨by simpa using hne, allDigits_of_digitsFrom? (by decide) hv⟩

/-- At most a sign is cut off. -/
theorem splitSign_cases (s : Bytes) :
    (splitSign s).2 = s ∨ ∃ c, (c = byte '-' ∨ c = byte '+') ∧ s = c :: (splitSign s).2 := by
  cases s with
  | nil => exact .inl rfl
  | cons c rest =>
    rw [splitSign]
    split
    · next hc => exact .inr ⟨c, .inl (beq_iff_eq.mp hc), rfl⟩
    · split
      · next hc => exact .inr ⟨c, .inr (beq_iff_eq.mp hc), rfl⟩
      · exact .inl rfl

/-- A sign is neither a digit nor an underscore. -/
theorem mem_splitSign {s : Bytes} {c : UInt8} (hc : isDigit c = true ∨ c = byte '_') :
    c ∈ (splitSign s).2 ↔ c ∈ s := by
  rcases splitSign_cases s with hs | ⟨sign, hsign, hs⟩
  · rw [hs]
  · have hne : c ≠ sign := by
      rintro rfl
      rcases hsign with rfl | rfl <;> exact absurd hc (by decide)
    conv_rhs => rw [hs]
    rw [List.mem_cons, or_iff_right hne]

theorem any_isDigit_splitSign (s : Bytes) : (splitSign s).2.any isDigit = s.any isDigit := by
  rw [Bool.eq_iff_iff, List.any_eq_true, List.any_eq_true]
  exact exists_congr fun c => and_congr_left fun hc => mem_splitSign (.inl hc)

/-- A base mark is a zero and a letter. -/
theorem eq_of_baseMark? {s digits : Bytes} {base : Nat} (h : baseMark? s = some (base, digits)) :
    ∃ c, s = byte '0' :: c :: digits := by
  unfold baseMark? at h
  split at h
  · next z c rest =>
    split at h
    · cases h
    next hz =>
    obtain rfl : z = byte '0' := by simpa using hz
    refine ⟨c, ?_⟩
    split at h
    · rw [(Prod.mk.inj (Option.some.inj h)).2]
    split at h
    · rw [(Prod.mk.inj (Option.some.inj h)).2]
    split at h
    · rw [(Prod.mk.inj (Option.some.inj h)).2]
    · cases h
  · cases h

theorem baseMark?_of_no_digit {s : Bytes} (hs : s.any isDigit = false) : baseMark? s = none := by
  cases h : baseMark? s with
  | none => rfl
  | some p =>
    obtain ⟨c, rfl⟩ := eq_of_baseMark? h
    simp [isDigit, byte] at hs

/-! ## Numbers that are written with digits, and numbers that are named -/

/-- Digits are all that makes a mantissa. -/
theorem anyDigit_scan {s : Bytes} (hs : ∀ c ∈ s, isDigit c = false) (m : Mantissa) :
    (Mantissa.scan 10 m s).1.anyDigit = m.anyDigit := by
  induction s generalizing m with
  | nil => rfl
  | cons c s ih =>
    obtain ⟨hc, hs⟩ := List.forall_mem_cons.mp hs
    rw [Mantissa.scan]
    split
    · exact ih hs m
    split
    · split
      · rfl
      · exact ih hs _
    · split
      · next d hd =>
        rw [digitValue?, if_neg (by simp [hc])] at hd
        split at hd
        · have := Option.some.inj hd
          rw [if_neg (by omega)]
        · cases hd
      · rfl

theorem digit_of_finiteFloat? {s : Bytes} {x : Float} (h : finiteFloat? s = some x) : s.any isDigit = true := by
  by_contra hno
  have hbody : (splitSign s).2.any isDigit = false := by
    rw [any_isDigit_splitSign]
    exact Bool.eq_false_iff.mpr hno
  have hhex : hexDigits (splitSign s).2 = (false, (splitSign s).2) := by
    rw [hexDigits, baseMark?_of_no_digit hbody]
  have hscan : (Mantissa.scan 10 {} (splitSign s).2).1.anyDigit = false :=
    anyDigit_scan (fun c hc => Bool.eq_false_iff.mpr (List.any_eq_false.mp hbody c hc)) {}
  rw [finiteFloat?] at h
  simp [hhex, hscan] at h

theorem any_isDigit_lower (s : Bytes) : (lower s).any isDigit = s.any isDigit := by
  have h : ∀ n < 256, isDigit (lowerByte (UInt8.ofNat n)) = isDigit (UInt8.ofNat n) := by decide +kernel
  rw [lower, List.any_map]
  congr 1
  funext c
  simpa using h c.toNat c.toNat_lt

theorem no_digit_of_namedFloat? {s : Bytes} {x : Float} (h : namedFloat? s = some x) : s.any isDigit = false := by
  rw [namedFloat?] at h
  dsimp only at h
  split at h
  · next hbody =>
    rw [← any_isDigit_splitSign, ← any_isDigit_lower]
    rw [Bool.or_eq_true, beq_iff_eq, beq_iff_eq] at hbody
    rcases hbody with hbody | hbody <;> (rw [hbody]; rfl)
  · split at h
    · next hs =>
      rw [← any_isDigit_lower, beq_iff_eq.mp hs]
      rfl
    · cases h

/-! ## Integers that are not written as such -/

/-- An integer that has no base mark and is no plain decimal integer, but is one if `_` may stand between digits
and a leading zero means base eight. -/
structure Lenient (s : Bytes) : Prop where
  unmarked : baseMark? (splitSign s).2 = none
  notDecimal : decimalInt? s = none
  integer : (anyBaseInt? s).isSome = true

theorem baseAndDigits_unmarked {s : Bytes} (h : baseMark? s = none) :
    baseAndDigits s = (10, s) ∨ ∃ rest, s = byte '0' :: rest ∧ baseAndDigits s = (8, rest) := by
  cases s with
  | nil => exact .inl rfl
  | cons c rest =>
    rw [baseAndDigits]
    split
    · exact .inl rfl
    · next hc =>
      obtain rfl : c = byte '0' := by simpa using hc
      rw [h]
      exact .inr ⟨rest, rfl, rfl⟩

/-- No underscore stands in front. -/
theorem underscoresPlaced_underscore (s : Bytes) : underscoresPlaced (byte '_' :: s) = false := by
  have hnone : ∀ s : Bytes, s.foldl (underscoreStep false) none = none := by
    intro s
    induction s with
    | nil => rfl
    | cons c s ih => exact ih
  have hfold : (byte '_' :: s).foldl (underscoreStep false) (some .start) = none := hnone s
  have hsign : splitSign (byte '_' :: s) = (false, byte '_' :: s) := rfl
  have hmark : baseMark? (byte '_' :: s) = none := by
    cases h : baseMark? (byte '_' :: s) with
    | none => rfl
    | some p =>
      obtain ⟨c, hc⟩ := eq_of_baseMark? h
      exact absurd (List.cons.inj hc).1 (by decide)
  rw [underscoresPlaced, hsign, hmark]
  dsimp only
  rw [hfold]

/-- What an unsigned integer without a base mark is made of.  Its decimal reading cannot be very large. -/
structure Unmarked (body : Bytes) (v : Nat) : Prop where
  starts : ∃ c rest, body = c :: rest ∧ isDigit c = true
  bytes : ∀ c ∈ body, isDigit c = true ∨ c = byte '_'
  placed : byte '_' ∈ body → underscoresPlaced body = true
  bound : digitsOn 0 (body.filter (· != byte '_')) ≤ v ^ 2

theorem of_anyBaseNat? {body digits : Bytes} {base v : Nat} (hbase : baseAndDigits body = (base, digits))
    (h : anyBaseNat? body = some v) : body ≠ [] ∧ (byte '_' ∈ digits → underscoresPlaced body = true) ∧
      digitsFrom? base 0 (digits.filter (· != byte '_')) = some v := by
  rw [anyBaseNat?, hbase] at h
  dsimp only at h
  split at h
  · cases h
  next hne =>
  split at h
  · cases h
  next hplaced => exact ⟨by simpa using hne, by simpa using hplaced, h⟩

/-- In a base up to ten, the bytes of a number are decimal digits and underscores. -/
theorem digit_or_underscore {base v : Nat} {digits : Bytes} (hb : base ≤ 10)
    (h : digitsFrom? base 0 (digits.filter (· != byte '_')) = some v) :
    ∀ c ∈ digits, isDigit c = true ∨ c = byte '_' := by
  intro c hc
  by_cases hu : c = byte '_'
  · exact .inr hu
  · exact .inl (allDigits_of_digitsFrom? hb h c (List.mem_filter.mpr ⟨hc, by simpa using hu⟩))

theorem unmarked_of_anyBaseNat? {body : Bytes} {v : Nat} (hm : baseMark? body = none)
    (h : anyBaseNat? body = some v) :
    Unmarked body v := by
  rcases baseAndDigits_unmarked hm with hbase | ⟨rest, rfl, hbase⟩
  · obtain ⟨hne, hplaced, hv⟩ := of_anyBaseNat? hbase h
    have hall := digit_or_underscore (by decide) hv
    refine ⟨?_, hall, hplaced, digitsOn_le_sq (by decide) (by decide) hv (by decide)⟩
    cases body with
    | nil => exact absurd rfl hne
    | cons c rest =>
      rcases hall c List.mem_cons_self with hc | rfl
      · exact ⟨c, rest, rfl, hc⟩
      · exact absurd (hplaced List.mem_cons_self) (by simp [underscoresPlaced_underscore])
  · -- The leading zero is a mark in base eight and a digit in base ten, where it changes nothing.
    obtain ⟨-, hplaced, hv⟩ := of_anyBaseNat? hbase h
    have hbound : digitsOn 0 (rest.filter (· != byte '_')) ≤ v ^ 2 :=
      digitsOn_le_sq (by decide) (by decide) hv (Nat.zero_le _)
    refine ⟨⟨_, rest, rfl, rfl⟩,
      List.forall_mem_cons.mpr ⟨.inl rfl, digit_or_underscore (by decide) hv⟩, ?_, hbound⟩
    intro hu
    rcases List.mem_cons.mp hu with hu | hu
    · exact absurd hu (by decide)
    · exact hplaced hu

theorem Mantissa.pushes_cons (m : Mantissa) (c : UInt8) (ds : Bytes) :
    (m.pushes [c]).pushes ds = m.pushes (c :: ds) := by
  cases hp : m.point <;> simp [pushes, digitsOn, hp, Nat.add_assoc, Nat.add_comm 1]

/-- A mantissa does not see underscores. -/
theorem Mantissa.scan_grouped {s : Bytes} (hs : ∀ c ∈ s, isDigit c = true ∨ c = byte '_') (m : Mantissa) :
    Mantissa.scan 10 m s = (m.pushes (s.filter (· != byte '_')), []) := by
  induction s generalizing m with
  | nil => simp [Mantissa.scan, pushes, digitsOn]
  | cons c s ih =>
    obtain ⟨hc, hrest⟩ := List.forall_mem_cons.mp hs
    by_cases hu : c = byte '_'
    · rw [hu, Mantissa.scan, if_pos (by simp), ih hrest, List.filter_cons_of_neg (by simp)]
    · have hd : AllDigits [c] := List.forall_mem_singleton.mpr (hc.resolve_right hu)
      rw [← List.singleton_append, Mantissa.scan_digits hd, ih hrest, List.singleton_append,
        List.filter_cons_of_pos (by simpa using hu), pushes_cons]

/-- The digits of a number of at most 64 bits, read as decimal ones, denote a finite double. -/
theorem Unmarked.float?_isSome {body : Bytes} {v : Nat} (h : Unmarked body v) (hv : v ≤ 2 ^ 64) (negative : Bool) :
    ((Mantissa.pushes {} (body.filter (· != byte '_'))).float? negative false 0).isSome = true := by
  have hle : digitsOn 0 (body.filter (· != byte '_')) ≤ 2 ^ 128 := h.bound.trans (Nat.pow_le_pow_left hv 2)
  have hbits : Double.nearestBits (digitsOn 0 (body.filter (· != byte '_'))) 1 < Double.infinityBits := by
    refine Double.nearestBits_lt Nat.one_pos ?_
    rw [Nat.cast_one, div_one]
    calc ((digitsOn 0 (body.filter (· != byte '_')) : ℕ) : ℚ) ≤ 2 ^ (128 : ℤ) := by exact_mod_cast hle
      _ < 2 ^ (1023 : ℤ) := zpow_lt_zpow_right₀ (by norm_num) (by norm_num)
  rw [Mantissa.float?]
  split
  · rfl
  · simp [Mantissa.pushes, power, Double.ofRatio?, hbits]

/-- A sign plays no part in where underscores stand. -/
theorem underscoresPlaced_splitSign {s : Bytes} (h : splitSign (splitSign s).2 = (false, (splitSign s).2)) :
    underscoresPlaced (splitSign s).2 = underscoresPlaced s := by
  rw [underscoresPlaced, h, underscoresPlaced]

theorem Unmarked.finiteFloat?_isSome {s : Bytes} {v : Nat} (h : Unmarked (splitSign s).2 v) (hv : v ≤ 2 ^ 64)
    (hm : baseMark? (splitSign s).2 = none) : (finiteFloat? s).isSome = true := by
  obtain ⟨c, rest, hbody, hc⟩ := h.starts
  have hany : (Mantissa.pushes {} ((splitSign s).2.filter (· != byte '_'))).anyDigit = true := by
    have hne : c ≠ byte '_' := by
      rintro rfl
      exact absurd hc (by decide)
    rw [hbody, List.filter_cons_of_pos (by simpa using hne)]
    rfl
  have hplaced : byte '_' ∈ s → underscoresPlaced s = true := by
    intro hu
    rw [← underscoresPlaced_splitSign (by rw [hbody, splitSign_of_isDigit hc])]
    exact h.placed ((mem_splitSign (.inr rfl)).mpr hu)
  rw [finiteFloat?_decimal rfl hm (Mantissa.scan_grouped h.bytes {}) hany hplaced rfl]
  exact h.float?_isSome hv _

theorem le_of_signed? {negative : Bool} {v : Nat} {n : Int64} (h : signed? negative v = some n) : v ≤ 2 ^ 64 := by
  unfold signed? at h
  split at h <;> split at h
  · omega
  · cases h
  · omega
  · cases h

theorem exists_of_anyBaseInt? {s : Bytes} {n : Int64} (h : anyBaseInt? s = some n) :
    ∃ v, anyBaseNat? (splitSign s).2 = some v ∧ v ≤ 2 ^ 64 := by
  obtain ⟨v, hv, hn⟩ := Option.bind_eq_some_iff.mp h
  exact ⟨v, hv, le_of_signed? hn⟩

/-- An integer without a base mark is a floating point literal too. -/
theorem finiteFloat?_of_anyBaseInt? {s : Bytes} {n : Int64} (hm : baseMark? (splitSign s).2 = none)
    (h : anyBaseInt? s = some n) : (finiteFloat? s).isSome = true := by
  obtain ⟨v, hv, hle⟩ := exists_of_anyBaseInt? h
  exact (unmarked_of_anyBaseNat? hm hv).finiteFloat?_isSome hle hm

/-- A lenient integer has an underscore or a leading zero; without either it would be a decimal integer. -/
theorem Lenient.grouped_or_octal {s : Bytes} (h : Lenient s) :
    byte '_' ∈ s ∨ ∃ rest, (splitSign s).2 = byte '0' :: rest := by
  rcases baseAndDigits_unmarked h.unmarked with hbase | ⟨rest, hbody, -⟩
  · by_cases hu : byte '_' ∈ s
    · exact .inl hu
    have hu : byte '_' ∉ (splitSign s).2 := fun hmem => hu ((mem_splitSign (.inr rfl)).mp hmem)
    have hfilter : (splitSign s).2.filter (· != byte '_') = (splitSign s).2 :=
      List.filter_eq_self.mpr fun c hc => bne_iff_ne.mpr fun he => hu (he ▸ hc)
    have hsame : anyBaseInt? s = decimalInt? s := by
      cases hempty : (splitSign s).2.isEmpty <;> simp [anyBaseInt?, anyBaseNat?, decimalInt?, hbase, hu,
        hfilter, hempty]
    exact absurd h.integer (by rw [hsame, h.notDecimal]; decide)
  · exact .inr ⟨rest, hbody⟩

theorem digit_of_anyBaseInt? {s : Bytes} {n : Int64} (h : anyBaseInt? s = some n) : s.any isDigit = true := by
  rw [← any_isDigit_splitSign]
  cases hm : baseMark? (splitSign s).2 with
  | none =>
    obtain ⟨v, hv, -⟩ := exists_of_anyBaseInt? h
    obtain ⟨c, rest, hbody, hc⟩ := (unmarked_of_anyBaseNat? hm hv).starts
    rw [hbody, List.any_cons, hc, Bool.true_or]
  | some p =>
    obtain ⟨c, hbody⟩ := eq_of_baseMark? hm
    rw [hbody]
    rfl

theorem digit_of_decimalInt? {s : Bytes} {n : Int64} (h : decimalInt? s = some n) : s.any isDigit = true := by
  obtain ⟨hne, hall⟩ := allDigits_of_decimalInt? h
  rw [← any_isDigit_splitSign]
  obtain ⟨c, hc⟩ := List.exists_mem_of_ne_nil _ hne
  exact List.any_eq_true.mpr ⟨c, hc, hall c hc⟩

end Literal

/-! ## The two values of a word -/

/-- The value of an atom, in terms of the literals that it may be. -/
theorem exists_atom_datum {s : Bytes} (hv : validUtf8 s = true) : ∃ x, atom 0 s = .ok x ∧
    x.datum = ((number? (spanOf 0 s) s).map Form.datum).getD (nameDatum s) := by
  unfold atom
  cases hn : number? (spanOf 0 s) s with
  | some x => exact ⟨x, rfl, rfl⟩
  | none =>
    rw [Option.isNone_iff_eq_none.mp hv]
    exact ⟨_, rfl, rfl⟩

/-- Without a digit there are only the numbers that are named. -/
theorem no_number_of_no_digit {s : Bytes} (hs : s.any isDigit = false) :
    Literal.decimalInt? s = none ∧ Literal.anyBaseInt? s = none ∧ Literal.finiteFloat? s = none := by
  refine ⟨?_, ?_, ?_⟩ <;> refine Option.eq_none_iff_forall_ne_some.mpr fun v hv => ?_
  · exact absurd (Literal.digit_of_decimalInt? hv) (by simp [hs])
  · exact absurd (Literal.digit_of_anyBaseInt? hv) (by simp [hs])
  · exact absurd (Literal.digit_of_finiteFloat? hv) (by simp [hs])

/-- Apart from named numbers and lenient integers, both values come from the same literals. -/
theorem scalar_eq_getD {s : Bytes} (hn : Literal.namedFloat? s = none) (hl : ¬ Literal.Lenient s) (span : Span) :
    scalar s = ((number? span s).map Form.datum).getD (nameDatum s) := by
  have hfloat : Literal.float? s = Literal.finiteFloat? s := by
    rw [Literal.float?, hn]
    rfl
  cases hd : s.any isDigit with
  | false =>
    obtain ⟨hdecimal, hany, hfinite⟩ := no_number_of_no_digit hd
    simp [scalar, number?, hd, hdecimal, hany, hfloat, hfinite]
  | true =>
    cases hdecimal : Literal.decimalInt? s with
    | some n => simp [scalar, number?, hd, hdecimal, Form.datum]
    | none =>
      cases hm : Literal.baseMark? (Literal.splitSign s).2 with
      | some p =>
        cases hany : Literal.anyBaseInt? s <;> cases hfinite : Literal.finiteFloat? s <;>
          simp [scalar, number?, hd, hdecimal, hm, hany, hfloat, hfinite, Form.datum]
      | none =>
        have hany : Literal.anyBaseInt? s = none := by
          rw [← Option.not_isSome_iff_eq_none]
          exact fun hany => hl ⟨hm, hdecimal, hany⟩
        cases hfinite : Literal.finiteFloat? s <;>
          simp [scalar, number?, hd, hdecimal, hm, hany, hfloat, hfinite, Form.datum]

/-- A named number does not spell a truth value. -/
theorem nameDatum_of_namedFloat? {s : Bytes} {f : Float} (h : Literal.namedFloat? s = some f) :
    nameDatum s = .symbol s := by
  refine Value.nameDatum_symbol ?_
  have htruth : Value.truthWords =
      [[0x23, 0x74], [0x74, 0x72, 0x75, 0x65], [0x23, 0x66], [0x66, 0x61, 0x6C, 0x73, 0x65]] := rfl
  have hinf : utf8 "inf" = [0x69, 0x6E, 0x66] := rfl
  have hinfinity : utf8 "infinity" = [0x69, 0x6E, 0x66, 0x69, 0x6E, 0x69, 0x74, 0x79] := rfl
  have hnan : utf8 "nan" = [0x6E, 0x61, 0x6E] := rfl
  rw [Literal.namedFloat?] at h
  dsimp only at h
  split at h
  · next hbody =>
    rw [Bool.or_eq_true, beq_iff_eq, beq_iff_eq, hinf, hinfinity] at hbody
    have hlower : lower s = lower (Literal.splitSign s).2 ∨
        ∃ c, lower s = lowerByte c :: lower (Literal.splitSign s).2 := by
      rcases Literal.splitSign_cases s with hs | ⟨c, -, hs⟩
      · exact .inl (by rw [hs])
      · exact .inr ⟨c, congrArg lower hs⟩
    rcases hlower with hlower | ⟨c, hlower⟩ <;> rcases hbody with hbody | hbody <;>
      simp [hlower, hbody, htruth]
  · split at h
    · next hs => simp [beq_iff_eq.mp hs, hnan, htruth]
    · cases h

/-- **A word means the same in an assignment and in a controller, apart from named numbers and lenient integers.**
A word of characters without delimiters is read as one form.  Assigned, it has the value of that form, unless it
names a number or is a lenient integer.  In a controller a named number is a symbol, and a lenient integer is a
floating point number. -/
theorem scalar_agrees {s : Bytes} (hne : s ≠ []) (hw : ∀ c ∈ s, isDelimiter c = false) (hv : validUtf8 s = true) :
    ∃ x, (Source.ofText s).readOne .form = (some x, none) ∧
      (Literal.namedFloat? s = none → ¬ Literal.Lenient s → scalar s = x.datum) ∧
      (∀ f, Literal.namedFloat? s = some f → scalar s = .float f ∧ x.datum = .symbol s) ∧
      (Literal.Lenient s → (byte '_' ∈ s ∨ ∃ rest, (Literal.splitSign s).2 = byte '0' :: rest) ∧
        ∃ n f, Literal.anyBaseInt? s = some n ∧ Literal.finiteFloat? s = some f ∧ scalar s = .int n ∧
          x.datum = .float f) := by
  obtain ⟨x, hx, hdatum⟩ := exists_atom_datum hv
  have hread : Grammar.read .form 0 s = .ok (x, []) := Grammar.read_word hne hw hx
  refine ⟨x, by rw [Source.readOne, Source.text_ofText, hread]; rfl, ?_, ?_, ?_⟩
  · intro hn hl
    rw [hdatum]
    exact scalar_eq_getD hn hl _
  · intro f hf
    have hd := Literal.no_digit_of_namedFloat? hf
    obtain ⟨hdecimal, hany, hfinite⟩ := no_number_of_no_digit hd
    refine ⟨?_, ?_⟩
    · simp [scalar, hdecimal, hany, Literal.float?, hf]
    · rw [hdatum, ← nameDatum_of_namedFloat? hf]
      simp [number?, hd]
  · intro hl
    obtain ⟨n, hn⟩ := Option.isSome_iff_exists.mp hl.integer
    obtain ⟨f, hf⟩ := Option.isSome_iff_exists.mp (Literal.finiteFloat?_of_anyBaseInt? hl.unmarked hn)
    refine ⟨hl.grouped_or_octal, n, f, hn, hf, ?_, ?_⟩
    · simp [scalar, hl.notDecimal, hn]
    · rw [hdatum]
      simp [number?, Literal.digit_of_anyBaseInt? hn, hl.notDecimal, hl.unmarked, hf, Form.datum]

/-- A sign, a base mark and an underscore behind it: an integer in both places. -/
theorem scalar_agrees_marked : utf8 "+0x_1F" ≠ [] ∧ (∀ c ∈ utf8 "+0x_1F", isDelimiter c = false) ∧
    validUtf8 (utf8 "+0x_1F") = true ∧ ∃ x, (Source.ofText (utf8 "+0x_1F")).readOne .form = (some x, none) ∧
      scalar (utf8 "+0x_1F") = x.datum ∧ x.datum = .int 31 := by
  have hw : ∀ c ∈ utf8 "+0x_1F", isDelimiter c = false := by
    intro c hc
    exact Bool.eq_false_iff.mpr (List.any_eq_false.mp (show (utf8 "+0x_1F").any isDelimiter = false from rfl) c hc)
  obtain ⟨x, hx, hsame, -⟩ := scalar_agrees (s := utf8 "+0x_1F") (by decide) hw rfl
  have hmark : Literal.baseMark? (Literal.splitSign (utf8 "+0x_1F")).2 = some (16, utf8 "_1F") := rfl
  have hscalar := hsame rfl fun hl => Option.some_ne_none _ (hmark.symm.trans hl.unmarked)
  exact ⟨by decide, hw, rfl, x, hx, hscalar, hscalar.symm⟩

/-- Words that mean one thing in an assignment and another one in a controller: the name of a number, an underscore
between digits (`1000` and `1000.0`), and one behind a zero, where the digits are read in base eight or in base ten
(`15` and `17.0`). -/
theorem scalar_disagrees :
    (∃ x, (Source.ofText (utf8 "inf")).readOne .form = (some x, none) ∧
      scalar (utf8 "inf") = .float (Double.infinity false) ∧ x.datum = .symbol (utf8 "inf")) ∧
    (∃ x, (Source.ofText (utf8 "1_000")).readOne .form = (some x, none) ∧
      scalar (utf8 "1_000") = .int 1000 ∧ x.datum = .float (Float.ofBits 0x408F400000000000)) ∧
    ∃ x, (Source.ofText (utf8 "0_17")).readOne .form = (some x, none) ∧
      scalar (utf8 "0_17") = .int 15 ∧ x.datum = .float (Float.ofBits 0x4031000000000000) :=
  ⟨⟨_, rfl, rfl, rfl⟩, ⟨_, rfl, rfl, rfl⟩, _, rfl, rfl, rfl⟩

end RegisterMachine
