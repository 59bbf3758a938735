import RegisterMachine.Proofs.DoubleBits
import RegisterMachine.Proofs.Numeral
import RegisterMachine.Proofs.ShortestDigits

/-!
# Floating point numbers read back

The text of a finite double is a numeral near enough to the double that reading it gives the double again.

* `Shortest.Decimal.numeral`: shortest digits in decimal notation, as `Shortest.Decimal.text` prints them.
* `number?_floatForm`: the printed form of a finite double is a literal of that double.
-/

namespace RegisterMachine

open Double (magnitude isNegative infinityBits significand exponent ReadsAs)

/-! ## Shortest digits in decimal notation -/

namespace Shortest

/-- The numeral that is printed for shortest digits. -/
def Decimal.numeral (negative : Bool) (d : Decimal) : Numeral :=
  if leastPositional ≤ d.exponent ∧ d.exponent < positionalLimit then
    if d.exponent < 0 then
      ⟨negative, utf8 "0", some (List.replicate (d.exponent.natAbs - 1) (byte '0') ++ d.digits), none⟩
    else if d.digits.length ≤ d.exponent.toNat + 1 then
      ⟨negative, d.digits ++ List.replicate (d.exponent.toNat + 1 - d.digits.length) (byte '0'), none, none⟩
    else ⟨negative, d.digits.take (d.exponent.toNat + 1), some (d.digits.drop (d.exponent.toNat + 1)), none⟩
  else ⟨negative, d.digits.take 1, if d.digits.length ≤ 1 then none else some (d.digits.drop 1), some d.exponent⟩

variable {d : Decimal} {negative : Bool}

theorem scientific_eq {ds : Bytes} (e : Int) (hd : ds ≠ []) :
    scientific ⟨ds, e⟩ =
      ds.take 1 ++
        ((if ds.length ≤ 1 then none else some (ds.drop 1)).elim [] (byte '.' :: ·) ++ exponentText e) := by
  match ds, hd with
  | [c], _ => rfl
  | c :: c' :: rest, _ => simp [scientific]

/-- The text of shortest digits is the text of their numeral. -/
theorem Decimal.text_numeral (negative : Bool) (hd : d.digits ≠ []) :
    (d.numeral negative).text = (if negative then utf8 "-" else []) ++ d.text := by
  have hz : utf8 "0." = utf8 "0" ++ [byte '.'] := rfl
  unfold Numeral.text Decimal.text Decimal.numeral
  split
  · unfold positional
    dsimp only
    split
    · simp [Numeral.body, concat, hz]
    split
    · simp [Numeral.body]
    · simp [Numeral.body]
  · rw [scientific_eq d.exponent hd]
    rfl

theorem allDigits_append {ds es : Bytes} (hd : AllDigits ds) (he : AllDigits es) : AllDigits (ds ++ es) :=
  fun c hc => (List.mem_append.mp hc).elim (hd c) (he c)

theorem allDigits_zeros (k : ℕ) : AllDigits (List.replicate k (byte '0')) := by
  intro c hc
  rw [(List.mem_replicate.mp hc).2]
  rfl

theorem Decimal.proper_numeral (hd : d.digits ≠ []) (hds : AllDigits d.digits) (he : d.exponent.natAbs < 10000) :
    (d.numeral negative).Proper := by
  have ht : ∀ k, AllDigits (d.digits.take k) := fun k c hc => hds c (List.mem_of_mem_take hc)
  have hr : ∀ k, AllDigits (d.digits.drop k) := fun k c hc => hds c (List.mem_of_mem_drop hc)
  have hne : ∀ k, d.digits.take (k + 1) ≠ [] := by simpa using hd
  have h0 : ((none : Option Int).getD 0).natAbs < 10000 := by decide
  unfold Decimal.numeral
  split
  · split
    · exact ⟨List.cons_ne_nil _ _, allDigits_zeros 1, allDigits_append (allDigits_zeros _) hds, h0⟩
    split
    · exact ⟨by simp [hd], allDigits_append hds (allDigits_zeros _), by simp [AllDigits], h0⟩
    · exact ⟨hne _, ht _, hr _, h0⟩
  · refine ⟨hne 0, ht 1, ?_, he⟩
    split
    · simp [AllDigits]
    · exact hr 1

theorem Decimal.negative_numeral (d : Decimal) (negative : Bool) : (d.numeral negative).negative = negative := by
  unfold numeral
  split
  · split
    · rfl
    · split <;> rfl
  · rfl

/-- What the numeral stands for. -/
theorem Decimal.value_numeral (hd : d.digits ≠ []) :
    ((d.numeral negative).mantissa : ℚ) * 10 ^ (d.numeral negative).place =
      digitsOn 0 d.digits * 10 ^ (d.exponent + 1 - d.digits.length) := by
  have hl : 0 < d.digits.length := List.length_pos_iff.mpr hd
  unfold Decimal.numeral
  split
  · split
    · next he =>
      have hm : digitsOn 0 (utf8 "0" ++ (List.replicate (d.exponent.natAbs - 1) (byte '0') ++ d.digits)) =
          digitsOn 0 d.digits := by
        rw [digitsOn_append, digitsOn_append, digitsOn_zeros, show digitsOn 0 (utf8 "0") = 0 from rfl,
          Nat.zero_mul]
      simp only [Numeral.mantissa, Numeral.place, Option.getD_some, Option.getD_none, hm]
      congr 2
      simp only [List.length_append, List.length_replicate]
      omega
    split
    · next he hlen =>
      have hx : d.exponent + 1 - d.digits.length = ((d.exponent.toNat + 1 - d.digits.length : ℕ) : ℤ) := by omega
      simp only [Numeral.mantissa, Numeral.place, Option.getD_none, List.append_nil, digitsOn_append,
        digitsOn_zeros, List.length_nil, hx, zpow_natCast]
      push_cast
      simp
    · next he hlen =>
      simp only [Numeral.mantissa, Numeral.place, Option.getD_some, Option.getD_none, List.take_append_drop]
      congr 2
      simp only [List.length_drop]
      omega
  · have hf : (if d.digits.length ≤ 1 then none else some (d.digits.drop 1)).getD [] = d.digits.drop 1 := by
      split
      · next h => rw [List.drop_eq_nil_of_le h]; rfl
      · rfl
    simp only [Numeral.mantissa, Numeral.place, Option.getD_some, hf, List.take_append_drop]
    congr 2
    simp only [List.length_drop]
    omega

/-! ## The shortest digits of a double -/

theorem dropZeros_append (ds : Bytes) : ∃ k, ds = dropZeros ds ++ List.replicate k (byte '0') := by
  refine ⟨(ds.reverse.takeWhile (· == byte '0')).length, ?_⟩
  have hz : (ds.reverse.takeWhile (· == byte '0')).reverse =
      List.replicate (ds.reverse.takeWhile (· == byte '0')).length (byte '0') := by
    rw [List.eq_replicate_iff]
    refine ⟨List.length_reverse, fun c hc => ?_⟩
    simpa using List.all_eq_true.mp List.all_takeWhile c (List.mem_reverse.mp hc)
  have hs := congrArg List.reverse (List.takeWhile_append_dropWhile (p := (· == byte '0')) (l := ds.reverse))
  rw [List.reverse_append, List.reverse_reverse, hz] at hs
  exact hs.symm

theorem allDigits_dropZeros {ds : Bytes} (h : AllDigits ds) : AllDigits (dropZeros ds) := by
  obtain ⟨k, hk⟩ := dropZeros_append ds
  intro c hc
  exact h c (hk ▸ List.mem_append_left _ hc)

theorem dropZeros_decimal_ne_nil {c : ℕ} (hc : 0 < c) : dropZeros (decimal c) ≠ [] := by
  intro h
  obtain ⟨k, hk⟩ := dropZeros_append (decimal c)
  have hv := digitsOn_decimal c
  rw [hk, h, List.nil_append, digitsOn_zeros] at hv
  omega

/-- Leaving zeros out changes the digits and their last place, not the number. -/
theorem value_dropZeros (c : ℕ) (p : ℤ) :
    (digitsOn 0 (dropZeros (decimal c)) : ℚ) *
      10 ^ (p + (decimal c).length - 1 + 1 - (dropZeros (decimal c)).length) = c * 10 ^ p := by
  obtain ⟨k, hk⟩ := dropZeros_append (decimal c)
  have hv := digitsOn_decimal c
  have hl := congrArg List.length hk
  rw [List.length_append, List.length_replicate] at hl
  rw [hk, digitsOn_append, digitsOn_zeros] at hv
  have he : p + (decimal c).length - 1 + 1 - (dropZeros (decimal c)).length = k + p := by omega
  rw [he, zpow_add₀ (by norm_num), zpow_natCast, ← mul_assoc]
  congr 1
  exact_mod_cast hv

theorem pos_of_readsAs {bits c : ℕ} {p : ℤ} (hb : 0 < bits) (h : ReadsAs bits (c * 10 ^ p)) : 0 < c := by
  rcases Nat.eq_zero_or_pos c with rfl | hc
  · have := h.pos hb
    simp at this
  · exact hc

theorem ReadsAs.half_le {bits : ℕ} {q : ℚ} (hb : 0 < bits) (h : ReadsAs bits q) :
    1 / 2 ≤ q / 2 ^ exponent bits := by
  have hm : (1 : ℚ) ≤ significand bits := by exact_mod_cast Double.significand_pos hb
  have hg := Double.gap_le bits
  linarith [h.1.1]

theorem exponent_bounds {bits : ℕ} (hf : bits < infinityBits) : -1074 ≤ exponent bits ∧ exponent bits ≤ 971 := by
  unfold exponent Double.implicitBit
  simp only [infinityBits] at hf
  split <;> omega

theorem length_decimal {c : ℕ} (hc : 0 < c) : (decimal c).length = digitCount c := by
  rw [decimal, List.length_map, digitCount, if_neg (by simpa using hc.ne')]

/-- The decimal exponent of a double has at most four digits. -/
theorem natAbs_exponent_lt {bits c : ℕ} {p : ℤ} (hb : 0 < bits) (hf : bits < infinityBits)
    (h : ReadsAs bits (c * 10 ^ p)) : (p + (decimal c).length - 1).natAbs < 10000 := by
  have hp2 : (0 : ℚ) < 2 ^ exponent bits := by positivity
  have hp10 : (0 : ℚ) < 10 ^ p := by positivity
  have hone : (1 : ℚ) < 10 := by norm_num
  have hexp := exponent_bounds hf
  have hlow := ReadsAs.half_le hb h
  have hhigh := h.lt
  rw [le_div_iff₀ hp2] at hlow
  rw [div_lt_iff₀ hp2] at hhigh
  have hc := pos_of_readsAs hb h
  have hlen := length_decimal hc
  have hpos : 0 < digitCount c := by rw [← hlen]; exact List.length_pos_iff.mpr (decimal_ne_nil c)
  have c1 : (10 : ℚ) ^ ((digitCount c : ℤ) - 1) ≤ c := by
    have := pow_digitCount_le hc
    rw [show ((digitCount c : ℤ) - 1) = ((digitCount c - 1 : ℕ) : ℤ) by omega, zpow_natCast]
    exact_mod_cast this
  have c2 : (c : ℚ) < 10 ^ (digitCount c : ℤ) := by
    rw [zpow_natCast]
    exact_mod_cast lt_pow_digitCount c
  have hup : p + digitCount c - 1 < 1024 := by
    refine (zpow_lt_zpow_iff_right₀ hone).mp ?_
    calc (10 : ℚ) ^ (p + digitCount c - 1) = 10 ^ ((digitCount c : ℤ) - 1) * 10 ^ p := by
          rw [← zpow_add₀ (by norm_num)]; congr 1; ring
      _ ≤ c * 10 ^ p := by gcongr
      _ < 2 ^ 53 * 2 ^ exponent bits := hhigh
      _ ≤ 2 ^ 53 * 2 ^ (971 : ℤ) := by
          gcongr
          · norm_num
          · exact hexp.2
      _ = 2 ^ (1024 : ℤ) := by rw [← zpow_natCast, ← zpow_add₀ (by norm_num)]; rfl
      _ ≤ 10 ^ (1024 : ℤ) := zpow_le_zpow_left₀ (by norm_num) (by norm_num) (by norm_num)
  have hdown : -1075 < p + digitCount c := by
    refine (zpow_lt_zpow_iff_right₀ hone).mp ?_
    calc (10 : ℚ) ^ (-1075 : ℤ) ≤ 2 ^ (-1075 : ℤ) := by
          rw [zpow_neg, zpow_neg]
          exact inv_anti₀ (by positivity) (zpow_le_zpow_left₀ (by norm_num) (by norm_num) (by norm_num))
      _ = 1 / 2 * 2 ^ (-1074 : ℤ) := by
          rw [show (-1075 : ℤ) = -1 + -1074 by norm_num, zpow_add₀ (by norm_num)]
          norm_num
      _ ≤ 1 / 2 * 2 ^ exponent bits := by
          gcongr
          · norm_num
          · exact hexp.1
      _ ≤ c * 10 ^ p := hlow
      _ < 10 ^ (digitCount c : ℤ) * 10 ^ p := by gcongr
      _ = 10 ^ (p + digitCount c) := by rw [← zpow_add₀ (by norm_num)]; congr 1; ring
  rw [hlen]
  omega

/-- The shortest digits of a double are digits, and read as the double. -/
theorem shortest_spec {bits : ℕ} (hb : 0 < bits) (hf : bits < infinityBits) :
    (shortest bits).digits ≠ [] ∧ AllDigits (shortest bits).digits ∧ (shortest bits).exponent.natAbs < 10000 ∧
      ReadsAs bits (digitsOn 0 (shortest bits).digits *
        10 ^ ((shortest bits).exponent + 1 - (shortest bits).digits.length)) := by
  have hr := search_readsAs hb
  unfold shortest
  dsimp only
  generalize (target bits).search 17 (target bits).decimalExponent = found at hr
  obtain ⟨c, p⟩ := found
  refine ⟨dropZeros_decimal_ne_nil (pos_of_readsAs hb hr), allDigits_dropZeros (allDigits_decimal c),
    natAbs_exponent_lt hb hf hr, ?_⟩
  rw [value_dropZeros]
  exact hr

end Shortest

/-! ## The point that shows a float -/

namespace Numeral

variable {n : Numeral}

/-- The numeral, with a zero behind the point where it would look like an integer. -/
def shown (n : Numeral) : Numeral :=
  if n.fraction = none ∧ n.exponent = none then { n with fraction := some (utf8 "0") } else n

theorem looksInteger_text (h : n.Proper) :
    Form.looksInteger n.text = true ↔ n.fraction = none ∧ n.exponent = none := by
  have hw : n.whole.all isDigit = true := List.all_eq_true.mpr h.whole_digits
  have hb : n.body.all isDigit = true ↔ n.fraction = none ∧ n.exponent = none := by
    rw [body, List.all_append, List.all_append, hw]
    cases hf : n.fraction with
    | some f => simp [show isDigit (byte '.') = false from rfl]
    | none =>
      cases he : n.exponent with
      | some e => simp [exponentText_eq, show isDigit (byte 'e') = false from rfl]
      | none => simp
  rw [← hb, text]
  cases n.negative with
  | true => exact Iff.rfl
  | false =>
    cases hbody : n.body with
    | nil => simp [Form.looksInteger]
    | cons c rest =>
      have hc : isDigit c = true := by
        cases hws : n.whole with
        | nil => exact absurd hws h.whole_ne
        | cons d ds =>
          rw [body, hws, List.cons_append, List.cons.injEq] at hbody
          exact hbody.1 ▸ h.whole_digits d (by simp [hws])
      simp [Form.looksInteger, hc]

theorem text_shown (h : n.Proper) :
    n.shown.text = if Form.looksInteger n.text then n.text ++ utf8 ".0" else n.text := by
  unfold shown
  by_cases hn : n.fraction = none ∧ n.exponent = none
  · rw [if_pos hn, if_pos ((looksInteger_text h).mpr hn), text, text, body, body, hn.1, hn.2]
    simp
    rfl
  · rw [if_neg hn, if_neg (fun hl => hn ((looksInteger_text h).mp hl))]

theorem proper_shown (h : n.Proper) : n.shown.Proper := by
  unfold shown
  split
  · exact ⟨h.whole_ne, h.whole_digits, Shortest.allDigits_zeros 1, h.exponent_lt⟩
  · exact h

theorem shown_marked (n : Numeral) : n.shown.fraction.isSome = true ∨ n.shown.exponent.isSome = true := by
  unfold shown
  by_cases hn : n.fraction = none ∧ n.exponent = none
  · rw [if_pos hn]
    exact .inl rfl
  · rw [if_neg hn]
    rw [Option.isSome_iff_ne_none, Option.isSome_iff_ne_none]
    exact not_and_or.mp hn

@[simp] theorem negative_shown (n : Numeral) : n.shown.negative = n.negative := by
  unfold shown
  split <;> rfl

theorem value_shown (n : Numeral) : (n.shown.mantissa : ℚ) * 10 ^ n.shown.place = n.mantissa * 10 ^ n.place := by
  unfold shown
  by_cases hn : n.fraction = none ∧ n.exponent = none
  · rw [if_pos hn]
    have hd : ∀ k, digitsOn k (utf8 "0") = k * 10 := fun _ => rfl
    have hl : (utf8 "0").length = 1 := rfl
    simp only [mantissa, place, hn.1, hn.2, Option.getD_some, Option.getD_none, digitsOn_append, hd, hl]
    simp [digitsOn]
  · rw [if_neg hn]

end Numeral

/-! ## Reading back -/

/-- The text of a finite double is a numeral that reads as the double. -/
theorem exists_numeral {x : Float} (hx : magnitude x < infinityBits) :
    ∃ n : Numeral, n.Proper ∧ n.negative = isNegative x ∧ n.text = floatText x ∧
      (magnitude x = 0 ∧ n.mantissa = 0 ∨ 0 < magnitude x ∧
        ReadsAs (magnitude x) (n.mantissa * 10 ^ n.place)) := by
  rcases Nat.eq_zero_or_pos (magnitude x) with h0 | hpos
  · refine ⟨⟨isNegative x, utf8 "0", none, none⟩, ?_, rfl, ?_, .inl ⟨h0, rfl⟩⟩
    · exact ⟨List.cons_ne_nil _ _, Shortest.allDigits_zeros 1, by simp [AllDigits], by simp⟩
    · have h1 : ¬ infinityBits < 0 := by decide
      have h2 : 0 ≠ infinityBits := by decide
      simp [floatText, h0, h1, h2, Numeral.text, Numeral.body]
  · obtain ⟨hne, hds, he, hr⟩ := Shortest.shortest_spec hpos hx
    refine ⟨(Shortest.shortest (magnitude x)).numeral (isNegative x),
      Shortest.Decimal.proper_numeral hne hds he, Shortest.Decimal.negative_numeral _ _, ?_, .inr ⟨hpos, ?_⟩⟩
    · have h1 : ¬ infinityBits < magnitude x := Nat.lt_asymm hx
      have h2 : (magnitude x == infinityBits) = false := by simpa using hx.ne
      have h3 : (magnitude x == 0) = false := by simpa using hpos.ne'
      rw [Shortest.Decimal.text_numeral _ hne]
      simp only [floatText, h1, h2, h3, if_false, Bool.false_eq_true]
    · rw [Shortest.Decimal.value_numeral hne]
      exact hr

/-- The printed form of a finite double is a numeral with a point or an exponent that reads as the double. -/
theorem exists_numeral_floatForm {x : Float} (hx : magnitude x < infinityBits) :
    ∃ n : Numeral, n.Proper ∧ (n.fraction.isSome = true ∨ n.exponent.isSome = true) ∧ n.negative = isNegative x ∧
      Form.floatForm x = n.text ∧
      (magnitude x = 0 ∧ n.mantissa = 0 ∨ 0 < magnitude x ∧
        ReadsAs (magnitude x) (n.mantissa * 10 ^ n.place)) := by
  obtain ⟨n, hn, hneg, htext, hv⟩ := exists_numeral hx
  refine ⟨n.shown, Numeral.proper_shown hn, n.shown_marked, n.negative_shown.trans hneg, ?_, ?_⟩
  · rw [Numeral.text_shown hn, htext]
    rfl
  · rw [Numeral.value_shown]
    refine hv.imp_left fun ⟨h0, hm⟩ => ⟨h0, ?_⟩
    have hs := n.value_shown
    rw [hm, Nat.cast_zero, zero_mul, mul_eq_zero_iff_right (by positivity)] at hs
    exact_mod_cast hs

/-- No byte of a printed float ends an atom. -/
theorem floatForm_plain {x : Float} (hx : x.isFinite = true) : ∀ c ∈ Form.floatForm x, isDelimiter c = false := by
  obtain ⟨n, hn, -, -, htext, -⟩ := exists_numeral_floatForm ((Double.isFinite_iff x).mp hx)
  intro c hc
  rw [htext] at hc
  exact (hn.mark_text c hc).plain.1

/-- **The printed form of a finite double is a literal of that double.** -/
theorem number?_floatForm (span : Span) {x : Float} (hx : x.isFinite = true) :
    number? span (Form.floatForm x) = some (.float span x) := by
  replace hx := (Double.isFinite_iff x).mp hx
  obtain ⟨n, hn, hmark, hneg, htext, hv⟩ := exists_numeral_floatForm hx
  have hback := Double.ofMagnitude_magnitude hx
  rw [htext, Numeral.number?_text hn hmark, hneg]
  rcases hv with ⟨h0, hm⟩ | ⟨hpos, hr⟩
  · rw [if_pos hm, ← h0, hback]
    rfl
  · have hm : n.mantissa ≠ 0 := (Shortest.pos_of_readsAs hpos hr).ne'
    have hb : Double.nearestBits (Literal.power n.mantissa 10 n.place).1 (Literal.power n.mantissa 10 n.place).2 =
        magnitude x := by
      rw [← Shortest.decimalRatio_eq] at hr
      exact Double.nearestBits_of_readsAs hpos (Shortest.decimalRatio_pos _ _) hr
    rw [if_neg hm, Double.ofRatio?, hb, if_pos hx, hback]
    rfl

end RegisterMachine
