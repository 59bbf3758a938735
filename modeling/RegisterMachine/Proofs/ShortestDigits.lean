import RegisterMachine.Proofs.Rounding

/-!
# The digits that the search finds read back

`Shortest.search_readsAs`: whatever place the search stops at, the decimal it returns reads as the double it was
started from.  At the places that are tried this is the test itself; after them it is left to the bound that
eighteen digits come nearer to a double than a quarter of its last place.
-/

namespace RegisterMachine.Shortest

open Double (significand exponent gap ReadsAs Rounds roundDiv)

/-! ## Decimals as rationals -/

theorem decimalRatio_pos (c : ℕ) (p : ℤ) : 0 < (decimalRatio c p).2 := by
  simp only [decimalRatio, Nat.pow_eq]
  split <;> positivity

theorem decimalRatio_eq (c : ℕ) (p : ℤ) : ((decimalRatio c p).1 : ℚ) / (decimalRatio c p).2 = c * 10 ^ p := by
  simp only [decimalRatio, Nat.pow_eq]
  split
  · next hp =>
    obtain ⟨k, rfl⟩ : ∃ k : ℕ, p = -k := ⟨p.natAbs, by omega⟩
    simp only [Int.natAbs_neg, Int.natAbs_natCast, zpow_neg, zpow_natCast, Nat.cast_pow, Nat.cast_ofNat]
    rfl
  · next hp =>
    obtain ⟨k, rfl⟩ : ∃ k : ℕ, p = k := ⟨p.natAbs, by omega⟩
    simp only [Int.natAbs_natCast, zpow_natCast, Nat.cast_pow, Nat.cast_ofNat, Nat.cast_mul, Nat.cast_one, div_one]

theorem reads_iff_readsAs {bits : ℕ} (hb : 0 < bits) (c : ℕ) (p : ℤ) :
    (target bits).reads c p = true ↔ ReadsAs bits (c * 10 ^ p) := by
  rw [← decimalRatio_eq, ← contains_iff_readsAs hb (decimalRatio_pos c p)]
  rfl

theorem units_pos (bits : ℕ) (p : ℤ) : 0 < ((target bits).units p).2 := by
  have := target_den_pos bits
  simp only [Target.units, Nat.pow_eq]
  split <;> positivity

theorem units_eq (bits : ℕ) (p : ℤ) :
    (((target bits).units p).1 : ℚ) / ((target bits).units p).2 =
      significand bits * 2 ^ exponent bits / 10 ^ p := by
  have hd : ((target bits).den : ℚ) ≠ 0 := by exact_mod_cast (target_den_pos bits).ne'
  simp only [Target.units, Nat.pow_eq]
  split
  · next hp =>
    obtain ⟨k, rfl⟩ : ∃ k : ℕ, p = -k := ⟨p.natAbs, by omega⟩
    simp only [Int.natAbs_neg, Int.natAbs_natCast, zpow_neg, zpow_natCast, Nat.cast_mul, Nat.cast_pow,
      Nat.cast_ofNat, target_value]
    field_simp
  · next hp =>
    obtain ⟨k, rfl⟩ : ∃ k : ℕ, p = k := ⟨p.natAbs, by omega⟩
    simp only [Int.natAbs_natCast, zpow_natCast, Nat.cast_mul, Nat.cast_pow, Nat.cast_ofNat, target_value]
    field_simp

/-! ## The decimal exponent -/

theorem lt_pow_digitCount (n : ℕ) : n < 10 ^ digitCount n := by
  unfold digitCount
  split
  · next h => simp at h; simp [h]
  · exact (Nat.length_toDigits_le_iff (by norm_num) Nat.length_toDigits_pos).mp le_rfl

theorem pow_digitCount_le {n : ℕ} (hn : 0 < n) : 10 ^ (digitCount n - 1) ≤ n := by
  have hc : digitCount n = (Nat.toDigits 10 n).length := by
    unfold digitCount
    rw [if_neg (by simpa using hn.ne')]
  rcases Nat.eq_zero_or_pos (digitCount n - 1) with h0 | hpos
  · rw [h0]
    exact hn
  · by_contra hlt
    have := (Nat.length_toDigits_le_iff (b := 10) (n := n) (by norm_num) hpos).mpr (not_le.mp hlt)
    omega

theorem target_value_pos {bits : ℕ} (hb : 0 < bits) : 0 < (target bits).value := by
  have hm := Double.significand_pos hb
  simp only [target, Nat.one_shiftLeft]
  split <;> positivity

theorem pow_decimalExponent_le {bits : ℕ} (hb : 0 < bits) :
    (10 : ℚ) ^ (target bits).decimalExponent ≤ significand bits * 2 ^ exponent bits := by
  have hd := target_den_pos bits
  have hv := target_value_pos hb
  have hd' : (0 : ℚ) < (target bits).den := by exact_mod_cast hd
  have hval := target_value bits
  have hq : (significand bits * 2 ^ exponent bits : ℚ) = (target bits).value / (target bits).den := by
    rw [hval, mul_div_cancel_right₀ _ hd'.ne']
  rw [hq, le_div_iff₀ hd']
  unfold Target.decimalExponent
  generalize (target bits).value = v at *
  generalize (target bits).den = d at *
  split
  · next h =>
    -- at least one: count the digits of the integer part
    have hn : 0 < v / d := Nat.div_pos h hd
    have hc : 0 < digitCount (v / d) := by
      by_contra h0
      have := lt_pow_digitCount (v / d)
      rw [Nat.eq_zero_of_not_pos h0] at this
      omega
    have he : ((digitCount (v / d) : ℤ) - 1) = ((digitCount (v / d) - 1 : ℕ) : ℤ) := by omega
    have hle : 10 ^ (digitCount (v / d) - 1) * d ≤ v :=
      (Nat.mul_le_mul_right d (pow_digitCount_le hn)).trans (Nat.div_mul_le_self v d)
    rw [he, zpow_natCast]
    exact_mod_cast hle
  · next h =>
    -- less than one: count the digits of what the reciprocal rounds up to
    have hup : d ≤ (d + v - 1) / v * v := by
      have := Nat.div_add_mod' (d + v - 1) v
      have := Nat.mod_lt (d + v - 1) hv
      omega
    have hlt := lt_pow_digitCount ((d + v - 1) / v - 1)
    have hle : d ≤ 10 ^ digitCount ((d + v - 1) / v - 1) * v := hup.trans (Nat.mul_le_mul_right v (by omega))
    rw [zpow_neg, zpow_natCast, inv_mul_le_iff₀ (by positivity)]
    exact_mod_cast hle

/-! ## The search -/

theorem roundDiv_rounds {a b : ℕ} (hb : 0 < b) : Rounds (a / b) (roundDiv a b) := by
  rw [Double.rounds_div_iff hb]
  have ha : a / b * b + a % b = a := Nat.div_add_mod' a b
  have hr : a % b < b := Nat.mod_lt a hb
  unfold roundDiv
  dsimp only
  generalize a / b = q at *
  generalize a % b = r at *
  have he : (q + 1) * b = q * b + b := by rw [Nat.add_mul, Nat.one_mul]
  split
  · exact ⟨by omega, fun _ => by omega⟩
  split
  · rw [he]
    exact ⟨by omega, fun _ => by omega⟩
  split
  · next hq =>
    rw [beq_iff_eq] at hq
    exact ⟨by omega, fun _ => by omega⟩
  · next hq =>
    rw [beq_iff_eq] at hq
    rw [he]
    exact ⟨by omega, fun _ => by omega⟩

theorem roundDiv_cases (a b : ℕ) : roundDiv a b = a / b ∨ roundDiv a b = a / b + 1 := by
  unfold roundDiv
  dsimp only
  split
  · exact .inl rfl
  split
  · exact .inr rfl
  split
  · exact .inl rfl
  · exact .inr rfl

/-- What is less than a quarter of the last place away from a double reads as it. -/
theorem readsAs_of_near {bits : ℕ} {q : ℚ} (h : |q / 2 ^ exponent bits - significand bits| < 1 / 4) :
    ReadsAs bits q := by
  have hg : 1 / 4 ≤ gap bits := by
    unfold gap
    split <;> norm_num
  obtain ⟨h1, h2⟩ := abs_lt.mp h
  exact ⟨⟨by linarith, by linarith⟩, fun _ => ⟨by linarith, by linarith⟩⟩

/-- Eighteen digits are enough for every double. -/
theorem readsAs_eighteen {bits : ℕ} (hb : 0 < bits) {p : ℤ} (hp : p + 17 = (target bits).decimalExponent) :
    ReadsAs bits (roundDiv ((target bits).units p).1 ((target bits).units p).2 * 10 ^ p) := by
  have hr := roundDiv_rounds (a := ((target bits).units p).1) (units_pos bits p)
  rw [units_eq] at hr
  generalize roundDiv ((target bits).units p).1 ((target bits).units p).2 = c at *
  have hp10 : (0 : ℚ) < 10 ^ p := by positivity
  have hp2 : (0 : ℚ) < 2 ^ exponent bits := by positivity
  have hm : (significand bits : ℚ) < 2 ^ 53 := by exact_mod_cast Double.significand_lt bits
  -- the error is half a unit of the place, and the place is seventeen below the leading digit
  have herr : |(c * 10 ^ p - significand bits * 2 ^ exponent bits : ℚ)| ≤ 1 / 2 * 10 ^ p := by
    have hval : (significand bits * 2 ^ exponent bits : ℚ) =
        significand bits * 2 ^ exponent bits / 10 ^ p * 10 ^ p := by
      rw [div_mul_cancel₀ _ hp10.ne']
    rw [hval, ← sub_mul, abs_mul, abs_of_pos hp10]
    gcongr
    rw [abs_le]
    exact ⟨by linarith [hr.1.2], by linarith [hr.1.1]⟩
  have hplace : (10 : ℚ) ^ p * 10 ^ 17 ≤ significand bits * 2 ^ exponent bits := by
    have := pow_decimalExponent_le hb
    rw [← hp, zpow_add₀ (by norm_num)] at this
    exact_mod_cast this
  refine readsAs_of_near ?_
  have hdiv : (c * 10 ^ p / 2 ^ exponent bits - significand bits : ℚ) =
      (c * 10 ^ p - significand bits * 2 ^ exponent bits) / 2 ^ exponent bits := by field_simp
  have hbelow : (significand bits * 2 ^ exponent bits : ℚ) < 2 ^ 53 * 2 ^ exponent bits := by gcongr
  rw [hdiv, abs_div, abs_of_pos hp2, div_lt_iff₀ hp2]
  linarith

theorem search_readsAs_of_last {bits : ℕ} (hb : 0 < bits) (tries : ℕ) (p : ℤ)
    (hlast : ReadsAs bits (roundDiv ((target bits).units (p - tries)).1 ((target bits).units (p - tries)).2 *
      10 ^ (p - tries))) :
    ReadsAs bits (((target bits).search tries p).1 * 10 ^ ((target bits).search tries p).2) := by
  induction tries generalizing p with
  | zero => simpa [Target.search] using hlast
  | succ tries ih =>
    unfold Target.search
    split
    · next c hc =>
      unfold Target.atPlace? at hc
      dsimp only at hc
      split at hc
      · next h1 h2 =>
        obtain rfl := Option.some.inj hc
        rcases roundDiv_cases ((target bits).units p).1 ((target bits).units p).2 with he | he
        · rw [he]
          exact (reads_iff_readsAs hb _ _).mp h1
        · rw [he]
          exact (reads_iff_readsAs hb _ _).mp h2
      · next h1 h2 =>
        obtain rfl := Option.some.inj hc
        exact (reads_iff_readsAs hb _ _).mp h1
      · next h1 h2 =>
        obtain rfl := Option.some.inj hc
        exact (reads_iff_readsAs hb _ _).mp h2
      · simp at hc
    · refine ih (p - 1) ?_
      have he : p - 1 - tries = p - (tries + 1 : ℕ) := by push_cast; ring
      rwa [he]

/-- **The decimal that the search returns reads as the double.** -/
theorem search_readsAs {bits : ℕ} (hb : 0 < bits) :
    ReadsAs bits (((target bits).search 17 (target bits).decimalExponent).1 *
      10 ^ ((target bits).search 17 (target bits).decimalExponent).2) :=
  search_readsAs_of_last hb 17 _ (readsAs_eighteen hb (by push_cast; ring))

end RegisterMachine.Shortest
