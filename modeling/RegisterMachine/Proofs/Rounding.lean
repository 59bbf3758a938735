import Mathlib.Algebra.Order.Field.Power
import Mathlib.Data.Rat.Cast.Order
import Mathlib.Tactic.FieldSimp
import Mathlib.Tactic.Linarith
import Mathlib.Tactic.Positivity
import Mathlib.Tactic.Push
import Mathlib.Tactic.Ring
import RegisterMachine.Number.Shortest

/-!
# Rounding to the nearest double

Quotients of naturals are read as rationals here.  A double with the significand `m` and the exponent `e` is the
rational `m * 2 ^ e`; the rationals that round to it are those of `ReadsAs`, an interval that reaches half way to
each neighbour.

* `Double.roundDiv_of_rounds`, `Double.floorLog2_eq`: the two pieces of `nearestBits`.
* `Double.nearestBits_of_readsAs`: a rational in the interval of a double is rounded to that double.
* `Double.nearestBits_lt`: a rational that is not too large is rounded to a finite double.
* `Shortest.contains_iff_readsAs`: the test of the digit search is membership in that interval.
-/

namespace RegisterMachine.Double

/-! ## Rounding to an integer -/

/-- The integer `n` is nearest to `x`, a tie only if `n` is even. -/
def Rounds (x : ℚ) (n : ℕ) : Prop :=
  (n - 1 / 2 ≤ x ∧ x ≤ n + 1 / 2) ∧ (n % 2 = 1 → n - 1 / 2 < x ∧ x < n + 1 / 2)

/-- The same, without fractions. -/
theorem rounds_div_iff {a b n : ℕ} (hb : 0 < b) : Rounds (a / b) n ↔
    (2 * (n * b) ≤ 2 * a + b ∧ 2 * a ≤ 2 * (n * b) + b) ∧
      (n % 2 = 1 → 2 * (n * b) < 2 * a + b ∧ 2 * a < 2 * (n * b) + b) := by
  have hb' : (0 : ℚ) < b := by exact_mod_cast hb
  have h1 : (n : ℚ) - 1 / 2 ≤ a / b ↔ 2 * (n * b) ≤ 2 * a + b := by
    rw [le_div_iff₀ hb', ← @Nat.cast_le ℚ]
    push_cast
    constructor <;> intro h <;> linarith
  have h2 : (a : ℚ) / b ≤ n + 1 / 2 ↔ 2 * a ≤ 2 * (n * b) + b := by
    rw [div_le_iff₀ hb', ← @Nat.cast_le ℚ]
    push_cast
    constructor <;> intro h <;> linarith
  have h3 : (n : ℚ) - 1 / 2 < a / b ↔ 2 * (n * b) < 2 * a + b := by
    rw [lt_div_iff₀ hb', ← @Nat.cast_lt ℚ]
    push_cast
    constructor <;> intro h <;> linarith
  have h4 : (a : ℚ) / b < n + 1 / 2 ↔ 2 * a < 2 * (n * b) + b := by
    rw [div_lt_iff₀ hb', ← @Nat.cast_lt ℚ]
    push_cast
    constructor <;> intro h <;> linarith
  rw [Rounds, h1, h2, h3, h4]

theorem roundDiv_of_rounds {a b n : ℕ} (hb : 0 < b) (h : Rounds (a / b) n) : roundDiv a b = n := by
  rw [rounds_div_iff hb] at h
  obtain ⟨⟨h1, h2⟩, h3⟩ := h
  have ha : a = a / b * b + a % b := by rw [Nat.div_add_mod']
  have hr : a % b < b := Nat.mod_lt a hb
  unfold roundDiv
  dsimp only
  generalize a / b = q at *
  generalize a % b = r at *
  have hq : q ≤ n := by
    by_contra hlt
    have : (n + 1) * b ≤ q * b := Nat.mul_le_mul_right b (by omega)
    rw [Nat.add_mul] at this
    omega
  have hn : n ≤ q + 1 := by
    by_contra hlt
    have : (q + 2) * b ≤ n * b := Nat.mul_le_mul_right b (by omega)
    rw [Nat.add_mul] at this
    omega
  obtain rfl | rfl : n = q ∨ n = q + 1 := by omega
  · split
    · rfl
    split
    · omega
    · rw [if_pos]
      rw [beq_iff_eq]
      by_contra hodd
      have := h3 (by omega)
      omega
  · have he : (q + 1) * b = q * b + b := by rw [Nat.add_mul, Nat.one_mul]
    rw [if_neg (by omega)]
    split
    · rfl
    · rw [if_neg]
      rw [beq_iff_eq]
      intro heven
      have := h3 (by omega)
      omega

/-! ## Scaling by powers of two -/

theorem scale_eq (num den : ℕ) (e : ℤ) :
    ((scale num den e).1 : ℚ) / (scale num den e).2 = (num / den) / 2 ^ e := by
  simp only [scale, Nat.shiftLeft_eq]
  split
  · next he =>
    obtain ⟨k, rfl⟩ : ∃ k : ℕ, e = -k := ⟨e.natAbs, by omega⟩
    simp only [Int.natAbs_neg, Int.natAbs_natCast, Nat.cast_mul, Nat.cast_pow, Nat.cast_ofNat, zpow_neg,
      zpow_natCast]
    rw [div_inv_eq_mul]
    ring
  · next he =>
    obtain ⟨k, rfl⟩ : ∃ k : ℕ, e = k := ⟨e.natAbs, by omega⟩
    simp only [Int.natAbs_natCast, Nat.cast_mul, Nat.cast_pow, Nat.cast_ofNat, zpow_natCast]
    rw [div_div]

theorem scale_pos {num den : ℕ} (e : ℤ) (hd : 0 < den) : 0 < (scale num den e).2 := by
  simp only [scale, Nat.shiftLeft_eq]
  split
  · exact hd
  · positivity

theorem floorLog2_spec {num den : ℕ} (hn : 0 < num) (hd : 0 < den) :
    (2 : ℚ) ^ floorLog2 num den ≤ num / den ∧ (num / den : ℚ) < 2 ^ (floorLog2 num den + 1) := by
  have hd' : (0 : ℚ) < den := by exact_mod_cast hd
  have n1 : (2 : ℚ) ^ (num.log2 : ℤ) ≤ num := by exact_mod_cast Nat.log2_self_le hn.ne'
  have n2 : (num : ℚ) < 2 ^ ((num.log2 : ℤ) + 1) := by exact_mod_cast Nat.lt_log2_self
  have d1 : (2 : ℚ) ^ (den.log2 : ℤ) ≤ den := by exact_mod_cast Nat.log2_self_le hd.ne'
  have d2 : (den : ℚ) < 2 ^ ((den.log2 : ℤ) + 1) := by exact_mod_cast Nat.lt_log2_self
  have hk : ∀ k : ℤ, (scale num den k).2 ≤ (scale num den k).1 ↔ (2 : ℚ) ^ k ≤ num / den := by
    intro k
    have hp : (0 : ℚ) < (scale num den k).2 := by exact_mod_cast scale_pos k hd
    rw [← @Nat.cast_le ℚ, ← one_le_div hp, scale_eq, one_le_div (by positivity)]
  unfold floorLog2
  dsimp only
  generalize (num.log2 : ℤ) = i at *
  generalize (den.log2 : ℤ) = j at *
  have up : (num / den : ℚ) < 2 ^ (i - j + 1) := by
    rw [div_lt_iff₀ hd']
    calc (num : ℚ) < 2 ^ (i + 1) := n2
      _ = 2 ^ (i - j + 1) * 2 ^ j := by rw [← zpow_add₀ (by norm_num)]; congr 1; ring
      _ ≤ 2 ^ (i - j + 1) * den := by gcongr
  have low : (2 : ℚ) ^ (i - j - 1) ≤ num / den := by
    rw [le_div_iff₀ hd']
    calc (2 : ℚ) ^ (i - j - 1) * den ≤ 2 ^ (i - j - 1) * 2 ^ (j + 1) := by gcongr
      _ = 2 ^ i := by rw [← zpow_add₀ (by norm_num)]; congr 1; ring
      _ ≤ num := n1
  split
  · next h => exact ⟨(hk _).mp h, up⟩
  · next h =>
    rw [hk, not_le] at h
    exact ⟨low, by rwa [sub_add_cancel]⟩

theorem floorLog2_eq {num den : ℕ} (hn : 0 < num) (hd : 0 < den) {k : ℤ} (h1 : (2 : ℚ) ^ k ≤ num / den)
    (h2 : (num / den : ℚ) < 2 ^ (k + 1)) : floorLog2 num den = k := by
  obtain ⟨s1, s2⟩ := floorLog2_spec hn hd
  have hlt : (1 : ℚ) < 2 := by norm_num
  have a := (zpow_lt_zpow_iff_right₀ hlt).mp (s1.trans_lt h2)
  have b := (zpow_lt_zpow_iff_right₀ hlt).mp (h1.trans_lt s2)
  omega

/-! ## The rationals that read as a double -/

/-- How far the interval of a double reaches down, in units of its last place.  The neighbour below is only half as
far away when the significand is the least of its binade. -/
def gap (bits : ℕ) : ℚ := if significand bits = implicitBit ∧ 2 * implicitBit ≤ bits then 1 / 4 else 1 / 2

/-- The rational `q` is nearer to the double with these bits than to any other one, or half way to a neighbour and
the significand is even. -/
def ReadsAs (bits : ℕ) (q : ℚ) : Prop :=
  (significand bits - gap bits ≤ q / 2 ^ exponent bits ∧ q / 2 ^ exponent bits ≤ significand bits + 1 / 2) ∧
    (significand bits % 2 = 1 →
      significand bits - gap bits < q / 2 ^ exponent bits ∧ q / 2 ^ exponent bits < significand bits + 1 / 2)

theorem significand_pos {bits : ℕ} (h : 0 < bits) : 0 < significand bits := by
  unfold significand implicitBit
  split <;> omega

theorem significand_lt (bits : ℕ) : significand bits < 2 ^ 53 := by
  unfold significand implicitBit
  split <;> omega

/-- The bits of a double, from its exponent and its significand. -/
theorem bits_eq (bits : ℕ) : (exponent bits + 1074).toNat * 2 ^ 52 + significand bits = bits := by
  unfold exponent significand implicitBit
  split <;> omega

theorem gap_le (bits : ℕ) : gap bits ≤ 1 / 2 := by
  unfold gap
  split <;> norm_num

theorem nearestBits_of_rounds {num den : ℕ} (hn : 0 < num) (hd : 0 < den) {e : ℤ}
    (he : lastPlace num den = e) {n : ℕ}
    (h : Rounds (num / den / 2 ^ e) n) : nearestBits num den = (e + 1074).toNat * 2 ^ 52 + n := by
  unfold nearestBits
  rw [if_neg (by simpa using hn.ne'), he]
  dsimp only
  rw [← scale_eq] at h
  rw [roundDiv_of_rounds (scale_pos e hd) h]
  rfl

theorem ReadsAs.rounds {bits : ℕ} {q : ℚ} (h : ReadsAs bits q) :
    Rounds (q / 2 ^ exponent bits) (significand bits) := by
  have hg := gap_le bits
  obtain ⟨⟨h1, h2⟩, h3⟩ := h
  refine ⟨⟨by linarith, h2⟩, fun hodd => ?_⟩
  obtain ⟨h4, h5⟩ := h3 hodd
  exact ⟨by linarith, h5⟩

theorem ReadsAs.pos {bits : ℕ} {q : ℚ} (hb : 0 < bits) (h : ReadsAs bits q) : 0 < q / 2 ^ exponent bits := by
  have hm : (1 : ℚ) ≤ significand bits := by exact_mod_cast significand_pos hb
  have hg := gap_le bits
  linarith [h.1.1]

theorem ReadsAs.lt {bits : ℕ} {q : ℚ} (h : ReadsAs bits q) : q / 2 ^ exponent bits < 2 ^ 53 := by
  have hm : (significand bits : ℚ) + 1 ≤ 2 ^ 53 := by exact_mod_cast significand_lt bits
  linarith [h.1.2]

/-- Only the least significand of a binade is reached from below the binade. -/
theorem ReadsAs.significand_eq {bits : ℕ} {q : ℚ} (h : ReadsAs bits q) (hb : 2 ^ 53 ≤ bits)
    (hx : q / 2 ^ exponent bits < 2 ^ 52) : significand bits = 2 ^ 52 := by
  have hge : 2 ^ 52 ≤ significand bits := by
    unfold significand implicitBit
    rw [if_neg (by omega)]
    omega
  by_contra hne
  have hm : (2 : ℚ) ^ 52 + 1 ≤ significand bits := by exact_mod_cast (by omega : 2 ^ 52 + 1 ≤ significand bits)
  have hg := gap_le bits
  linarith [h.1.1]

theorem floorLog2_of_scaled {num den : ℕ} (hn : 0 < num) (hd : 0 < den) {k e : ℤ}
    (hlow : (2 : ℚ) ^ k ≤ num / den / 2 ^ e) (hhigh : (num / den / 2 ^ e : ℚ) < 2 ^ (k + 1)) :
    floorLog2 num den = k + e := by
  have hp : (0 : ℚ) < 2 ^ e := by positivity
  refine floorLog2_eq hn hd ?_ ?_
  · rw [zpow_add₀ two_ne_zero]
    exact (le_div_iff₀ hp).mp hlow
  · rw [add_right_comm, zpow_add₀ two_ne_zero]
    exact (div_lt_iff₀ hp).mp hhigh

theorem exponent_of_normal {bits : ℕ} (h : 2 ^ 53 ≤ bits) : -1073 ≤ exponent bits := by
  unfold exponent implicitBit
  rw [if_neg (by omega)]
  omega

/-- The last place of a double is that of the rationals that read as it, down to its binade. -/
theorem ReadsAs.lastPlace_eq {bits num den : ℕ} (hn : 0 < num) (hd : 0 < den) (h : ReadsAs bits (num / den))
    (hx : bits < 2 ^ 53 ∨ (2 : ℚ) ^ 52 ≤ num / den / 2 ^ exponent bits) : lastPlace num den = exponent bits := by
  have hlt := h.lt
  by_cases hsub : bits < 2 ^ 53
  · -- the last place is the least there is
    have he : exponent bits = -1074 := if_pos hsub
    have hk : floorLog2 num den < -1021 := by
      obtain ⟨hlog, -⟩ := floorLog2_spec hn hd
      refine (zpow_lt_zpow_iff_right₀ (by norm_num : (1 : ℚ) < 2)).mp (hlog.trans_lt ?_)
      rw [div_lt_iff₀ (by positivity), he] at hlt
      calc (num / den : ℚ) < 2 ^ (53 : ℤ) * 2 ^ (-1074 : ℤ) := by exact_mod_cast hlt
        _ = 2 ^ (-1021 : ℤ) := by rw [← zpow_add₀ two_ne_zero]; norm_num
    unfold lastPlace
    omega
  · have he := exponent_of_normal (not_lt.mp hsub)
    have hk : floorLog2 num den = 52 + exponent bits :=
      floorLog2_of_scaled hn hd (by exact_mod_cast hx.resolve_left hsub) (by norm_num at hlt ⊢; exact hlt)
    unfold lastPlace
    omega

/-- Just below the binade of a double, where doubles are twice as dense, rounding carries into the binade. -/
theorem ReadsAs.nearestBits_of_lt {bits num den : ℕ} (hn : 0 < num) (hd : 0 < den) (h : ReadsAs bits (num / den))
    (hb : 2 ^ 53 ≤ bits) (hx : (num / den / 2 ^ exponent bits : ℚ) < 2 ^ 52) : nearestBits num den = bits := by
  have he := exponent_of_normal hb
  have hm := h.significand_eq hb hx
  have hlow : (2 : ℚ) ^ 52 - 1 / 4 ≤ num / den / 2 ^ exponent bits := by
    have hg : gap bits = 1 / 4 := if_pos ⟨hm, hb⟩
    have := h.1.1
    rw [hg, hm] at this
    exact_mod_cast this
  have hk : floorLog2 num den = 51 + exponent bits := by
    refine floorLog2_of_scaled hn hd ?_ ?_
    · norm_num at hlow ⊢
      linarith
    · norm_num at hx ⊢
      exact hx
  have hlast : lastPlace num den = exponent bits - 1 := by
    unfold lastPlace
    omega
  have hdouble : (num / den / 2 ^ (exponent bits - 1) : ℚ) = 2 * (num / den / 2 ^ exponent bits) := by
    rw [zpow_sub_one₀ two_ne_zero]
    field_simp
  have hr : Rounds (num / den / 2 ^ (exponent bits - 1)) (2 ^ 53) := by
    rw [hdouble]
    refine ⟨⟨?_, ?_⟩, fun hodd => absurd hodd (by norm_num)⟩
    · push_cast
      norm_num at hlow ⊢
      linarith
    · push_cast
      norm_num at hx ⊢
      linarith
  have hcarry : (exponent bits + 1074).toNat = (exponent bits - 1 + 1074).toNat + 1 := by omega
  have hbits := bits_eq bits
  rw [hm, hcarry] at hbits
  rw [nearestBits_of_rounds hn hd hlast hr]
  calc (exponent bits - 1 + 1074).toNat * 2 ^ 52 + 2 ^ 53
      = ((exponent bits - 1 + 1074).toNat + 1) * 2 ^ 52 + 2 ^ 52 := by ring
    _ = bits := hbits

/-- **Rounding finds the double that a rational reads as.** -/
theorem nearestBits_of_readsAs {bits num den : ℕ} (hb : 0 < bits) (hd : 0 < den) (h : ReadsAs bits (num / den)) :
    nearestBits num den = bits := by
  have hpos := h.pos hb
  have hn : 0 < num := by
    rcases Nat.eq_zero_or_pos num with rfl | hn
    · simp at hpos
    · exact hn
  by_cases hx : bits < 2 ^ 53 ∨ (2 : ℚ) ^ 52 ≤ num / den / 2 ^ exponent bits
  · rw [nearestBits_of_rounds hn hd (h.lastPlace_eq hn hd hx) h.rounds, bits_eq]
  · rw [not_or, not_lt, not_le] at hx
    exact h.nearestBits_of_lt hn hd hx.1 hx.2

/-! ## Quotients that are not too large -/

theorem roundDiv_le (num den : ℕ) : roundDiv num den ≤ num / den + 1 := by
  unfold roundDiv
  dsimp only
  split <;> try split <;> try split
  all_goals omega

/-- A quotient in the lower half of the range of doubles does not round to infinity. -/
theorem nearestBits_lt {num den : ℕ} (hd : 0 < den) (h : (num / den : ℚ) < 2 ^ (1023 : ℤ)) :
    nearestBits num den < infinityBits := by
  unfold nearestBits
  split
  · decide
  next hn =>
  have hn : 0 < num := Nat.pos_of_ne_zero (by simpa using hn)
  obtain ⟨hlow, hhigh⟩ := floorLog2_spec hn hd
  have hlog : floorLog2 num den < 1023 := (zpow_lt_zpow_iff_right₀ (by norm_num)).mp (hlow.trans_lt h)
  dsimp only
  generalize he : lastPlace num den = e
  have hle : floorLog2 num den - 52 ≤ e ∧ e ≤ 970 := by
    rw [← he, lastPlace]
    omega
  have hpos : 0 < (scale num den e).2 := scale_pos e hd
  have hscaled : ((scale num den e).1 : ℚ) / (scale num den e).2 < 2 ^ (53 : ℤ) := by
    rw [scale_eq, div_lt_iff₀ (by positivity), ← zpow_add₀ (by norm_num)]
    exact hhigh.trans_le (zpow_le_zpow_right₀ (by norm_num) (by omega))
  have hquot : (scale num den e).1 / (scale num den e).2 < 2 ^ 53 := by
    rw [Nat.div_lt_iff_lt_mul hpos]
    rw [div_lt_iff₀ (by exact_mod_cast hpos)] at hscaled
    exact_mod_cast hscaled
  have hround := roundDiv_le (scale num den e).1 (scale num den e).2
  simp only [infinityBits, implicitBit]
  omega

end RegisterMachine.Double

namespace RegisterMachine.Shortest

open Double (implicitBit significand exponent gap ReadsAs)

/-! ## The interval of the digit search -/

/-- The unit in which a target is counted is a quarter of the last place. -/
theorem unit_div_den (e : ℤ) :
    ((if e < 2 then 1 else 2 ^ (e - 2).natAbs : ℕ) : ℚ) =
      2 ^ e / 4 * (if e < 2 then 2 ^ (2 - e).natAbs else 1 : ℕ) := by
  have h2 : (2 : ℚ) ≠ 0 := by norm_num
  split
  · next h =>
    have hk : ((2 - e).natAbs : ℤ) = 2 - e := by omega
    push_cast
    rw [← zpow_natCast, hk, div_mul_eq_mul_div, ← zpow_add₀ h2]
    norm_num
  · next h =>
    have hk : ((e - 2).natAbs : ℤ) = e - 2 := by omega
    push_cast
    rw [← zpow_natCast, hk, zpow_sub₀ h2]
    norm_num

theorem target_den_pos (bits : ℕ) : 0 < (target bits).den := by
  simp only [target, Nat.one_shiftLeft]
  split <;> positivity

theorem target_value (bits : ℕ) :
    ((target bits).value : ℚ) = significand bits * 2 ^ exponent bits * (target bits).den := by
  simp only [target, Nat.one_shiftLeft]
  rw [Nat.cast_mul, unit_div_den]
  push_cast
  ring

theorem target_high (bits : ℕ) :
    ((target bits).high : ℚ) = (significand bits + 1 / 2) * 2 ^ exponent bits * (target bits).den := by
  simp only [target, Nat.one_shiftLeft]
  rw [Nat.cast_mul, unit_div_den]
  push_cast
  ring

theorem target_low {bits : ℕ} (hb : 0 < bits) :
    ((target bits).low : ℚ) = (significand bits - gap bits) * 2 ^ exponent bits * (target bits).den := by
  have hm := Double.significand_pos hb
  simp only [target, Nat.one_shiftLeft]
  rw [Nat.cast_mul, unit_div_den]
  have hbelow : ((4 * significand bits -
      if (significand bits == implicitBit && decide (bits ≥ 2 * implicitBit)) = true then 1 else 2 : ℕ) : ℚ) =
      4 * (significand bits - gap bits) := by
    unfold gap
    by_cases hc : significand bits = implicitBit ∧ 2 * implicitBit ≤ bits
    · rw [if_pos hc, if_pos (by simpa only [Bool.and_eq_true, beq_iff_eq, decide_eq_true_eq] using hc),
        Nat.cast_sub (by omega)]
      push_cast
      ring
    · rw [if_neg hc, if_neg (by simpa only [Bool.and_eq_true, beq_iff_eq, decide_eq_true_eq] using hc),
        Nat.cast_sub (by omega)]
      push_cast
      ring
  rw [hbelow]
  ring

/-- The test of the search is membership in the interval of the double. -/
theorem contains_iff_readsAs {bits num den : ℕ} (hb : 0 < bits) (hd : 0 < den) :
    (target bits).contains num den = true ↔ ReadsAs bits (num / den) := by
  have hd' : (0 : ℚ) < den := by exact_mod_cast hd
  have ht : (0 : ℚ) < (target bits).den := by exact_mod_cast target_den_pos bits
  have hk : (0 : ℚ) < 2 ^ exponent bits * (target bits).den * den := by positivity
  have hnum : ((num * (target bits).den : ℕ) : ℚ) =
      num / den / 2 ^ exponent bits * (2 ^ exponent bits * (target bits).den * den) := by
    push_cast
    field_simp
  have hlow : (((target bits).low * den : ℕ) : ℚ) =
      (significand bits - gap bits) * (2 ^ exponent bits * (target bits).den * den) := by
    push_cast
    rw [target_low hb]
    ring
  have hhigh : (((target bits).high * den : ℕ) : ℚ) =
      (significand bits + 1 / 2) * (2 ^ exponent bits * (target bits).den * den) := by
    push_cast
    rw [target_high]
    ring
  have hclosed : (target bits).closed = (significand bits % 2 == 0) := rfl
  have hle : (target bits).low * den ≤ num * (target bits).den ∧
      num * (target bits).den ≤ (target bits).high * den ↔
      significand bits - gap bits ≤ num / den / 2 ^ exponent bits ∧
        (num / den / 2 ^ exponent bits : ℚ) ≤ significand bits + 1 / 2 := by
    rw [← @Nat.cast_le ℚ, ← @Nat.cast_le ℚ, hnum, hlow, hhigh, mul_le_mul_iff_left₀ hk, mul_le_mul_iff_left₀ hk]
  have hlt : (target bits).low * den < num * (target bits).den ∧
      num * (target bits).den < (target bits).high * den ↔
      significand bits - gap bits < num / den / 2 ^ exponent bits ∧
        (num / den / 2 ^ exponent bits : ℚ) < significand bits + 1 / 2 := by
    rw [← @Nat.cast_lt ℚ, ← @Nat.cast_lt ℚ, hnum, hlow, hhigh, mul_lt_mul_iff_left₀ hk, mul_lt_mul_iff_left₀ hk]
  unfold Target.contains ReadsAs
  by_cases hm : significand bits % 2 = 0
  · rw [if_pos (by rw [hclosed, hm]; rfl)]
    simp only [Bool.and_eq_true, decide_eq_true_eq, hle, hm, zero_ne_one, false_implies, and_true]
  · rw [if_neg (by rw [hclosed]; simpa using hm)]
    simp only [Bool.and_eq_true, decide_eq_true_eq, hlt]
    constructor
    · intro h
      exact ⟨⟨h.1.le, h.2.le⟩, fun _ => h⟩
    · intro h
      exact h.2 (by omega)

end RegisterMachine.Shortest
