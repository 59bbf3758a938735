import Mathlib
import RegisterMachine.Number.Double

/-!
# The bits of a finite double

A double is known by its bits.  `Float.ofBits` keeps the bits of every finite pattern (`toBits_ofBits`), so sign
and magnitude put a finite double together again (`ofMagnitude_magnitude`) and can be read off it
(`magnitude_ofMagnitude`).  `isFinite_iff` ties being finite to the magnitude.
-/

namespace RegisterMachine.Double

open Float.Model (Format)
open Float.Model.UnpackedFloat

/-! ## Fields of a bit pattern -/

variable (b : BitVec Format.binary64.numBits)

theorem toNat_unpackMantissa : (unpackMantissa b).toNat = b.toNat % 2 ^ 52 := by
  simp [unpackMantissa, BitVec.extractLsb, BitVec.extractLsb'_toNat, Nat.shiftRight_eq_div_pow]

theorem toNat_unpackExponent : (unpackExponent b).toNat = b.toNat / 2 ^ 52 % 2 ^ 11 := by
  simp [unpackExponent, BitVec.extractLsb, BitVec.extractLsb'_toNat, Nat.shiftRight_eq_div_pow]

theorem toNat_unpackSign : (unpackSign b).toNat = b.toNat / 2 ^ 63 := by
  have hb : b.toNat < 2 ^ 64 := b.isLt
  simp only [unpackSign, BitVec.extractLsb, BitVec.toNat_cast, BitVec.extractLsb'_toNat, Nat.shiftRight_eq_div_pow]
  omega

theorem toNat_append_eq {m n : Nat} (x : BitVec m) (y : BitVec n) :
    (x ++ y).toNat = x.toNat * 2 ^ n + y.toNat := by
  rw [BitVec.toNat_append, ← Nat.shiftLeft_add_eq_or_of_lt y.isLt, Nat.shiftLeft_eq]

/-- The three fields are the whole pattern. -/
theorem packComponents_fields :
    packComponents Format.binary64 (Sign.ofBitVec (unpackSign b)) (unpackExponent b) (unpackMantissa b) = b := by
  have hs : (Sign.ofBitVec (unpackSign b)).toBitVec = unpackSign b := by
    generalize unpackSign b = s
    revert s
    decide
  have hb : b.toNat < 2 ^ 64 := b.isLt
  rw [packComponents, hs]
  apply BitVec.eq_of_toNat_eq
  rw [toNat_append_eq, toNat_append_eq, toNat_unpackExponent, toNat_unpackMantissa, toNat_unpackSign]
  show (b.toNat / 2 ^ 63 * 2 ^ 11 + b.toNat / 2 ^ 52 % 2 ^ 11) * 2 ^ 52 + b.toNat % 2 ^ 52 = b.toNat
  omega

/-- Unpacking a finite pattern and packing it again changes nothing. -/
theorem pack_unpack_of_finite (h : unpackExponent b ≠ -1#_) :
    pack Format.binary64 (unpack Format.binary64 b) = b := by
  have hm : (unpackMantissa b).toNat < 2 ^ 52 := (unpackMantissa b).isLt
  have hb := packComponents_fields b
  unfold unpack
  dsimp only
  rw [if_neg h]
  split
  · next he =>
    split
    · next hz =>
      rw [pack, packedZero]
      rwa [he, hz] at hb
    · next hz =>
      have hl : (unpackMantissa b).toNat.log2 < 52 := by
        rw [Nat.log2_lt]
        · exact hm
        · simpa [BitVec.toNat_eq] using hz
      simp only [pack, he, Format.exponentBias, Format.mantissaBits]
      rw [if_neg (by decide), if_neg (by omega), BitVec.ofNat_toNat, BitVec.setWidth_eq, ← he, hb]
  · next he =>
    have hx : (unpackExponent b).toNat < 2 ^ 11 - 1 := by
      have h1 : (unpackExponent b).toNat < 2 ^ 11 := (unpackExponent b).isLt
      have h2 : (unpackExponent b).toNat ≠ 2 ^ 11 - 1 := fun hx => h (BitVec.eq_of_toNat_eq hx)
      omega
    have ha : (1#1 ++ unpackMantissa b).toNat = 2 ^ 52 + (unpackMantissa b).toNat := by
      rw [toNat_append_eq]
      simp
    have hl : (1#1 ++ unpackMantissa b).toNat.log2 = 52 := by
      rw [ha, Nat.log2_eq_iff (by omega)]
      omega
    have hmant : BitVec.ofNat 52 (1#1 ++ unpackMantissa b).toNat = unpackMantissa b := by
      apply BitVec.eq_of_toNat_eq
      rw [BitVec.toNat_ofNat, ha]
      omega
    have hexp : ((unpackExponent b).toNat - ((2 ^ (11 - 1) - 1 : Nat) + (52 : Nat)) + (2 ^ (11 - 1) - 1 : Nat) +
        (52 : Nat) : Int).toNat = (unpackExponent b).toNat := by omega
    simp only [pack, hl, Format.exponentBias, Format.mantissaBits]
    rw [hexp, if_neg (by omega), if_pos (by decide), BitVec.ofNat_toNat, BitVec.setWidth_eq, hmant, hb]

/-! ## Sign and magnitude -/

theorem unpackExponent_ne_iff (b : UInt64) :
    @unpackExponent Format.binary64 b.toBitVec ≠ -1#_ ↔ b.toNat % signBit < infinityBits := by
  have hb : b.toNat < 2 ^ 64 := b.toNat_lt
  have hx : (@unpackExponent Format.binary64 b.toBitVec).toNat = b.toNat / 2 ^ 52 % 2 ^ 11 :=
    toNat_unpackExponent b.toBitVec
  rw [ne_eq, ← BitVec.toNat_inj, hx, signBit, infinityBits]
  show ¬ b.toNat / 2 ^ 52 % 2 ^ 11 = 2047 ↔ _
  omega

theorem toBits_ofBits {b : UInt64} (h : b.toNat % signBit < infinityBits) : (Float.ofBits b).toBits = b := by
  have hp := pack_unpack_of_finite b.toBitVec ((unpackExponent_ne_iff b).mpr h)
  show UInt64.ofBitVec (pack Format.binary64 (unpack Format.binary64 b.toBitVec)) = b
  rw [hp]

theorem eq_of_toBits_eq {x y : Float} (h : x.toBits = y.toBits) : x = y := by
  obtain ⟨⟨b, hb⟩⟩ := x
  obtain ⟨⟨c, hc⟩⟩ := y
  obtain rfl : b = c := h
  rfl

/-- A double is finite when its magnitude is below the bits of infinity. -/
theorem isFinite_iff (x : Float) : x.isFinite = true ↔ magnitude x < infinityBits := by
  rw [magnitude, ← unpackExponent_ne_iff]
  show (unpack Format.binary64 x.toBits.toBitVec).isFinite = true ↔ _
  unfold unpack
  dsimp only
  split
  · next h =>
    refine iff_of_false ?_ (not_not_intro h)
    split <;> simp [isFinite]
  · next h =>
    refine iff_of_true ?_ h
    split
    · split <;> rfl
    · rfl

theorem toNat_ofMagnitude_bits {bits : Nat} (negative : Bool) (h : bits < infinityBits) :
    (bits + if negative then signBit else 0).toUInt64.toNat = bits + if negative then signBit else 0 := by
  simp only [infinityBits, signBit] at h ⊢
  rw [Nat.toUInt64, UInt64.toNat_ofNat']
  cases negative <;> simp <;> omega

/-- The bits of a double that is put together from a sign and finite bits. -/
theorem toBits_ofMagnitude {bits : Nat} (negative : Bool) (h : bits < infinityBits) :
    (ofMagnitude negative bits).toBits.toNat = bits + if negative then signBit else 0 := by
  have hn := toNat_ofMagnitude_bits negative h
  rw [ofMagnitude, toBits_ofBits, hn]
  rw [hn]
  simp only [infinityBits, signBit] at h ⊢
  cases negative <;> simp <;> omega

theorem magnitude_ofMagnitude {bits : Nat} (negative : Bool) (h : bits < infinityBits) :
    magnitude (ofMagnitude negative bits) = bits := by
  rw [magnitude, toBits_ofMagnitude negative h]
  simp only [infinityBits, signBit] at h ⊢
  cases negative <;> simp <;> omega

/-- Sign and magnitude determine a finite double. -/
theorem ofMagnitude_magnitude {x : Float} (h : magnitude x < infinityBits) :
    ofMagnitude (isNegative x) (magnitude x) = x := by
  apply eq_of_toBits_eq
  apply UInt64.toNat_inj.mp
  have hx : x.toBits.toNat < 2 ^ 64 := x.toBits.toNat_lt
  rw [toBits_ofMagnitude _ h, magnitude]
  by_cases hn : signBit ≤ x.toBits.toNat
  · simp only [isNegative, hn, decide_true, if_true]
    simp only [signBit] at hn ⊢
    omega
  · simp only [isNegative, hn, decide_false, if_false, Bool.false_eq_true]
    simp only [signBit] at hn ⊢
    omega

theorem isFinite_ofMagnitude (negative : Bool) {bits : Nat} (h : bits < infinityBits) :
    (ofMagnitude negative bits).isFinite = true :=
  (isFinite_iff _).mpr (by rwa [magnitude_ofMagnitude negative h])

theorem isFinite_of_ofRatio? {negative : Bool} {num den : Nat} {x : Float}
    (h : ofRatio? negative num den = some x) :
    x.isFinite = true := by
  unfold ofRatio? at h
  dsimp only at h
  split at h
  · next hb =>
    cases h
    exact isFinite_ofMagnitude negative hb
  · cases h

end RegisterMachine.Double
