import RegisterMachine.Text.Bytes

/-!
# Double precision numbers

A finite double is `m * 2 ^ e` with `m < 2 ^ 53` and `-1074 ≤ e`.  Read as a natural number, its 64 bits without
the sign are `(e + 1074) * 2 ^ 52 + m`, for normal and subnormal numbers alike, so that rounding up past the
largest significand carries into the exponent by itself.

* `nearestBits num den`: those bits for the double nearest to `num / den`, a tie to the even one.
* `ofRatio? negative num den`: the double itself, if the quotient is not too large for one.
-/

namespace RegisterMachine.Double

/-- The bits of plus infinity: the least pattern above every finite double. -/
def infinityBits : Nat := 0x7FF0000000000000

/-- The bit that a negative number has set. -/
def signBit : Nat := 0x8000000000000000

/-- The first bit of the significand of a normal number, `2 ^ 52`, which its pattern does not hold. -/
def implicitBit : Nat := 0x10000000000000

/-- `num / den` as an integer, a half to the even neighbour. -/
def roundDiv (num den : Nat) : Nat :=
  let q := num / den
  let r := num % den
  if 2 * r < den then q
  else if den < 2 * r then q + 1
  else if q % 2 == 0 then q else q + 1

/-- `num / den * 2 ^ -e` as a quotient of integers. -/
def scale (num den : Nat) (e : Int) : Nat × Nat :=
  if e < 0 then (num <<< e.natAbs, den) else (num, den <<< e.natAbs)

/-- The greatest `k` with `2 ^ k ≤ num / den`, for positive `num` and `den`. -/
def floorLog2 (num den : Nat) : Int :=
  let k : Int := (num.log2 : Int) - (den.log2 : Int)
  let s := scale num den k
  if s.2 ≤ s.1 then k else k - 1

/-- The exponent of the last bit of a double near `num / den`. -/
def lastPlace (num den : Nat) : Int := max (floorLog2 num den - 52) (-1074)

/-- The bits, without sign, of the double nearest to `num / den`; at least `infinityBits` when it is too large. -/
def nearestBits (num den : Nat) : Nat :=
  if num == 0 then 0 else
  let e := lastPlace num den
  let s := scale num den e
  (e + 1074).toNat * implicitBit + roundDiv s.1 s.2

/-- The double with these bits and this sign. -/
def ofMagnitude (negative : Bool) (bits : Nat) : Float :=
  Float.ofBits (bits + if negative then signBit else 0).toUInt64

/-- The double nearest to `num / den`, with a sign; none when it is out of range. -/
def ofRatio? (negative : Bool) (num den : Nat) : Option Float :=
  let bits := nearestBits num den
  if bits < infinityBits then some (ofMagnitude negative bits) else none

/-- Plus or minus infinity. -/
def infinity (negative : Bool) : Float := ofMagnitude negative infinityBits

/-- The double that is no number. -/
def nan : Float := Float.ofBits 0x7FF8000000000001

/-- The sign bit is set. -/
def isNegative (x : Float) : Bool := x.toBits.toNat ≥ signBit

/-- The bits without the sign. -/
def magnitude (x : Float) : Nat := x.toBits.toNat % signBit

/-- The significand `m` of a finite double `m * 2 ^ e`, by its bits without sign. -/
def significand (bits : Nat) : Nat :=
  if bits < 2 * implicitBit then bits else bits % implicitBit + implicitBit

/-- The exponent `e` of a finite double `m * 2 ^ e`, by its bits without sign. -/
def exponent (bits : Nat) : Int := if bits < 2 * implicitBit then -1074 else (bits / implicitBit : Nat) - 1075

end RegisterMachine.Double
