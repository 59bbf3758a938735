import RegisterMachine.Number.Double

/-!
# Shortest decimal digits

`shortest bits` finds, for a positive finite double, the fewest decimal digits that read back as that double, and
of those the nearest to it, a tie to the even last digit.

The reals that read back as a double form an interval around it that reaches half way to each neighbour; its
ends belong to it when the significand is even.  For a growing number of digits the two decimals next to the
double are tried, one below and one above.  Everything is exact: numbers are quotients of naturals.
-/

namespace RegisterMachine.Shortest

/-- A positive finite double and the interval that reads back as it, over a common denominator. -/
structure Target where
  low : Nat
  value : Nat
  high : Nat
  den : Nat
  closed : Bool

/-- The interval of the double with these bits.  The neighbour below is only half as far away when the
significand is the least of its binade. -/
def target (bits : Nat) : Target :=
  let m := Double.significand bits
  let e := Double.exponent bits
  let below := if m == Double.implicitBit && bits ≥ 2 * Double.implicitBit then 1 else 2
  let unit := if e < 2 then 1 else 1 <<< (e - 2).natAbs
  let den := if e < 2 then 1 <<< (2 - e).natAbs else 1
  ⟨(4 * m - below) * unit, 4 * m * unit, (4 * m + 2) * unit, den, m % 2 == 0⟩

/-- `num / den` lies in the interval. -/
def Target.contains (t : Target) (num den : Nat) : Bool :=
  if t.closed then t.low * den ≤ num * t.den && num * t.den ≤ t.high * den
  else t.low * den < num * t.den && num * t.den < t.high * den

/-- The number of decimal digits of `n`, none for zero. -/
def digitCount (n : Nat) : Nat := if n == 0 then 0 else (Nat.toDigits 10 n).length

/-- The greatest `k` with `10 ^ k ≤ value`. -/
def Target.decimalExponent (t : Target) : Int :=
  if t.den ≤ t.value then (digitCount (t.value / t.den) : Int) - 1
  else -(digitCount ((t.den + t.value - 1) / t.value - 1) : Int)

/-- The integer `c` that stands for the decimal `c * 10 ^ p`, as a quotient. -/
def decimalRatio (c : Nat) (p : Int) : Nat × Nat :=
  if p < 0 then (c, Nat.pow 10 p.natAbs) else (c * Nat.pow 10 p.natAbs, 1)

/-- Whether `c * 10 ^ p` reads back. -/
def Target.reads (t : Target) (c : Nat) (p : Int) : Bool :=
  let r := decimalRatio c p
  t.contains r.1 r.2

/-- `value / 10 ^ p`, the value counted in units of the last place `p`. -/
def Target.units (t : Target) (p : Int) : Nat × Nat :=
  if p < 0 then (t.value * Nat.pow 10 p.natAbs, t.den) else (t.value, t.den * Nat.pow 10 p.natAbs)

/-- The decimal with last place `p` that reads back and is nearest, if one does. -/
def Target.atPlace? (t : Target) (p : Int) : Option Nat :=
  let u := t.units p
  let c := u.1 / u.2
  match t.reads c p, t.reads (c + 1) p with
  | true, true => some (Double.roundDiv u.1 u.2)
  | true, false => some c
  | false, true => some (c + 1)
  | false, false => none

/-- The first place at which a decimal reads back, going down from `p` at most `tries` times. -/
def Target.search (t : Target) : Nat → Int → Nat × Int
  | 0, p => (Double.roundDiv (t.units p).1 (t.units p).2, p)
  | tries + 1, p =>
    match t.atPlace? p with
    | some c => (c, p)
    | none => t.search tries (p - 1)

/-- Digits `d₁ d₂ …` and an exponent: the number `d₁.d₂… * 10 ^ exponent`. -/
structure Decimal where
  digits : Bytes
  exponent : Int

/-- A digit string without the zeros at its end. -/
def dropZeros (digits : Bytes) : Bytes := (digits.reverse.dropWhile (· == byte '0')).reverse

/-- The fewest digits that read back as the positive finite double with these bits. -/
def shortest (bits : Nat) : Decimal :=
  let t := target bits
  let found := t.search 17 t.decimalExponent
  let digits := decimal found.1
  ⟨dropZeros digits, found.2 + (digits.length : Int) - 1⟩

end RegisterMachine.Shortest
