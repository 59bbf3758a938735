import RegisterMachine.Number.Shortest

/-!
# Text of floating point numbers

`floatText x`: the shortest digits that read back, positional for exponents from -4 to 5 and with an exponent of
at least two digits and a sign otherwise (`0.0001`, `100000`, `1e+06`).
-/

namespace RegisterMachine

open Shortest (Decimal)

/-- Positional notation is used from `10 ^ leastPositional` … -/
def leastPositional : Int := -4

/-- … to just below `10 ^ positionalLimit`. -/
def positionalLimit : Int := 6

/-- An exponent mark with a sign and at least two digits. -/
def exponentText (e : Int) : Bytes :=
  let digits := decimal e.natAbs
  concat ["e", if e < 0 then "-" else "+", if digits.length < 2 then "0" else "", digits]

/-- One digit, a point if more follow, and an exponent. -/
def scientific (d : Decimal) : Bytes :=
  match d.digits with
  | [] => utf8 "0"
  | [c] => c :: exponentText d.exponent
  | c :: rest => c :: byte '.' :: rest ++ exponentText d.exponent

/-- Digits with a point where it belongs and no exponent. -/
def positional (d : Decimal) : Bytes :=
  if d.exponent < 0 then
    concat ["0.", List.replicate (d.exponent.natAbs - 1) (byte '0'), d.digits]
  else
    let whole := d.exponent.toNat + 1
    if d.digits.length ≤ whole then d.digits ++ List.replicate (whole - d.digits.length) (byte '0')
    else d.digits.take whole ++ byte '.' :: d.digits.drop whole

/-- The text of a positive finite number. -/
def Shortest.Decimal.text (d : Decimal) : Bytes :=
  if leastPositional ≤ d.exponent ∧ d.exponent < positionalLimit then positional d else scientific d

/-- The text of a floating point number. -/
def floatText (x : Float) : Bytes :=
  let bits := Double.magnitude x
  let sign := if Double.isNegative x then utf8 "-" else []
  if Double.infinityBits < bits then utf8 "NaN"
  else if bits == Double.infinityBits then if Double.isNegative x then utf8 "-Inf" else utf8 "+Inf"
  else if bits == 0 then sign ++ utf8 "0"
  else sign ++ (Shortest.shortest bits).text

end RegisterMachine
