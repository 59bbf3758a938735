import RegisterMachine.Number.Double

/-!
# Number literals

Which texts denote numbers, and which ones.

* `decimalInt? s`: decimal digits with an optional sign, in the range of a 64 bit integer.
* `anyBaseInt? s`: also with a base mark `0x`, `0o`, `0b`, a leading zero for base eight, and `_` between digits.
* `finiteFloat? s`: decimal or, with `0x` and a binary exponent `p`, hexadecimal; a number too large for a double
  is no literal.
* `float? s`: also the names of the infinities and of the number that is none.
-/

namespace RegisterMachine.Literal

/-- The value of a digit in any base up to 36. -/
def digitValue? (c : UInt8) : Option Nat :=
  if isDigit c then some (c.toNat - 0x30)
  else if 0x61 ≤ lowerByte c && lowerByte c ≤ 0x7A then some ((lowerByte c).toNat - 0x61 + 10)
  else none

/-- The sign of a literal and what follows it. -/
def splitSign : Bytes → Bool × Bytes
  | c :: rest =>
    if c == byte '-' then (true, rest)
    else if c == byte '+' then (false, rest)
    else (false, c :: rest)
  | [] => (false, [])

/-- A base mark `0b`, `0o` or `0x` in either case. -/
def baseMark? : Bytes → Option (Nat × Bytes)
  | z :: c :: rest =>
    if z != byte '0' then none
    else if lowerByte c == byte 'b' then some (2, rest)
    else if lowerByte c == byte 'o' then some (8, rest)
    else if lowerByte c == byte 'x' then some (16, rest)
    else none
  | _ => none

/-- What the last character was, for the rule that `_` stands between digits. -/
inductive Last where
  | start | digit | underscore | other

/-- One character further; `none` once an underscore stands in a wrong place. -/
def underscoreStep (hexadecimal : Bool) : Option Last → UInt8 → Option Last
  | none, _ => none
  | some last, c =>
    if isDigit c || (hexadecimal && 0x61 ≤ lowerByte c && lowerByte c ≤ 0x66) then some .digit
    else if c == byte '_' then
      match last with
      | .digit => some .underscore
      | _ => none
    else match last with
      | .underscore => none
      | _ => some .other

/-- Every underscore follows a digit or the base mark and precedes a digit. -/
def underscoresPlaced (s : Bytes) : Bool :=
  let body := (splitSign s).2
  let final := match baseMark? body with
    | some (base, rest) => rest.foldl (underscoreStep (base == 16)) (some .digit)
    | none => body.foldl (underscoreStep false) (some .start)
  match final with
  | none | some .underscore => false
  | _ => true

/-- The natural number that digits denote; `none` at a character that is no digit of the base. -/
def digitsFrom? (base : Nat) : Nat → Bytes → Option Nat
  | acc, [] => some acc
  | acc, c :: rest =>
    match digitValue? c with
    | some d => if d < base then digitsFrom? base (acc * base + d) rest else none
    | none => none

/-- A sign and a magnitude as a 64 bit integer, if it is in range. -/
def signed? (negative : Bool) (magnitude : Nat) : Option Int64 :=
  if negative then if magnitude ≤ 0x8000000000000000 then some (Int64.ofInt (-(magnitude : Int))) else none
  else if magnitude < 0x8000000000000000 then some (Int64.ofInt magnitude) else none

/-- Decimal digits with an optional sign. -/
def decimalInt? (s : Bytes) : Option Int64 :=
  let (negative, digits) := splitSign s
  if digits.isEmpty then none else do signed? negative (← digitsFrom? 10 0 digits)

/-- The base of an unsigned literal and its digits.  A mark counts only before further characters; without one,
a leading zero means base eight. -/
def baseAndDigits (s : Bytes) : Nat × Bytes :=
  match s with
  | c :: rest =>
    if c != byte '0' then (10, s)
    else match baseMark? s with
      | some (base, digits) => if digits.isEmpty then (8, rest) else (base, digits)
      | none => (8, rest)
  | [] => (10, [])

/-- The unsigned literal as a number, its base shown by a mark or a leading zero. -/
def anyBaseNat? (s : Bytes) : Option Nat :=
  if s.isEmpty then none else
  let (base, digits) := baseAndDigits s
  if digits.contains (byte '_') && !underscoresPlaced s then none
  else digitsFrom? base 0 (digits.filter (· != byte '_'))

/-- An integer in any base, with an optional sign. -/
def anyBaseInt? (s : Bytes) : Option Int64 := do
  let (negative, body) := splitSign s
  signed? negative (← anyBaseNat? body)

/-! ## Floating point literals -/

/-- The digits before the exponent, read so far: their value without the point, how many stand after the point,
and whether there was a digit or a point at all. -/
structure Mantissa where
  value : Nat := 0
  places : Nat := 0
  anyDigit : Bool := false
  point : Bool := false

/-- One more digit. -/
def Mantissa.push (m : Mantissa) (base d : Nat) : Mantissa :=
  ⟨m.value * base + d, if m.point then m.places + 1 else m.places, true, m.point⟩

/-- Reads digits, underscores and at most one point. -/
def Mantissa.scan (base : Nat) : Mantissa → Bytes → Mantissa × Bytes
  | m, [] => (m, [])
  | m, c :: rest =>
    if c == byte '_' then m.scan base rest
    else if c == byte '.' then
      if m.point then (m, c :: rest) else scan base { m with point := true } rest
    else match digitValue? c with
      | some d => if d < base then (m.push base d).scan base rest else (m, c :: rest)
      | none => (m, c :: rest)

/-- The digits of an exponent.  Past four digits the number is large enough for every purpose and grows no more
than by one digit. -/
def exponentDigits : Nat → Bytes → Nat × Bytes
  | e, [] => (e, [])
  | e, c :: rest =>
    if c == byte '_' then exponentDigits e rest
    else if isDigit c then exponentDigits (if e < 10000 then e * 10 + (c.toNat - 0x30) else e) rest
    else (e, c :: rest)

/-- The exponent after its mark: an optional sign and at least one digit, with nothing left over. -/
def exponent? (s : Bytes) : Option Int :=
  let (negative, digits) := splitSign s
  match digits with
  | c :: _ =>
    if !isDigit c then none
    else match exponentDigits 0 digits with
      | (e, []) => some (if negative then -(e : Int) else e)
      | _ => none
  | [] => none

/-- `m * base ^ e` as a quotient. -/
def power (m base : Nat) (e : Int) : Nat × Nat :=
  if e < 0 then (m, Nat.pow base e.natAbs) else (m * Nat.pow base e.natAbs, 1)

/-- Whether an unsigned literal is hexadecimal, and its digits.  A mark counts only before further characters. -/
def hexDigits (body : Bytes) : Bool × Bytes :=
  match baseMark? body with
  | some (16, rest) => if rest.isEmpty then (false, body) else (true, rest)
  | _ => (false, body)

/-- The exponent behind a mantissa, which a hexadecimal number must have. -/
def exponentPart? (hexadecimal : Bool) : Bytes → Option Int
  | [] => if hexadecimal then none else some 0
  | c :: rest => if lowerByte c == (if hexadecimal then byte 'p' else byte 'e') then exponent? rest else none

/-- The double nearest to a mantissa with an exponent, binary for a hexadecimal mantissa. -/
def Mantissa.float? (m : Mantissa) (negative hexadecimal : Bool) (e : Int) : Option Float :=
  if m.value == 0 then some (Double.ofMagnitude negative 0)
  else
    let r := if hexadecimal then power m.value 2 (e - 4 * m.places) else power m.value 10 (e - m.places)
    Double.ofRatio? negative r.1 r.2

/-- A decimal number with an optional exponent, or a hexadecimal one with a binary exponent. -/
def finiteFloat? (s : Bytes) : Option Float :=
  let (negative, body) := splitSign s
  let (hexadecimal, digits) := hexDigits body
  let (m, rest) := Mantissa.scan (if hexadecimal then 16 else 10) {} digits
  if !m.anyDigit || (s.contains (byte '_') && !underscoresPlaced s) then none
  else (exponentPart? hexadecimal rest).bind (m.float? negative hexadecimal)

/-- The names of the infinities, with an optional sign, and of the number that is none, without. -/
def namedFloat? (s : Bytes) : Option Float :=
  let (negative, body) := splitSign s
  if lower body == utf8 "inf" || lower body == utf8 "infinity" then some (Double.infinity negative)
  else if lower s == utf8 "nan" then some Double.nan
  else none

/-- A floating point number, finite or named. -/
def float? (s : Bytes) : Option Float := (namedFloat? s).orElse fun _ => finiteFloat? s

end RegisterMachine.Literal
