import RegisterMachine.Value.Instant

/-!
# Reading points in time

Dates and times as machine descriptions write them.  The place where one is read tells its zone from others, if it
has a zone of its own.

* `Instant.ofFull?`: a date, a time or both, every field at its full width.
* `Instant.ofLoose?`: a date with an optional time, fields without leading zeros allowed.
-/

namespace RegisterMachine.Instant

/-- A number of at least `least` and at most `most` digits. -/
def field? (least most : Nat) (s : Bytes) : Option (Nat × Bytes) :=
  let digits := (s.take most).takeWhile isDigit
  if digits.length < least then none
  else some (digits.foldl (fun n c => n * 10 + (c.toNat - 0x30)) 0, s.drop digits.length)

/-- A year, a month and a day. -/
def date? (least : Nat) (s : Bytes) : Option (Instant × Bytes) := do
  let (year, s) ← field? 4 4 s
  let (month, s) ← field? least 2 (← skipByte? (byte '-') s)
  let (day, s) ← field? least 2 (← skipByte? (byte '-') s)
  return ({ year, month, day }, s)

/-- The digits of a fraction as far as they count: billionths, without zeros at the end. -/
def fractionDigits (digits : Bytes) : Bytes := ((digits.take 9).reverse.dropWhile (· == byte '0')).reverse

/-- An hour, a minute and a second with an optional fraction after a point or a comma, added to a date. -/
def time? (least : Nat) (t : Instant) (s : Bytes) : Option (Instant × Bytes) := do
  let (hour, s) ← field? least 2 s
  let (minute, s) ← field? least 2 (← skipByte? (byte ':') s)
  let (second, s) ← field? least 2 (← skipByte? (byte ':') s)
  let t := { t with hour, minute, second }
  match s with
  | c :: rest =>
    let digits := rest.takeWhile isDigit
    if (c == byte '.' || c == byte ',') && !digits.isEmpty then
      return ({ t with fraction := fractionDigits digits }, rest.drop digits.length)
    else return (t, s)
  | [] => return (t, s)

/-- A zone at the end of a text: `Z` or an offset, which may be as long as a day and an hour. -/
def zone? (place : Nat) : Bytes → Option Zone
  | [c] => if c == byte 'Z' then some .utc else none
  | sign :: rest => do
    let negative ← if sign == byte '-' then some true else if sign == byte '+' then some false else none
    let (hours, s) ← field? 2 2 rest
    let (minutes, s) ← field? 2 2 (← skipByte? (byte ':') s)
    let offset : Int := hours * 60 + minutes
    if s.isEmpty && hours ≤ 24 && minutes ≤ 60 then return .ofOffset place (if negative then -offset else offset)
    else none
  | [] => none

/-- The text with the letters of a point in time as capitals, and a space between date and time as the letter. -/
def capitals (s : Bytes) : Bytes :=
  s.map fun c => if c == byte 't' || c == 0x20 then byte 'T' else if c == byte 'z' then byte 'Z' else c

/-- A date, a time, or both with or without a zone, every field at its full width. -/
def ofFull? (place : Nat) (s : Bytes) : Option Instant :=
  match date? 2 (capitals s) with
  | some (d, []) => checked { d with zone := .localDate }
  | some (d, separator :: rest) => do
    if separator != byte 'T' then none
    let (t, rest) ← time? 2 d rest
    let zone ← if rest.isEmpty then some .localDateTime else zone? place rest
    checked { t with zone }
  | none => do
    let (t, rest) ← time? 2 {} s
    if rest.isEmpty then checked { t with zone := .localTime } else none

/-- A date, with a time and a zone after `T`, or with a time alone after spaces.  The year has four digits. -/
def ofLoose? (place : Nat) (s : Bytes) : Option Instant :=
  match date? 1 s with
  | some (d, []) => checked d
  | some (d, separator :: rest) =>
    if lowerByte separator == byte 't' then do
      let (t, rest) ← time? 1 d rest
      checked { t with zone := ← zone? place rest }
    else if separator == byte ' ' then do
      let (t, rest) ← time? 1 d (rest.dropWhile (· == 0x20))
      if rest.isEmpty then checked t else none
    else none
  | none => none

end RegisterMachine.Instant
