import RegisterMachine.Text.Bytes

/-!
# Points in time

Dates and times that registers can hold, and their printed form.

* `Zone`: where a point in time is local.
* `Instant`: the fields of a date and a time of day in a zone.
* `Instant.text`: date, time, offset and name of the zone.
-/

namespace RegisterMachine

/-- The zone of a point in time.  What is given without a zone is local, to the degree that it is given.  An offset
of no time at all means the zone of the system, which prints as `utc` does and is not the same.  Whole hours up to
those that are in use share one zone for each offset; every other offset makes a zone of its own wherever it is
read, which `place` tells from others. -/
inductive Zone where
  | utc
  | system
  | hours (offset : Int)
  | own (place : Nat) (minutes : Int)
  | localDateTime
  | localDate
  | localTime
deriving DecidableEq

/-- The zone of an offset in minutes that was read at a place. -/
def Zone.ofOffset (place : Nat) (minutes : Int) : Zone :=
  if minutes == 0 then .system
  else if minutes % 60 == 0 && -12 * 60 ≤ minutes && minutes ≤ 14 * 60 then .hours (minutes / 60)
  else .own place minutes

/-- A point in time; the fraction of the second is kept as its digits up to the last that is not zero. -/
structure Instant where
  year : Nat := 0
  month : Nat := 1
  day : Nat := 1
  hour : Nat := 0
  minute : Nat := 0
  second : Nat := 0
  fraction : Bytes := []
  zone : Zone := .utc
deriving DecidableEq

namespace Instant

/-- The decimal digits of `n`, filled up with zeros to a width. -/
def padded (width n : Nat) : Bytes :=
  let d := decimal n
  List.replicate (width - d.length) (byte '0') ++ d

/-- An offset in minutes with its sign, hours and minutes at two digits each. -/
def offsetText (minutes : Int) : Bytes :=
  concat [if minutes < 0 then "-" else "+", padded 2 (minutes.natAbs / 60), padded 2 (minutes.natAbs % 60)]

/-- The offset and the name of a zone; a zone without a name has its offset for one. -/
def zoneText : Zone → Bytes
  | .utc | .system => "+0000 UTC"
  | .hours offset => concat [offsetText (offset * 60), " ", offsetText (offset * 60)]
  | .own _ minutes => concat [offsetText minutes, " ", offsetText minutes]
  | .localDateTime => "+0000 datetime-local"
  | .localDate => "+0000 date-local"
  | .localTime => "+0000 time-local"

/-- The printed form. -/
def text (t : Instant) : Bytes :=
  concat [padded 4 t.year, "-", padded 2 t.month, "-", padded 2 t.day, " ", padded 2 t.hour, ":",
    padded 2 t.minute,
    ":", padded 2 t.second, if t.fraction.isEmpty then [] else byte '.' :: t.fraction, " ", zoneText t.zone]

/-- The days of a month. -/
def daysIn (year month : Nat) : Nat :=
  if month == 2 then if year % 4 == 0 && (year % 100 != 0 || year % 400 == 0) then 29 else 28
  else if month == 4 || month == 6 || month == 9 || month == 11 then 30 else 31

/-- Every field is in its range. -/
def isValid (t : Instant) : Bool :=
  1 ≤ t.month && t.month ≤ 12 && 1 ≤ t.day && t.day ≤ daysIn t.year t.month && t.hour < 24 && t.minute < 60 &&
    t.second < 60

/-- The point in time, if its fields are in range. -/
def checked (t : Instant) : Option Instant := if t.isValid then some t else none

end Instant

end RegisterMachine
