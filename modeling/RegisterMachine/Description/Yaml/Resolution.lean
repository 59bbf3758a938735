import RegisterMachine.Number.Literal
import RegisterMachine.Value.Basic
import RegisterMachine.Description.Instant
import RegisterMachine.Description.Yaml.Node

/-!
# The values of YAML scalars

* `Kind`: what a scalar can be, and the tags that say so.
* `plainValue`: what a plain text stands for: null, truth values, numbers, points in time and strings.
* `scalarValue?`: what a scalar stands for, by its tag or by its text.
-/

namespace RegisterMachine.Yaml

/-! ## Plain texts -/

/-- The words that stand for a value of their own. -/
def words : List (String × Value) := [
  ("true", .bool true), ("True", .bool true), ("TRUE", .bool true),
  ("false", .bool false), ("False", .bool false), ("FALSE", .bool false),
  ("", .nil), ("~", .nil), ("null", .nil), ("Null", .nil), ("NULL", .nil),
  (".nan", .float Double.nan), (".NaN", .float Double.nan), (".NAN", .float Double.nan),
  (".inf", .float (Double.infinity false)), (".Inf", .float (Double.infinity false)),
  (".INF", .float (Double.infinity false)), ("+.inf", .float (Double.infinity false)),
  ("+.Inf", .float (Double.infinity false)), ("+.INF", .float (Double.infinity false)),
  ("-.inf", .float (Double.infinity true)), ("-.Inf", .float (Double.infinity true)),
  ("-.INF", .float (Double.infinity true))]

/-- A point in time starts with a year of four digits and a hyphen. -/
def instant? (place : Nat) (s : Bytes) : Option Instant :=
  if (s.takeWhile isDigit).length == 4 && s[4]? == some (byte '-') then Instant.ofLoose? place s else none

/-- A decimal number: digits with an optional point and exponent. -/
def isDecimal (s : Bytes) : Bool :=
  let body := (Literal.splitSign s).2
  let mantissa := body.takeWhile fun c => lowerByte c != byte 'e'
  let exponent := match body.drop mantissa.length with
    | [] => true
    | _ :: e =>
      let digits := (Literal.splitSign e).2
      !digits.isEmpty && digits.all isDigit
  let whole := mantissa.takeWhile isDigit
  let fraction := match mantissa.drop whole.length with
    | [] => !whole.isEmpty
    | c :: places => c == byte '.' && places.all isDigit && !(whole.isEmpty && places.isEmpty)
  fraction && exponent

/-- A natural number as wide as it needs to be. -/
def natural? (n : Nat) : Option Value := if n < UInt64.size then some (.natural n.toUInt64) else none

/-- An integer in any base that its mark shows. -/
def integer? (s : Bytes) : Option Value :=
  match Literal.anyBaseInt? s with
  | some n => some (.raw n)
  | none => (Literal.anyBaseNat? s).bind natural?

/-- Digits of a base with an optional sign. -/
def signedDigits? (base : Nat) (s : Bytes) : Option Value :=
  let (negative, digits) := Literal.splitSign s
  if digits.isEmpty then none
  else match Literal.digitsFrom? base 0 digits with
    | none => none
    | some n =>
      match Literal.signed? negative n with
      | some v => some (.raw v)
      | none => if digits.length == s.length then natural? n else none

/-- An integer of base two or eight with a sign after its mark, or before it. -/
def markedInteger? (s : Bytes) : Option Value :=
  let (negative, body) := if s.head? == some (byte '-') then (true, s.drop 1) else (false, s)
  let digits := if negative then byte '-' :: body.drop 2 else body.drop 2
  if body.take 2 == utf8 "0b" then signedDigits? 2 digits
  else if body.take 2 == utf8 "0o" then signedDigits? 8 digits
  else none

/-- A number, for a text that starts with a digit or a sign. -/
def number? (s : Bytes) : Option Value :=
  let s := s.filter (· != byte '_')
  match integer? s with
  | some v => some v
  | none =>
    match if isDecimal s then Literal.finiteFloat? s else none with
    | some x => some (.float x)
    | none => markedInteger? s

/-- What a plain text that was read at a place stands for.  It can be a point in time where `times` says so. -/
def plainValue (place : Nat) (times : Bool) (s : Bytes) : Value :=
  match words.find? fun w => utf8 w.1 == s with
  | some w => w.2
  | none =>
    let found := match s with
      | c :: _ =>
        if isDigit c || c == byte '+' || c == byte '-' then
          match if times then instant? place s else none with
          | some t => some (Value.instant t)
          | none => number? s
        else if c == byte '.' then (Literal.finiteFloat? s).map .float
        else none
      | [] => none
    found.getD (.string s)

/-! ## Tags -/

/-- What a scalar can be. -/
inductive Kind where
  | string | integer | float | truth | null | instant
  /-- Bytes as a text of letters, digits and two signs. -/
  | binary
  /-- The entries of another map. -/
  | merge
  | other
deriving DecidableEq

/-- The kind that a tag in full or in short says. -/
def Kind.ofTag (tag : Bytes) : Kind :=
  let long := utf8 "tag:yaml.org,2002:"
  let short := if tag.take long.length == long then utf8 "!!" ++ tag.drop long.length else tag
  (([("!!str", .string), ("!!int", .integer), ("!!float", .float), ("!!bool", .truth), ("!!null", .null),
    ("!!timestamp", .instant), ("!!binary", .binary), ("!!merge", .merge)] : List (String × Kind)).find?
      fun t => utf8 t.1 == short).elim .other (·.2)

/-- The kind of what a plain text stands for. -/
def Kind.ofValue : Value → Kind
  | .nil => .null
  | .bool _ => .truth
  | .raw _ | .natural _ => .integer
  | .float _ => .float
  | .instant _ => .instant
  | _ => .string

/-- The text that stands for the entries of another map. -/
def mergeWord : Bytes := "<<"

/-- The kind of a scalar, by its tag or by its text. -/
def scalarKind (tag : Option Bytes) (plain : Bool) (text : Bytes) : Kind :=
  match tag with
  | some t => .ofTag t
  | none => if !plain then .string else if text == mergeWord then .merge else .ofValue (plainValue 0 true text)

/-! ## Bytes as text -/

/-- The six bits of a character that stands for bytes. -/
def sixBits? (c : UInt8) : Option Nat :=
  if 0x41 ≤ c && c ≤ 0x5A then some (c.toNat - 0x41)
  else if 0x61 ≤ c && c ≤ 0x7A then some (c.toNat - 0x61 + 26)
  else if isDigit c then some (c.toNat - 0x30 + 52)
  else if c == byte '+' then some 62
  else if c == byte '/' then some 63
  else none

/-- The bytes of groups of four characters, of which the last may be filled up with equals signs. -/
def bytesOfGroups? : Bytes → Option Bytes
  | [] => some []
  | a :: b :: c :: d :: rest => do
    let x ← sixBits? a
    let y ← sixBits? b
    let first := (x * 4 + y / 16).toUInt8
    if c == byte '=' then
      if d == byte '=' && rest.isEmpty then return [first] else none
    let z ← sixBits? c
    let second := (y % 16 * 16 + z / 4).toUInt8
    if d == byte '=' then
      if rest.isEmpty then return [first, second] else none
    let w ← sixBits? d
    return first :: second :: (z % 4 * 64 + w).toUInt8 :: (← bytesOfGroups? rest)
  | _ => none

/-- The bytes that a text stands for; line breaks in it do not count. -/
def binary? (s : Bytes) : Option Bytes := bytesOfGroups? (s.filter fun c => c != 0x0A && c != 0x0D)

/-! ## Scalars -/

/-- What a text stands for that a tag says to be of a kind.  Integers count as floating point numbers. -/
def valueOfKind? (place : Nat) (kind : Kind) (text : Bytes) : Option Value :=
  let v := plainValue place (kind == .instant) text
  if Kind.ofValue v == kind then some v
  else match v with
    | .raw n => if kind == .float then some (.float (Float.ofInt n.toInt)) else none
    | _ => none

/-- What a scalar that was read at a place stands for. -/
def scalarValue? (place : Nat) (tag : Option Bytes) (plain : Bool) (text : Bytes) : Option Value :=
  match tag with
  | none => some (if plain && text != mergeWord then plainValue place true text else .string text)
  | some t =>
    match Kind.ofTag t with
    | .string | .merge | .other => some (.string text)
    | .binary => (binary? text).map .string
    | kind => valueOfKind? place kind text

end RegisterMachine.Yaml
