import RegisterMachine.Number.Literal
import RegisterMachine.Text.Rune
import RegisterMachine.Value.Basic
import RegisterMachine.Description.Instant

/-!
# TOML scalars and keys

What a TOML document is made of below its tables: blanks and comments, strings, keys, numbers and dates.

* `isText`: the bytes that a document may hold.
* `string?`: a string of any kind.
* `key?`: a key with its parts.
* `wordValue?`: a truth value, a number or a date.
-/

namespace RegisterMachine.Toml

/-! ## Blanks, comments and line ends -/

/-- Spaces and tabs. -/
def isBlank (c : UInt8) : Bool := c == 0x20 || c == 0x09

/-- The text after spaces and tabs. -/
def skipBlanks (s : Bytes) : Bytes := s.dropWhile isBlank

/-- The bytes that end a line. -/
def isLineEnd (c : UInt8) : Bool := c == byte '\n' || c == byte '\r'

/-- A byte that may not stand anywhere in a document. -/
def isControl (c : UInt8) : Bool := (c < 0x20 && c != 0x09 && !isLineEnd c) || c == 0x7F

/-- No control characters, and carriage returns only before line feeds. -/
def isText : Bytes → Bool
  | [] => true
  | c :: rest => !isControl c && (c != byte '\r' || rest.head? == some (byte '\n')) && isText rest

/-- The text after a line end, or at the end of the document. -/
def lineEnd? : Bytes → Option Bytes
  | [] => some []
  | c :: rest => if isLineEnd c then some rest else none

/-- The text after a comment, if one comes next; its line end is left. -/
def skipComment (s : Bytes) : Bytes :=
  if s.head? == some (byte '#') then s.dropWhile fun c => !isLineEnd c else s

/-- The text after the rest of a line that holds nothing but blanks and a comment. -/
def restOfLine? (s : Bytes) : Option Bytes := lineEnd? (skipComment (skipBlanks s))

/-- The text after blanks, comments and line ends.  What stands in a comment does not count. -/
def skipLinesFrom (comment : Bool) : Bytes → Bytes
  | [] => []
  | c :: rest =>
    if isLineEnd c then skipLinesFrom false rest
    else if comment || isBlank c then skipLinesFrom comment rest
    else if c == byte '#' then skipLinesFrom true rest
    else c :: rest

@[inherit_doc skipLinesFrom]
def skipLines (s : Bytes) : Bytes := skipLinesFrom false s

/-! ## Strings -/

/-- The bytes of the character whose code is the first `width` hexadecimal digits of a text. -/
def character? (width : Nat) (s : Bytes) : Option Bytes :=
  let digits := s.take width
  if digits.length < width then none else (Literal.digitsFrom? 16 0 digits).bind encodeRune?

/-- What an escape after its backslash stands for, and the text after it. -/
def escape? : Bytes → Option (Bytes × Bytes)
  | [] => none
  | c :: rest =>
    if c == byte 'b' then some ([0x08], rest)
    else if c == byte 't' then some ([0x09], rest)
    else if c == byte 'n' then some ([0x0A], rest)
    else if c == byte 'f' then some ([0x0C], rest)
    else if c == byte 'r' then some ([0x0D], rest)
    else if c == 0x22 || c == 0x5C then some ([c], rest)
    else if c == byte 'u' then (character? 4 rest).map fun bytes => (bytes, rest.drop 4)
    else if c == byte 'U' then (character? 8 rest).map fun bytes => (bytes, rest.drop 8)
    else none

/-- The text after a backslash at the end of a line: line ends and blanks up to the next other byte. -/
def skipFolded (s : Bytes) : Bytes := s.dropWhile fun c => isBlank c || isLineEnd c

/-- Only blanks stand before the end of the line. -/
def endsLine (s : Bytes) : Bool := (skipBlanks s).head?.any isLineEnd

/-- A text with its escapes replaced.  A backslash at the end of a line takes the line end and the blanks after it
away. -/
def unescaped? : Nat → Bytes → Option Bytes
  | 0, _ => none
  | _ + 1, [] => some []
  | fuel + 1, c :: rest =>
    if c != 0x5C then (unescaped? fuel rest).map (c :: ·)
    else if endsLine rest then unescaped? fuel (skipFolded rest)
    else do
      let (bytes, rest) ← escape? rest
      return bytes ++ (← unescaped? fuel rest)

/-- What stands between quotes, with its escapes replaced if the quotes are double ones. -/
def content? (quote : UInt8) (s : Bytes) : Option Bytes :=
  if quote == 0x22 then unescaped? (s.length + 1) s else some s

/-- A string on one line as it is written, up to its closing quote, and the text after it. -/
def lineBody? (quote : UInt8) (before : Bytes) : Bytes → Option (Bytes × Bytes)
  | [] => none
  | c :: rest =>
    if c == quote then some (before.reverse, rest)
    else if isLineEnd c then none
    else if c == 0x5C && quote == 0x22 then
      match rest with
      | [] => none
      | d :: rest => if isLineEnd d then none else lineBody? quote (d :: c :: before) rest
    else lineBody? quote (c :: before) rest

/-- The rest of a string on one line, after its opening quote. -/
def line? (quote : UInt8) (s : Bytes) : Option (Bytes × Bytes) := do
  let (body, rest) ← lineBody? quote [] s
  return (← content? quote body, rest)

/-- Two quotes already stand at the end of a text, which is given last byte first.  A backslash before them makes
the first of them an escape. -/
def endsInTwo (quote : UInt8) (before : Bytes) : Bool :=
  before.take 2 == [quote, quote] && (quote != 0x22 || before[2]? != some 0x5C)

/-- A string on several lines as it is written, up to its three closing quotes, and the text after it.  One or two
quotes before the closing ones belong to the string. -/
def longBody? (quote : UInt8) (before : Bytes) : Bytes → Option (Bytes × Bytes)
  | [] => none
  | c :: rest =>
    if c == 0x5C && quote == 0x22 then
      match rest with
      | [] => none
      | d :: rest => longBody? quote (d :: c :: before) rest
    else if c == quote && rest.take 2 == [quote, quote] then
      if rest[2]? != some quote then some (before.reverse, rest.drop 2)
      else if endsInTwo quote before then none
      else longBody? quote (c :: before) rest
    else longBody? quote (c :: before) rest

/-- The rest of a string on several lines, after its opening quotes; a line feed right after them does
not count. -/
def long? (quote : UInt8) (s : Bytes) : Option (Bytes × Bytes) := do
  let (body, rest) ← longBody? quote [] s
  return (← content? quote (if body.head? == some (byte '\n') then body.drop 1 else body), rest)

/-- A string of either kind, on one or several lines. -/
def string? (s : Bytes) : Option (Bytes × Bytes) :=
  match s with
  | q :: rest =>
    if q != 0x22 && q != 0x27 then none
    else if rest.take 2 == [q, q] then long? q (rest.drop 2)
    else line? q rest
  | [] => none

/-! ## Keys -/

/-- The bytes of a key without quotes. -/
def isBareKey (c : UInt8) : Bool :=
  isDigit c || (0x61 ≤ lowerByte c && lowerByte c ≤ 0x7A) || c == byte '_' || c == byte '-'

/-- One part of a key. -/
def keyPart? (s : Bytes) : Option (Bytes × Bytes) :=
  match s with
  | [] => none
  | q :: rest =>
    if q == 0x22 || q == 0x27 then
      if rest.take 2 == [q, q] then none else line? q rest
    else
      let name := s.takeWhile isBareKey
      if name.isEmpty then none else some (name, s.drop name.length)

/-- A key: parts with points between them. -/
def key? : Nat → Bytes → Option (List Bytes × Bytes)
  | 0, _ => none
  | fuel + 1, s => do
    let (part, rest) ← keyPart? (skipBlanks s)
    match skipBlanks rest with
    | c :: after =>
      if c == byte '.' then
        let (parts, rest) ← key? fuel after
        return (part :: parts, rest)
      else return ([part], c :: after)
    | [] => return ([part], [])

/-! ## Numbers and dates -/

/-- No underscore at an end or beside another, and at least one digit. -/
def separated (digit : UInt8 → Bool) (s : Bytes) : Bool :=
  (splitOn (byte '_') s).all fun piece => !piece.isEmpty && piece.all digit

/-- The literal without underscores. -/
def withoutUnderscores (s : Bytes) : Bytes := s.filter (· != byte '_')

/-- A zero before other digits. -/
def leadingZero (digits : Bytes) : Bool := digits.head? == some (byte '0') && 1 < digits.length

/-- A digit of a base. -/
def isDigitOf (base : Nat) (c : UInt8) : Bool := (Literal.digitValue? c).any (· < base)

/-- An integer: decimal with an optional sign, or with a base mark and none. -/
def integer? (s : Bytes) : Option Int64 :=
  match Literal.baseMark? s with
  | some (base, digits) =>
    if s[1]? == (s[1]?).map lowerByte && separated (isDigitOf base) digits then
      (Literal.digitsFrom? base 0 (withoutUnderscores digits)).bind (Literal.signed? false)
    else none
  | none =>
    let digits := (Literal.splitSign s).2
    if separated isDigit digits && !leadingZero digits then Literal.decimalInt? (withoutUnderscores s) else none

/-- The parts of a decimal number before and after a point or an exponent mark. -/
def floatParts (s : Bytes) : Bytes × Option Bytes × Option Bytes :=
  let isMark (c : UInt8) : Bool := lowerByte c == byte 'e'
  let mantissa := s.takeWhile fun c => !isMark c
  let exponent := match s.drop mantissa.length with
    | _ :: e => some e
    | [] => none
  match cut? (byte '.') mantissa with
  | some (whole, places) => (whole, some places, exponent)
  | none => (mantissa, none, exponent)

/-- A floating point number. -/
def float? (s : Bytes) : Option Float :=
  let (negative, body) := Literal.splitSign s
  if body == utf8 "inf" then some (Double.infinity negative)
  else if body == utf8 "nan" then some Double.nan
  else
    let (whole, places, exponent) := floatParts body
    if places.isNone && exponent.isNone then none
    else if separated isDigit whole && !leadingZero whole && places.all (separated isDigit) &&
        exponent.all (fun e => separated isDigit (Literal.splitSign e).2) then
      Literal.finiteFloat? (withoutUnderscores s)
    else none

/-- The bytes that end a number, a date or a word. -/
def endsWord (c : UInt8) : Bool :=
  isBlank c || isLineEnd c || c == byte ',' || c == 0x5D || c == 0x7D || c == byte '#'

/-- A word and the text after it.  A date goes on after a space that a digit follows. -/
def word (s : Bytes) : Bytes × Bytes :=
  let w := s.takeWhile fun c => !endsWord c
  let rest := s.drop w.length
  match rest with
  | c :: d :: more =>
    if c == 0x20 && isDigit d && w.length == 10 && (Instant.ofFull? 0 w).isSome then
      let time := (d :: more).takeWhile fun c => !endsWord c
      (w ++ c :: time, rest.drop (time.length + 1))
    else (w, rest)
  | _ => (w, rest)

/-- The value of a word that was read at a place. -/
def wordValue? (place : Nat) (w : Bytes) : Option Value :=
  if w == utf8 "true" then some (.bool true)
  else if w == utf8 "false" then some (.bool false)
  else match integer? w with
    | some n => some (.int n)
    | none =>
      match float? w with
      | some x => some (.float x)
      | none => (Instant.ofFull? place w).map .instant

end RegisterMachine.Toml
