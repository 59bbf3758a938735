import RegisterMachine.Text.Rune

/-!
# The characters of a YAML document

* `characters?`: the characters of a document in any of its encodings, with one kind of ordinary line break.
* `Cursor`: a place in a document: the characters from there on, and how many of them come before.
* `Cursor.next`, `Cursor.skip`, `Cursor.skipWhile`: places further on.
-/

namespace RegisterMachine.Yaml

/-! ## Encodings -/

/-- The code points that may stand in a document: no control characters but tabs and line breaks. -/
def isAllowed (code : Nat) : Bool :=
  code == 0x09 || code == 0x0A || code == 0x0D || (0x20 ≤ code && code ≤ 0x7E) || code == 0x85 ||
    (0xA0 ≤ code && code ≤ 0xD7FF) || (0xE000 ≤ code && code ≤ 0xFFFD) || (0x10000 ≤ code && code ≤ 0x10FFFF)

/-- The units of two bytes; there must be no single byte left. -/
def units? (bigEndian : Bool) : Bytes → Option (List Nat)
  | [] => some []
  | [_] => none
  | a :: b :: rest => do
    let unit := if bigEndian then a.toNat * 256 + b.toNat else b.toNat * 256 + a.toNat
    return unit :: (← units? bigEndian rest)

/-- The code points of units of two bytes; a high surrogate comes with a low one after it, and only so. -/
def pointsOfUnits? : List Nat → Option (List Nat)
  | [] => some []
  | u :: rest =>
    if u < 0xD800 || 0xDFFF < u then (pointsOfUnits? rest).map (u :: ·)
    else if 0xDC00 ≤ u then none
    else match rest with
      | [] => none
      | v :: rest =>
        if v < 0xDC00 || 0xDFFF < v then none
        else (pointsOfUnits? rest).map ((0x10000 + (u - 0xD800) * 1024 + (v - 0xDC00)) :: ·)

/-- The code points of a text, in the encoding that its byte order mark shows.  The mark does not count. -/
def codePoints? (s : Bytes) : Option (List Nat) :=
  if s.take 2 == [0xFF, 0xFE] then (units? false (s.drop 2)).bind pointsOfUnits?
  else if s.take 2 == [0xFE, 0xFF] then (units? true (s.drop 2)).bind pointsOfUnits?
  else (runes (if s.take 3 == [0xEF, 0xBB, 0xBF] then s.drop 3 else s)).mapM Rune.code

/-- The code points with a line feed for every line break that is not a separator of lines or paragraphs. -/
def withLineFeeds : List Nat → List Nat
  | [] => []
  | 0x0D :: 0x0A :: rest => 0x0A :: withLineFeeds rest
  | c :: rest => (if c == 0x0D || c == 0x85 then 0x0A else c) :: withLineFeeds rest

/-- The characters of a document. -/
def characters? (s : Bytes) : Option (List Char) := do
  let codes ← codePoints? s
  if codes.all isAllowed then return (withLineFeeds codes).map Char.ofNat else none

/-- The bytes of characters. -/
def bytesOf (cs : List Char) : Bytes := utf8 (String.ofList cs)

/-! ## Classes of characters -/

/-- Spaces and tabs. -/
def isBlank (c : Char) : Bool := c == ' ' || c == '\t'

/-- Line feeds, and separators of lines and paragraphs. -/
def isBreak (c : Char) : Bool := c == '\n' || c.toNat == 0x2028 || c.toNat == 0x2029

/-- A blank, a line break or the end of the document comes next. -/
def atGap : List Char → Bool
  | [] => true
  | c :: _ => isBlank c || isBreak c

/-- The characters of a name. -/
def isWordChar (c : Char) : Bool := c.isAlphanum || c == '_' || c == '-'

/-- The value of a hexadecimal digit. -/
def hexValue? (c : Char) : Option Nat :=
  if c.isDigit then some (c.toNat - 0x30)
  else if 'a' ≤ c && c ≤ 'f' then some (c.toNat - 0x57)
  else if 'A' ≤ c && c ≤ 'F' then some (c.toNat - 0x37)
  else none

/-- The number of some hexadecimal digits. -/
def hexNumber? (digits : List Char) : Option Nat :=
  digits.foldlM (fun n c => (hexValue? c).map (n * 16 + ·)) 0

/-- Three equal characters that start a line and mark the start or the end of a document. -/
def isMarker (c : Char) (cs : List Char) : Bool := cs.take 3 == [c, c, c] && atGap (cs.drop 3)

/-! ## Places -/

/-- A place in a document.  Line and column are counted from zero, and `fresh` says that there are only blanks
since the last line break. -/
structure Cursor where
  rest : List Char
  index : Nat := 0
  line : Nat := 0
  column : Nat := 0
  fresh : Bool := false

namespace Cursor

/-- The place after the next character. -/
def next (c : Cursor) : Cursor :=
  match c.rest with
  | [] => c
  | d :: rest =>
    if isBreak d then ⟨rest, c.index + 1, c.line + 1, 0, true⟩
    else ⟨rest, c.index + 1, c.line, c.column + 1, c.fresh && isBlank d⟩

/-- The place some characters further on. -/
def skip : Nat → Cursor → Cursor
  | 0, c => c
  | n + 1, c => skip n c.next

/-- The place after all the next characters of a class. -/
def skipWhile (p : Char → Bool) (c : Cursor) : Cursor := skip (c.rest.takeWhile p).length c

/-- The next character. -/
def head? (c : Cursor) : Option Char := c.rest.head?

/-- The start of a line that marks the start or the end of a document. -/
def atMarker (c : Cursor) : Bool := c.column == 0 && (isMarker '-' c.rest || isMarker '.' c.rest)

/-- The place of the next line break, or the end of the document. -/
def endOfLine (c : Cursor) : Cursor := c.skipWhile fun d => !isBreak d

end Cursor

end RegisterMachine.Yaml
