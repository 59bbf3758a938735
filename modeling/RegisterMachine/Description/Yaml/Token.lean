import RegisterMachine.Description.Yaml.Scalar

/-!
# YAML tokens

* `Token`: the tokens of a document.  Indentation is shown by tokens that open and close collections.
* `Scanner`: the tokens so far and the place where the next one is looked for.
* `Scanner.fetch?`: one more token.
* `Token.ofText`: the tokens of a document as far as they can be told.

A text is known to be a key only when the colon after it is found.  So each token is kept with the tokens that turn
out to stand before it, and until that is settled it is a `Key` that may come true.
-/

namespace RegisterMachine.Yaml

/-- The tokens of a document. -/
inductive Token where
  | version (major minor : Nat)
  | handle (name meaning : Bytes)
  | documentStart
  | documentEnd
  | streamEnd
  | blockSequence
  | blockMapping
  | blockEnd
  | flowSequence
  | flowSequenceEnd
  | flowMapping
  | flowMappingEnd
  | blockEntry
  | flowEntry
  | key
  | value
  | alias (name : Bytes)
  | anchor (name : Bytes)
  | tag (handle suffix : Bytes)
  | scalar (plain : Bool) (text : Bytes)
deriving DecidableEq

/-- A token with the tokens that turned out to stand before it. -/
structure Slot where
  before : List Token := []
  token : Token

/-- What may turn out to be a key: the slot of its first token and its place.  It is required if nothing else can
stand at its column. -/
structure Key where
  slot : Nat
  index : Nat
  line : Nat
  column : Nat
  required : Bool

/-- The tokens so far and the place where the next one is looked for.  `levels` holds the columns of the open block
collections, the innermost first and each counted from one.  There is a key that may come true for each open
bracket and one outside of them. -/
structure Scanner where
  cursor : Cursor
  slots : Array Slot := #[]
  levels : List Nat := []
  /-- A key may start here. -/
  keyAllowed : Bool := true
  key : Option Key := none
  outerKeys : List (Option Key) := []
  /-- The document starts with a second byte order mark. -/
  marked : Bool := false
  /-- More than the number of characters in the document, which bounds the work on one token. -/
  limit : Nat

/-- How deep brackets and block collections can nest. -/
def maxDepth : Nat := 10000

/-- How many characters a key may have before its colon. -/
def maxKey : Nat := 1024

namespace Scanner

/-- Inside of brackets. -/
def flow (s : Scanner) : Bool := !s.outerKeys.isEmpty

/-- The least column that lines of the current block collection start at. -/
def least (s : Scanner) : Nat := s.levels.head?.getD 0

/-- One more token. -/
def emit (s : Scanner) (t : Token) : Scanner := { s with slots := s.slots.push { token := t } }

/-- One more token that takes some characters. -/
def take (s : Scanner) (n : Nat) (t : Token) : Scanner := { s.emit t with cursor := s.cursor.skip n }

/-! ## Blanks and comments -/

/-- The place after a comment and the comments on the lines after it, whatever blanks stand before those. -/
def skipComments : Nat → Cursor → Cursor
  | 0, c => c
  | fuel + 1, c =>
    let c := c.endOfLine
    let gap := c.rest.takeWhile fun d => isBlank d || isBreak d
    if gap.length < 512 && (c.rest.drop gap.length).head? == some '#' then skipComments fuel (c.skip gap.length)
    else c

/-- A second byte order mark shifts the lines of the document by a character, as long as it has some left. -/
def atMark (c : Cursor) : Bool := c.column == 0 && (c.index == 0 || !(c.rest.drop 3).isEmpty)

/-- The next place that holds neither blanks nor a comment, and whether a key may start there.  Tabs are skipped
only inside of brackets and where no key may start. -/
def seekFrom (marked flow : Bool) (limit : Nat) : Nat → Bool → Cursor → Bool × Cursor
  | 0, keyAllowed, c => (keyAllowed, c)
  | fuel + 1, keyAllowed, c =>
    let c := if marked && atMark c then c.next else c
    let c := c.skipWhile fun d => d == ' ' || (d == '\t' && (flow || !keyAllowed))
    let c := if c.head? == some '#' then skipComments limit c else c
    if c.head?.any isBreak then seekFrom marked flow limit fuel (keyAllowed || !flow) c.next else (keyAllowed, c)

/-- The scanner at the next place that holds neither blanks nor a comment. -/
def seek (s : Scanner) : Scanner :=
  let (keyAllowed, cursor) := seekFrom s.marked s.flow s.limit s.limit s.keyAllowed s.cursor
  { s with keyAllowed, cursor }

/-- The scanner after a comment on the line of the last token. -/
def skipComment (s : Scanner) : Scanner :=
  let c := s.cursor.skipWhile isBlank
  if !s.cursor.fresh && c.head? == some '#' then { s with cursor := c.endOfLine } else s

/-! ## Indentation -/

/-- Closes the block collections that start after a column, which is counted from one. -/
def unroll (column : Nat) (s : Scanner) : Scanner :=
  if s.flow then s
  else
    let closed := s.levels.takeWhile (column < ·)
    closed.foldl (fun s _ => s.emit .blockEnd) { s with levels := s.levels.drop closed.length }

/-- Opens a block collection at a column, unless one is open there; says whether it was opened. -/
def roll? (column : Nat) (s : Scanner) : Option (Bool × Scanner) :=
  if s.flow || column < s.least then some (false, s)
  else if maxDepth ≤ s.levels.length then none
  else some (true, { s with levels := (column + 1) :: s.levels })

/-- Opens a block collection at the current column, with a token for it. -/
def rollHere? (t : Token) (s : Scanner) : Option Scanner := do
  let (opened, s) ← s.roll? s.cursor.column
  return if opened then s.emit t else s

/-! ## Keys -/

/-- Nothing is a key any more that has not come true; one that is required must. -/
def forgetKey? (s : Scanner) : Option Scanner :=
  if s.key.any Key.required then none else some { s with key := none }

/-- The next token may start a key. -/
def saveKey? (s : Scanner) : Option Scanner :=
  if !s.keyAllowed then some s
  else do
    let s ← s.forgetKey?
    let c := s.cursor
    let required := !s.flow && s.least == c.column + 1
    return { s with key := some ⟨s.slots.size, c.index, c.line, c.column, required⟩ }

/-- A key is still possible: it is on this line and not too long. -/
def inReach (s : Scanner) (k : Key) : Bool := k.line == s.cursor.line && s.cursor.index ≤ k.index + maxKey

/-- The tokens that a colon puts before its key. -/
def confirmKey? (s : Scanner) (k : Key) : Option Scanner := do
  let (opened, s) ← s.roll? k.column
  let before := if opened then [.blockMapping, .key] else [.key]
  return { s with
    slots := s.slots.modify k.slot fun slot => { slot with before }, key := none, keyAllowed := false }

/-- A colon without a key before it on its line. -/
def bareValue? (s : Scanner) : Option Scanner := do
  let s := { s with key := none }
  if s.flow then return { s with keyAllowed := false }
  else if !s.keyAllowed then none
  else return { (← s.rollHere? .blockMapping) with keyAllowed := true }

/-- A colon that shows where a value starts. -/
def fetchValue? (s : Scanner) : Option Scanner := do
  let s ← match s.key with
    | some k => if s.inReach k then s.confirmKey? k else if k.required then none else s.bareValue?
    | none => s.bareValue?
  return s.take 1 .value

/-! ## Names, tags and directives -/

/-- An anchor or an alias. -/
def fetchName? (make : Bytes → Token) (s : Scanner) : Option Scanner := do
  let s ← s.saveKey?
  let name := (s.cursor.rest.drop 1).takeWhile isWordChar
  let after := s.cursor.rest.drop (name.length + 1)
  let ends :=
    atGap after || after.head?.any fun c => [0x3F, 0x3A, 0x2C, 0x5D, 0x7D, 0x25, 0x40, 0x60].contains c.toNat
  if name.isEmpty || !ends then none
  return { s.take (name.length + 1) (make (bytesOf name)) with keyAllowed := false }

/-- The characters of a tag. -/
def isTagChar (c : Char) : Bool :=
  isWordChar c || [0x3B, 0x2F, 0x3F, 0x3A, 0x40, 0x26, 0x3D, 0x2B, 0x24, 0x2C, 0x2E, 0x21, 0x7E, 0x2A, 0x27, 0x28,
    0x29, 0x5B, 0x5D].contains c.toNat

/-- How many bytes a character has that starts with this byte. -/
def widthOf (b : Nat) : Nat :=
  if b < 0x80 then 1 else if b < 0xC0 then 0 else if b < 0xE0 then 2 else if b < 0xF0 then 3
  else if b < 0xF8 then 4 else 0

/-- Escaped bytes, `left` more of them, or as many as the first one says if `left` is not known. -/
def escapedBytes? : Nat → Option Nat → Cursor → Option (Bytes × Cursor)
  | 0, _, _ => none
  | fuel + 1, left, c =>
    if left == some 0 then some ([], c)
    else match c.rest with
      | '%' :: a :: b :: _ => do
        let octet ← hexNumber? [a, b]
        let left ← match left with
          | some n => if octet / 64 == 2 then some (n - 1) else none
          | none => if widthOf octet == 0 then none else some (widthOf octet - 1)
        let (bytes, c) ← escapedBytes? fuel (some left) (c.skip 3)
        return (octet.toUInt8 :: bytes, c)
      | _ => none

/-- The characters of a tag and the place after them. -/
def tagText? : Nat → Cursor → Option (Bytes × Cursor)
  | 0, _ => none
  | fuel + 1, c =>
    match c.rest with
    | [] => some ([], c)
    | d :: _ =>
      if d == '%' then do
        let (bytes, c) ← escapedBytes? 5 none c
        let (more, c) ← tagText? fuel c
        return (bytes ++ more, c)
      else if isTagChar d then do
        let (more, c) ← tagText? fuel c.next
        return (bytesOf [d] ++ more, c)
      else some ([], c)

/-- The handle of a tag: an exclamation mark, a name, and another exclamation mark if there is one. -/
def tagHandle (c : Cursor) : List Char :=
  let name := (c.rest.drop 1).takeWhile isWordChar
  let close := (c.rest.drop (name.length + 1)).takeWhile (· == '!')
  '!' :: (name ++ close.take 1)

/-- Ends in an exclamation mark that is not its first character. -/
def isClosed (handle : List Char) : Bool := 1 < handle.length && handle.getLast? == some '!'

/-- A tag that is written out, or has a handle, or is only an exclamation mark. -/
def tag? (c : Cursor) : Option (Token × Cursor) :=
  if (c.rest.drop 1).head? == some '<' then do
    let (text, after) ← tagText? (c.rest.length + 1) (c.skip 2)
    if text.isEmpty || after.head? != some '>' then none
    return (.tag [] text, after.next)
  else
    let handle := tagHandle c
    let after := c.skip handle.length
    if isClosed handle then do
      let (text, after) ← tagText? (c.rest.length + 1) after
      if text.isEmpty then none
      return (.tag (bytesOf handle) text, after)
    else do
      let (more, after) ← tagText? (c.rest.length + 1) after
      let text := bytesOf (handle.drop 1) ++ more
      return (if text.isEmpty then .tag [] "!" else .tag "!" text, after)

/-- A tag token. -/
def fetchTag? (s : Scanner) : Option Scanner := do
  let s ← s.saveKey?
  let (t, cursor) ← tag? s.cursor
  if !atGap cursor.rest then none
  return { s.emit t with cursor, keyAllowed := false }

/-- A part of a version number, of one or two digits. -/
def versionNumber? (c : Cursor) : Option (Nat × Cursor) :=
  let digits := c.rest.takeWhile Char.isDigit
  if digits.isEmpty || 2 < digits.length then none
  else some (digits.foldl (fun n d => n * 10 + (d.toNat - 0x30)) 0, c.skip digits.length)

/-- A directive: the version of the language, or what a handle means. -/
def directive? (c : Cursor) : Option (Token × Cursor) := do
  let name := (c.rest.drop 1).takeWhile isWordChar
  let c := c.skip (name.length + 1)
  if name.isEmpty || !atGap c.rest then none
  let c := c.skipWhile isBlank
  if name == "YAML".toList then
    let (major, c) ← versionNumber? c
    if c.head? != some '.' then none
    let (minor, c) ← versionNumber? c.next
    return (.version major minor, c)
  else if name == "TAG".toList then
    if c.head? != some '!' then none
    let handle := tagHandle c
    if handle.length != 1 && !isClosed handle then none
    let c := c.skip handle.length
    if !(c.head?.any isBlank) then none
    let (meaning, c) ← tagText? (c.rest.length + 1) (c.skipWhile isBlank)
    if meaning.isEmpty || !atGap c.rest then none
    return (.handle (bytesOf handle) meaning, c)
  else none

/-- A directive takes its whole line. -/
def fetchDirective? (s : Scanner) : Option Scanner := do
  let s ← (s.unroll 0).forgetKey?
  let (t, c) ← directive? s.cursor
  let c := c.skipWhile isBlank
  let c := if c.head? == some '#' then c.endOfLine else c
  if !(c.head?.all isBreak) then none
  return { s.emit t with cursor := c.next, keyAllowed := false }

/-! ## Other tokens -/

/-- A mark at the start or the end of a document. -/
def fetchMarker? (t : Token) (s : Scanner) : Option Scanner := do
  let s ← (s.unroll 0).forgetKey?
  return { s.take 3 t with keyAllowed := false }

/-- An opening bracket. -/
def fetchOpening? (t : Token) (s : Scanner) : Option Scanner := do
  let s ← s.saveKey?
  if maxDepth ≤ s.outerKeys.length then none
  return { s.take 1 t with outerKeys := s.key :: s.outerKeys, key := none, keyAllowed := true }

/-- A closing bracket. -/
def fetchClosing? (t : Token) (s : Scanner) : Option Scanner := do
  let s ← s.forgetKey?
  return { s.take 1 t with
    outerKeys := s.outerKeys.drop 1, key := s.outerKeys.head?.getD none, keyAllowed := false }

/-- A comma. -/
def fetchEntry? (s : Scanner) : Option Scanner := do
  let s ← s.forgetKey?
  return { s.take 1 .flowEntry with keyAllowed := true }

/-- A hyphen before an item of a block sequence. -/
def fetchItem? (s : Scanner) : Option Scanner := do
  if !s.flow && !s.keyAllowed then none
  let s ← (← s.rollHere? .blockSequence).forgetKey?
  return { s.take 1 .blockEntry with keyAllowed := true }

/-- A question mark before a key. -/
def fetchKey? (s : Scanner) : Option Scanner := do
  if !s.flow && !s.keyAllowed then none
  let s ← (← s.rollHere? .blockMapping).forgetKey?
  return { s.take 1 .key with keyAllowed := !s.flow }

/-- A block of lines. -/
def fetchBlock? (s : Scanner) : Option Scanner := do
  let s ← s.forgetKey?
  let r ← block? s.limit s.least s.cursor
  return { s.emit (.scalar false (bytesOf r.text)) with cursor := r.after, keyAllowed := true }

/-- A text in quotes. -/
def fetchQuoted? (quote : Char) (s : Scanner) : Option Scanner := do
  let s ← s.saveKey?
  let r ← quoted? s.limit quote s.cursor
  return { s.emit (.scalar false (bytesOf r.text)) with cursor := r.after, keyAllowed := false }

/-- A plain text. -/
def fetchPlain? (s : Scanner) : Option Scanner := do
  let s ← s.saveKey?
  let r ← plain? s.limit s.flow s.least s.cursor
  return { s.emit (.scalar true (bytesOf r.text)) with cursor := r.after, keyAllowed := r.crossed }

/-- The characters that start no plain text. -/
def isIndicator (c : Char) : Bool :=
  [0x2D, 0x3F, 0x3A, 0x2C, 0x5B, 0x5D, 0x7B, 0x7D, 0x23, 0x26, 0x2A, 0x21, 0x7C, 0x3E, 0x27, 0x22, 0x25, 0x40,
    0x60].contains c.toNat

/-- A plain text can start with this character, before that text. -/
def startsPlain (flow : Bool) (c : Char) (rest : List Char) : Bool :=
  !(isBlank c || isIndicator c) || (c == '-' && !rest.head?.any isBlank) ||
    (!flow && (c == '?' || c == ':') && !atGap rest)

/-- The token that starts with a character, at the place of that character. -/
def fetchAt? (c : Char) (rest : List Char) (s : Scanner) : Option Scanner :=
  if c.toNat == 0x5B then s.fetchOpening? .flowSequence
  else if c.toNat == 0x7B then s.fetchOpening? .flowMapping
  else if c.toNat == 0x5D then s.fetchClosing? .flowSequenceEnd
  else if c.toNat == 0x7D then s.fetchClosing? .flowMappingEnd
  else if c == ',' then s.fetchEntry?
  else if c == '-' && atGap rest then s.fetchItem?
  else if c == '?' && (s.flow || atGap rest) then s.fetchKey?
  else if c == ':' && (s.flow || atGap rest) then s.fetchValue?
  else if c == '*' then s.fetchName? .alias
  else if c == '&' then s.fetchName? .anchor
  else if c == '!' then s.fetchTag?
  else if (c == '|' || c == '>') && !s.flow then s.fetchBlock?
  else if c == singleQuote || c == doubleQuote then s.fetchQuoted? c
  else if startsPlain s.flow c rest then s.fetchPlain?
  else none

/-- The scanner after one more token, and whether it was the last one. -/
def fetch? (s : Scanner) : Option (Bool × Scanner) :=
  let s := s.seek
  let s := s.unroll (s.cursor.column + 1)
  match s.cursor.rest with
  | [] => do return (true, (← (s.unroll 0).forgetKey?).emit .streamEnd)
  | c :: rest =>
    let first := s.cursor.column == 0
    if first && c == '%' then s.fetchDirective?.map fun s => (false, s)
    else if first && isMarker '-' s.cursor.rest then (s.fetchMarker? .documentStart).map fun s => (false, s)
    else if first && isMarker '.' s.cursor.rest then (s.fetchMarker? .documentEnd).map fun s => (false, s)
    else do
      let s ← s.fetchAt? c rest
      return (false, if s.slots.back?.any (·.token == .blockEntry) then s else s.skipComment)

/-! ## All tokens -/

/-- The tokens in order. -/
def tokens (slots : List Slot) : List Token := slots.flatMap fun s => s.before ++ [s.token]

/-- The first slot that may still turn out to be a key. -/
def openSlot (s : Scanner) : Nat :=
  (s.key :: s.outerKeys).foldl (fun n k =>
    match k with
    | some k => if k.required || s.inReach k then min n k.slot else n
    | none => n) s.slots.size

/-- The tokens that are settled when the document turns out to be wrong further on.  What may be a key is not
settled, nor is what comes after it, nor are the last two tokens. -/
def settled (s : Scanner) : List Token :=
  let all := (tokens s.slots.toList).length
  (tokens (s.slots.toList.take s.openSlot)).take (all - 2)

/-- The tokens of a document, at most `fuel` of them or as many as are settled before an error. -/
def run : Nat → Scanner → List Token
  | 0, s => s.settled
  | fuel + 1, s =>
    match s.fetch? with
    | none => s.settled
    | some (true, s) => tokens s.slots.toList
    | some (false, s) => run fuel s

end Scanner

/-- The tokens of a document.  They end with the end of the stream, or before an error. -/
def Token.ofText (cs : List Char) : List Token :=
  let limit := cs.length + 1
  Scanner.run limit { cursor := { rest := cs }, marked := cs.head?.any (·.toNat == 0xFEFF), limit }

end RegisterMachine.Yaml
