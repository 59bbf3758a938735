import RegisterMachine.Description.Yaml.Text

/-!
# YAML scalars

The ways to write a text in a YAML document.

* `Gap`: blanks and line breaks between the words of a text, and what becomes of them.
* `plain?`, `quoted?`, `block?`: texts without quotes, in quotes, and as a block of lines.
-/

namespace RegisterMachine.Yaml

/-- A text that was read: its characters, whether a line break came after its last one, and the place after it. -/
structure Scanned where
  text : List Char
  crossed : Bool := false
  after : Cursor

/-! ## Gaps between words -/

/-- Blanks, or line breaks with the blanks around them.  The first line break may have been taken away by a
backslash.  Characters are kept last first. -/
inductive Gap where
  | blanks (cs : List Char)
  | breaks (first : Option Char) (further : List Char)

namespace Gap

/-- No gap at all. -/
def none : Gap := .blanks []

/-- There is nothing in the gap. -/
def isNone : Gap → Bool
  | .blanks cs => cs.isEmpty
  | .breaks .. => false

/-- There is a line break in the gap. -/
def isBroken : Gap → Bool
  | .blanks _ => false
  | .breaks .. => true

/-- One more blank or line break.  Blanks beside line breaks do not count. -/
def add (c : Char) : Gap → Gap
  | .blanks cs => if isBreak c then .breaks (some c) [] else .blanks (c :: cs)
  | .breaks first further => if isBreak c then .breaks first (c :: further) else .breaks first further

/-- What a gap leaves in the text, last character first: a single line feed becomes a space, and one before other
line breaks goes away. -/
def folded : Gap → List Char
  | .blanks cs => cs
  | .breaks (some '\n') [] => [' ']
  | .breaks (some '\n') further => further
  | .breaks first further => further ++ first.toList

end Gap

/-! ## Plain texts -/

/-- The indicators that end a plain text inside brackets. -/
def isFlowIndicator (c : Char) : Bool := [0x2C, 0x3F, 0x5B, 0x5D, 0x7B, 0x7D].contains c.toNat

/-- The next character, which is no blank, ends a plain text: a colon before a gap, or inside brackets an
indicator. -/
def endsPlain (flow : Bool) (c : Char) (rest : List Char) : Bool :=
  (c == ':' && atGap rest) || (flow && isFlowIndicator c)

/-- The rest of a plain text.  Outside of brackets its lines start at column `least` or later. -/
def plainFrom? (flow : Bool) (least : Nat) : Nat → List Char → Gap → Cursor → Option Scanned
  | 0, _, _, _ => none
  | fuel + 1, text, gap, c =>
    let ended : Option Scanned := some ⟨text.reverse, gap.isBroken, c⟩
    match c.rest with
    | [] => ended
    | d :: rest =>
      if isBlank d || isBreak d then
        if d == '\t' && gap.isBroken && c.column < least then none
        else plainFrom? flow least fuel text (gap.add d) c.next
      else if !gap.isNone && ((!flow && c.column < least) || c.atMarker || d == '#') then ended
      else if endsPlain flow d rest then ended
      else plainFrom? flow least fuel (d :: (gap.folded ++ text)) .none c.next

/-- A plain text of less than `limit` characters. -/
def plain? (limit : Nat) (flow : Bool) (least : Nat) (c : Cursor) : Option Scanned :=
  plainFrom? flow least limit [] .none c

/-! ## Texts in quotes -/

/-- The quotes of the two kinds, and the character that starts an escape. -/
def doubleQuote : Char := Char.ofNat 0x22

@[inherit_doc doubleQuote]
def singleQuote : Char := Char.ofNat 0x27

@[inherit_doc doubleQuote]
def backslash : Char := Char.ofNat 0x5C

/-- The escapes of one letter and the code points they stand for. -/
def shortEscapes : List (Nat × Nat) := [
  (0x30, 0x00), (0x61, 0x07), (0x62, 0x08), (0x74, 0x09), (0x09, 0x09), (0x6E, 0x0A), (0x76, 0x0B), (0x66, 0x0C),
  (0x72, 0x0D), (0x65, 0x1B), (0x20, 0x20), (0x22, 0x22), (0x27, 0x27), (0x5C, 0x5C), (0x4E, 0x85), (0x5F, 0xA0),
  (0x4C, 0x2028), (0x50, 0x2029)]

/-- How many hexadecimal digits come after the letter of a longer escape. -/
def escapeDigits? (c : Char) : Option Nat :=
  if c == 'x' then some 2 else if c == 'u' then some 4 else if c == 'U' then some 8 else none

/-- The character of an escape after its backslash, and how many characters the escape takes. -/
def escape? : List Char → Option (Char × Nat)
  | [] => none
  | c :: rest =>
    match shortEscapes.lookup c.toNat with
    | some code => some (Char.ofNat code, 1)
    | none => do
      let n ← escapeDigits? c
      if rest.length < n then none
      let code ← hexNumber? (rest.take n)
      if (0xD800 ≤ code && code ≤ 0xDFFF) || 0x10FFFF < code then none
      return (Char.ofNat code, n + 1)

/-- The rest of a text in quotes. -/
def quotedFrom? (quote : Char) : Nat → List Char → Gap → Cursor → Option Scanned
  | 0, _, _, _ => none
  | fuel + 1, text, gap, c =>
    match c.rest with
    | [] => none
    | d :: rest =>
      let text' := gap.folded ++ text
      if isBlank d || isBreak d then quotedFrom? quote fuel text (gap.add d) c.next
      else if c.atMarker then none
      else if d == quote then
        if quote == singleQuote && rest.head? == some quote then
          quotedFrom? quote fuel (d :: text') .none (c.skip 2)
        else some ⟨text'.reverse, false, c.next⟩
      else if quote == doubleQuote && d == backslash then
        if rest.head?.any isBreak then quotedFrom? quote fuel text' (.breaks Option.none []) (c.skip 2)
        else do
          let (e, n) ← escape? rest
          quotedFrom? quote fuel (e :: text') .none (c.skip (n + 1))
      else quotedFrom? quote fuel (d :: text') .none c.next

/-- A text in quotes of less than `limit` characters, from its opening quote on. -/
def quoted? (limit : Nat) (quote : Char) (c : Cursor) : Option Scanned :=
  quotedFrom? quote limit [] .none c.next

/-! ## Blocks of lines -/

/-- What becomes of the line breaks at the end of a block. -/
inductive Chomping where
  | strip | clip | keep

/-- A sign in a block header. -/
def chomping? (c : Char) : Option Chomping :=
  if c == '+' then some .keep else if c == '-' then some .strip else none

/-- A header of a block after its indicator: a sign and a number of columns in either order, both optional.  The
number of columns is not zero; it is given as zero if it is missing.  The last part is how many characters there
are. -/
def blockHeader? (cs : List Char) : Option (Chomping × Nat × Nat) :=
  let columns? (c : Char) : Option Nat := if c == '0' then none else some (c.toNat - 0x30)
  match cs with
  | a :: rest =>
    match chomping? a, rest with
    | some k, b :: _ => if b.isDigit then (columns? b).map fun n => (k, n, 2) else some (k, 0, 1)
    | some k, [] => some (k, 0, 1)
    | none, rest =>
      if !a.isDigit then some (.clip, 0, 0)
      else match rest.head?.bind chomping? with
        | some k => (columns? a).map fun n => (k, n, 2)
        | none => (columns? a).map fun n => (.clip, n, 1)
  | [] => some (.clip, 0, 0)

/-- The indentation before a line and the line breaks of blank lines before it, which are kept last first.  While
the indentation of the block is not known, which zero stands for, all spaces count.  The deepest column
comes too. -/
def blockBreaks? (indent : Nat) : Nat → Nat → List Char → Cursor → Option (Nat × List Char × Cursor)
  | 0, _, _, _ => none
  | fuel + 1, deepest, breaks, c =>
    let indenting := indent == 0 || c.column < indent
    if c.head? == some ' ' && indenting then blockBreaks? indent fuel deepest breaks c.next
    else
      let deepest := max deepest c.column
      if c.head? == some '\t' && indenting then none
      else match c.rest with
        | [] => some (deepest, breaks, c)
        | d :: _ =>
          if isBreak d then blockBreaks? indent fuel deepest (d :: breaks) c.next else some (deepest, breaks, c)

/-- A block while it is read: its text, the break after the last line, the breaks of the blank lines after that,
all last character first, and whether the last line started with a blank. -/
structure Block where
  text : List Char := []
  last : Option Char := none
  further : List Char := []
  deeper : Bool := false

/-- One more line of a block and the break after it. -/
def Block.add (b : Block) (folds : Bool) (line : List Char) (last : Option Char) : Block :=
  let deeper := line.head?.any isBlank
  let joint := if folds && !b.deeper && !deeper && b.last == some '\n' then
      if b.further.isEmpty then [' '] else []
    else b.last.toList
  { text := line.reverse ++ (b.further ++ (joint ++ b.text)), last, deeper }

/-- The lines of a block, up to the first one with less indentation.  Less than `limit` blanks and line breaks come
between two of them. -/
def blockLines? (limit : Nat) (folds : Bool) (indent : Nat) : Nat → Block → Cursor → Option (Block × Cursor)
  | 0, _, _ => none
  | fuel + 1, b, c =>
    if c.column != indent || c.rest.isEmpty then some (b, c)
    else do
      let line := c.rest.takeWhile fun d => !isBreak d
      let stop := c.endOfLine
      let (_, further, c) ← blockBreaks? indent limit 0 [] stop.next
      blockLines? limit folds indent fuel { b.add folds line stop.head? with further } c

/-- The finished text of a block. -/
def Block.finished (b : Block) : Chomping → List Char
  | .strip => b.text.reverse
  | .clip => (b.last.toList ++ b.text).reverse
  | .keep => (b.further ++ (b.last.toList ++ b.text)).reverse

/-- A block of lines of less than `limit` characters, from its indicator on.  Its lines start at column `least` or
later. -/
def block? (limit : Nat) (least : Nat) (c : Cursor) : Option Scanned := do
  let folds := c.head? == some '>'
  let (chomping, columns, n) ← blockHeader? (c.rest.drop 1)
  let c := (c.skip (n + 1)).skipWhile isBlank
  let c := if c.head? == some '#' then c.endOfLine else c
  if !(c.rest.head?.all isBreak) then none
  let given := if columns == 0 then 0 else least - 1 + columns
  let (deepest, further, c) ← blockBreaks? given limit 0 [] c.next
  let indent := if given == 0 then max deepest (max least 1) else given
  let (b, c) ← blockLines? limit folds indent limit { further } c
  return ⟨b.finished chomping, false, c⟩

end RegisterMachine.Yaml
