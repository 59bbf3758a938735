import RegisterMachine.Text.Bytes

/-!
# Grammars and read errors

The kinds of text that can be asked for, and what can go wrong when a text is not of that kind.

* `Grammar`: the seven kinds of datum and ordered choices between grammars.
* `ReadError`, `ReadError.message`: a cause inside the contexts it arose in.
-/

namespace RegisterMachine

/-- A kind of text.  `anyOf` tries its alternatives in order. -/
inductive Grammar where
  | form | list | quote | string | atom | num | ident
  | anyOf (alternatives : List Grammar)
deriving Inhabited

namespace Grammar

/-- The name of a grammar in error texts. -/
def name : Grammar → Bytes
  | form => "parse.Form"
  | list => "parse.List"
  | quote => "parse.Quote"
  | string => "parse.String"
  | atom => "parse.Atom"
  | num => "parse.Num"
  | ident => "parse.Ident"
  | anyOf _ => "parse.AnyOf"

/-- The alternatives of a form after its blanks. -/
def formAlternatives : List Grammar := [list, quote, string, atom]

/-- Names separated by commas, the last two by "or". -/
def choiceText : List Bytes → Bytes
  | [] => []
  | [a] => a
  | [a, b] => concat [a, " or ", b]
  | a :: rest => concat [a, ", ", choiceText rest]

/-- The alternatives as a phrase. -/
def choice (gs : List Grammar) : Bytes :=
  if gs.isEmpty then utf8 "<none>" else choiceText (gs.map name)

end Grammar

/-- Why a text could not be read. -/
inductive ReadError where
  /-- The text ended where a form was due. -/
  | endOfInput
  /-- A closing parenthesis without an opening one. -/
  | unbalanced
  /-- A byte of an identifier that starts no valid character. -/
  | badRune
  /-- The text does not start as the grammar does. -/
  | wanted (g : Grammar)
  /-- No alternative starts like the text. -/
  | expected (gs : List Grammar)
  /-- The alternative that got furthest. -/
  | within (g : Grammar) (inner : ReadError)
  | item (index : Nat) (inner : ReadError)
  | quoted (inner : ReadError)
  | openedAt (offset : Nat) (inner : ReadError)
  | unterminated (inner : ReadError)

namespace ReadError

/-- The word with which an error text names the grammar that it wanted. -/
def wantedName : Grammar → Bytes
  | .form => "Form"
  | .list => "List"
  | .quote => "Quote"
  | .string => "String"
  | .atom => "Atom"
  | .num => "Num"
  | .ident => "Ident"
  | .anyOf _ => "AnyOf"

/-- The text of a read error. -/
def message : ReadError → Bytes
  | endOfInput => "unexpected end of input"
  | unbalanced => "unbalanced )"
  | badRune => "bad rune"
  | wanted g => wantedName g ++ utf8 " expected"
  | expected gs => utf8 "expected " ++ Grammar.choice gs
  | within g inner => withContext g.name inner.message
  | item index inner => withContext (utf8 "item " ++ decimal index) inner.message
  | quoted inner => withContext "quoted" inner.message
  | openedAt offset inner => withContext (utf8 "list opened at " ++ decimal offset) inner.message
  | unterminated inner => withContext "unterminated string" inner.message

/-- The error without its contexts. -/
def root : ReadError → ReadError
  | within _ inner | item _ inner | quoted inner | openedAt _ inner | unterminated inner => inner.root
  | e => e

end ReadError

end RegisterMachine
