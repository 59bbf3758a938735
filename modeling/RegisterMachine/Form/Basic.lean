import RegisterMachine.Number.FloatText

/-!
# Forms

A form is what one datum of controller text reads as: an identifier, a number, a string or a list of forms.
Every form carries the span of bytes it was read from.

* `Form.tagged? tag items`: the form `x` of a two element list `(tag x)`.
* `Form.text`: the printed form; `(quote x)` prints as `'x`, and a float always shows that it is one.
-/

namespace RegisterMachine

/-- The bytes from `start` up to, not including, `stop`. -/
structure Span where
  start : Nat
  stop : Nat
deriving DecidableEq, Repr

/-- One datum of controller text.  `missing` is a hole in a tree built by hand; no text reads as it. -/
inductive Form where
  | ident (span : Span) (name : Bytes)
  | int (span : Span) (value : Int64)
  | float (span : Span) (value : Float)
  | string (span : Span) (value : Bytes)
  | list (span : Span) (items : List Form)
  | missing
deriving Inhabited

namespace Form

/-- Where the form was read from. -/
def span : Form → Span
  | ident s _ | int s _ | float s _ | string s _ | list s _ => s
  | missing => ⟨0, 0⟩

/-- The name of a form's kind in error texts. -/
def kindName : Form → Bytes
  | ident .. => "ast.Ident"
  | int .. => "ast.Int"
  | float .. => "ast.Float"
  | string .. => "ast.String"
  | list .. => "ast.List"
  | missing => "<nil>"

/-- The name of an identifier. -/
def name? : Form → Option Bytes
  | ident _ name => some name
  | _ => none

/-- The items of a list. -/
def items? : Form → Option (List Form)
  | list _ items => some items
  | _ => none

/-- The name that a list starts with. -/
def head? : List Form → Option Bytes
  | ident _ name :: _ => some name
  | _ => none

/-- The second element of a two element list that starts with the identifier `tag`. -/
def tagged? (tag : Bytes) : List Form → Option Form
  | [ident _ name, x] => if name == tag then some x else none
  | _ => none

/-- The word that a quote mark abbreviates. -/
def quoteWord : Bytes := utf8 "quote"

/-! ## Printing -/

/-- A string between double quotes; only quotes and backslashes are escaped. -/
def stringText (s : Bytes) : Bytes :=
  0x22 :: s.flatMap (fun c => if c == 0x22 || c == 0x5C then [0x5C, c] else [c]) ++ [0x22]

/-- Digits only, apart from a minus at the start. -/
def looksInteger : Bytes → Bool
  | [] => true
  | c :: rest => (c == byte '-' || isDigit c) && rest.all isDigit

/-- A float with `.0` where its digits alone would read as an integer. -/
def floatForm (x : Float) : Bytes :=
  let t := floatText x
  if looksInteger t then t ++ utf8 ".0" else t

/-- A list of items with these texts: `'x` for `(quote x)`, else the texts in parentheses. -/
def enclose (items : List Form) (texts : List Bytes) : Bytes :=
  match tagged? quoteWord items, texts with
  | some _, [_, t] => 0x27 :: t
  | _, _ => 0x28 :: join [0x20] texts ++ [0x29]

mutual

/-- The printed form. -/
def text : Form → Bytes
  | ident _ name => name
  | int _ n => decimalInt n.toInt
  | float _ x => floatForm x
  | string _ s => stringText s
  | list _ items => enclose items (texts items)
  | missing => utf8 "#<<nil>>"

/-- The printed forms of a list's items. -/
def texts : List Form → List Bytes
  | [] => []
  | x :: rest => x.text :: texts rest

end

end Form

end RegisterMachine
