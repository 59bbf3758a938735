import RegisterMachine.Value.View
import RegisterMachine.Value.Instant
import RegisterMachine.Form.Basic

/-!
# Values

What registers and the stack hold.  A list has two representations: a constant of a controller is a `list`, and
operations build chains of pairs that end in `nil`.

* `Value.truthy`: what counts as true for a branch.
* `Value.isNull`, `Value.isPair`: the list predicates, for both representations.
* `Value.same`: `eq?`, identity for pairs and equality for everything else that can be compared.
* `Value.kindName`: the name of a value's kind in error texts.
* `Form.datum`: the value that a form denotes.
-/

namespace RegisterMachine

/-- A machine value.

`raw` and `natural` are integers as a decoder of machine descriptions leaves them; `raw` counts as a number but is
never the same as an `int`.  A pair carries the serial number it got when it was made, which is its identity.
`emptyPair` is the reference to a pair that is not there, and is not the empty list.  `tables` and `mapping` come
only from machine descriptions too: several tables under one key, and entries whose keys need not be texts.
Neither is a list. -/
inductive Value where
  | nil
  | bool (b : Bool)
  | int (n : Int64)
  | raw (n : Int64)
  | natural (n : UInt64)
  | float (x : Float)
  | string (s : Bytes)
  | symbol (s : Bytes)
  | list (items : List Value)
  | pair (cell : Nat) (car cdr : Value)
  | emptyPair
  | table (entries : List (Bytes × Value))
  | tables (items : List (List (Bytes × Value)))
  | mapping (entries : List (Value × Value))
  | view (v : View)
  | instant (t : Instant)
deriving Inhabited

namespace Value

/-- Only `nil` and `false` are false. -/
def truthy : Value → Bool
  | nil => false
  | bool b => b
  | _ => true

/-- The empty list, in either representation. -/
def isNull : Value → Bool
  | nil => true
  | list items => items.isEmpty
  | _ => false

/-- A list with a first element, in either representation. -/
def isPair : Value → Bool
  | pair .. => true
  | list items => !items.isEmpty
  | _ => false

/-- Equality of values of one kind; pairs are equal when they are the same pair.  Lists and tables cannot be
compared and equal nothing. -/
def equal : Value → Value → Bool
  | nil, nil => true
  | bool a, bool b => a == b
  | int a, int b => a == b
  | raw a, raw b => a == b
  | natural a, natural b => a == b
  | float a, float b => a == b
  | string a, string b => a == b
  | symbol a, symbol b => a == b
  | pair i _ _, pair j _ _ => i == j
  | emptyPair, emptyPair => true
  | view a, view b => a.same b
  | instant a, instant b => a == b
  | _, _ => false

/-- `eq?`: all empty lists are the same. -/
def same (a b : Value) : Bool := (a.isNull && b.isNull) || a.equal b

/-- The name of a value's kind in error texts. -/
def kindName : Value → Bytes
  | nil => "<nil>"
  | bool _ => "bool"
  | int _ => "int64"
  | raw _ => "int"
  | natural _ => "uint64"
  | float _ => "float64"
  | string _ => "string"
  | symbol _ => "ast.Symbol"
  | list _ => "[]interface \x7b\x7d"
  | pair .. | emptyPair => "*ops.Pair"
  | table _ => "map[string]interface \x7b\x7d"
  | tables _ => "[]map[string]interface \x7b\x7d"
  | mapping _ => "map[interface \x7b\x7d]interface \x7b\x7d"
  | view _ => "machine.Seq"
  | instant _ => "time.Time"

/-- A chain of pairs with these elements and this end.  The pairs are numbered from `cell` on, the last one
first. -/
def chain (cell : Nat) (items : List Value) (last : Value) : Value :=
  items.foldr (fun x (acc : Nat × Value) => (acc.1 + 1, pair acc.1 x acc.2)) (cell, last) |>.2

end Value

/-! ## Constants -/

/-- The truth value that a name spells, in any case. -/
def truthName? (name : Bytes) : Option Bool :=
  let n := lower name
  if n == utf8 "#t" || n == utf8 "true" then some true
  else if n == utf8 "#f" || n == utf8 "false" then some false
  else none

/-- The value of an identifier: a truth value or a symbol. -/
def nameDatum (name : Bytes) : Value :=
  match truthName? name with
  | some b => .bool b
  | none => .symbol name

/-- The value of a list with these items and data: `(quote x)` denotes what `x` denotes. -/
def listDatum (items : List Form) (data : List Value) : Value :=
  match Form.tagged? Form.quoteWord items, data with
  | some _, [_, v] => v
  | _, data => .list data

mutual

/-- The value that a form denotes. -/
def Form.datum : Form → Value
  | .int _ n => .int n
  | .float _ x => .float x
  | .string _ s => .string s
  | .ident _ name => nameDatum name
  | .list _ items => listDatum items (Form.data items)
  | .missing => .nil

/-- The values of the items of a list. -/
def Form.data : List Form → List Value
  | [] => []
  | x :: rest => x.datum :: Form.data rest

end

end RegisterMachine
