import RegisterMachine.Number.Literal
import RegisterMachine.Text.Quoted
import RegisterMachine.Text.Rune
import RegisterMachine.Value.Basic

/-!
# Assignments

Values and names as given in one line of text, separated by commas.

* `scalar`: the value of a word.
* `readAssignments`: `a=206,b=40` as values by name.
* `splitList`: `a, b` as names.
-/

namespace RegisterMachine

/-- The value of a word: an integer, a floating point number, a truth value, or else a symbol. -/
def scalar (s : Bytes) : Value :=
  match Literal.decimalInt? s with
  | some n => .int n
  | none =>
    match Literal.anyBaseInt? s with
    | some n => .int n
    | none =>
      match Literal.float? s with
      | some x => .float x
      | none => nameDatum s

/-- Values by name, with one of them set. -/
def setValue (name : Bytes) (v : Value) : List (Bytes × Value) → List (Bytes × Value)
  | [] => [(name, v)]
  | e :: rest => if e.1 == name then (name, v) :: rest else e :: setValue name v rest

/-- A name and a value with an equals sign between them. -/
def assignment? (s : Bytes) : Option (Bytes × Value) :=
  match cut? (byte '=') s with
  | none => none
  | some (name, v) =>
    let name := trimSpace name
    if name.isEmpty then none else some (name, scalar (trimSpace v))

/-- The values that a text assigns, where a later one of a name wins.  The first piece that is no assignment is an
error. -/
def readAssignments (s : Bytes) : Except Bytes (List (Bytes × Value)) :=
  if (trimSpace s).isEmpty then .ok []
  else (splitOn (byte ',') s).foldlM (fun acc piece =>
    match assignment? piece with
    | some (name, v) => .ok (setValue name v acc)
    | none => .error piece) []

/-- The text of an assignment error. -/
def badAssignmentText (piece : Bytes) : Bytes := concat ["bad assignment: ", quoted piece]

/-- The words between commas that are not blank. -/
def splitList (s : Bytes) : List Bytes :=
  ((splitOn (byte ',') s).map trimSpace).filter fun x => !x.isEmpty

end RegisterMachine
