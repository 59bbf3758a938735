import RegisterMachine.Operation.Basic

/-!
# Lists and identity

`cons`, `car`, `cdr`, `list` and the predicates.  Both representations of lists are taken apart alike; new lists
are chains of pairs.
-/

namespace RegisterMachine.Lists

/-- The only argument. -/
def one : List Value → Except Failure Value
  | [v] => .ok v
  | args => .error (.argCount 1 args.length)

/-- Exactly two arguments. -/
def two : List Value → Except Failure (Value × Value)
  | [a, b] => .ok (a, b)
  | args => .error (.argCount 2 args.length)

/-- The first element. -/
def car (args : List Value) : Except Failure Value := do
  match ← one args with
  | .pair _ a _ => return a
  | .list (a :: _) => return a
  | v => .error (.notPair "car" v)

/-- All but the first element. -/
def cdr (args : List Value) : Except Failure Value := do
  match ← one args with
  | .pair _ _ d => return d
  | .list (_ :: rest) => return .list rest
  | v => .error (.notPair "cdr" v)

/-- The opposite truth value. -/
def not (args : List Value) : Except Failure Value := do return .bool !(← one args).truthy

/-- Whether two values are the same. -/
def eq (args : List Value) : Except Failure Value := do
  let (a, b) ← two args
  return .bool (a.same b)

/-- Whether a value is the empty list. -/
def null (args : List Value) : Except Failure Value := do return .bool (← one args).isNull

/-- Whether a value is a list with a first element. -/
def pair (args : List Value) : Except Failure Value := do return .bool (← one args).isPair

/-- A new pair. -/
def cons : Operation := fun args w =>
  match two args with
  | .error f => (.failure f, w)
  | .ok (a, d) =>
    (.value (.pair w.console.nextCell a d),
      { w with console := { w.console with nextCell := w.console.nextCell + 1 } })

/-- A new list of all arguments. -/
def list : Operation := fun args w =>
  (.value (.chain w.console.nextCell args .nil),
    { w with console := { w.console with nextCell := w.console.nextCell + args.length } })

end RegisterMachine.Lists
