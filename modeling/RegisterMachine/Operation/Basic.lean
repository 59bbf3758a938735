import RegisterMachine.Form.Source
import RegisterMachine.Machine.State
import RegisterMachine.Value.Printer

/-!
# Operations

What a machine can call by name.  An operation gets its arguments and the world around it, which is the state of
the machine and the console, and gives back an outcome and the world as it left it.

* `Console`: where `print` writes and `read` reads.
* `Failure`, `Failure.message`: why an operation failed.
* `Operation`, `Table`: operations and tables of them.
* `Operation.pure`: an operation that only looks at its arguments.
-/

namespace RegisterMachine

/-- An error of the surroundings: a device that fails, or an operation of the host that gives up. -/
structure HostError where
  text : Bytes
deriving DecidableEq, Repr

/-! ## The console -/

/-- What becomes of output. -/
inductive Sink where
  | collect
  | discard
  | fail (error : HostError)

/-- Output: its destination and the pieces collected so far, last first. -/
structure Output where
  sink : Sink := .discard
  pieces : List Bytes := []

/-- Input: the text still to come, the error that follows it if not the end of the input, the text of a form that
is not complete, and the values that were read but not asked for yet. -/
structure Input where
  pending : Bytes
  failure : Option HostError := none
  buffer : Bytes := []
  queue : List Value := []

/-- Output, input if there is any, and the number that the next new pair gets. -/
structure Console where
  output : Output := {}
  input : Option Input := none
  nextCell : Nat := 0

/-- Writes a piece of text, unless the destination fails. -/
def Output.write (o : Output) (text : Bytes) : Except HostError Output :=
  match o.sink with
  | .collect => .ok { o with pieces := text :: o.pieces }
  | .discard => .ok o
  | .fail e => .error e

/-- All text collected so far. -/
def Output.text (o : Output) : Bytes := o.pieces.reverse.flatten

/-- All text collected so far, and the output without it. -/
def Console.takeOutput (c : Console) : Bytes × Console :=
  (c.output.text, { c with output := { c.output with pieces := [] } })

/-! ## Outcomes -/

/-- Why an operation failed. -/
inductive Failure where
  | argCount (want got : Nat)
  /-- No argument where at least one is wanted; some operations name themselves. -/
  | noArgs (name : Bytes)
  | notNumber (position : Nat) (kind : Bytes)
  | notInteger (position : Nat) (x : Float)
  | notPair (operation : Bytes) (v : Value)
  | divisionByZero
  | noInput
  | endOfInput
  | badInput (error : SyntaxError)
  | inputFailed (error : HostError)
  | outputFailed (error : HostError)
  | host (error : HostError)

/-- The text of a failure. -/
def Failure.message : Failure → Bytes
  | argCount want got => concat ["want ", decimal want, ", got ", decimal got, ": wrong number of arguments"]
  | noArgs name => withContext name "want at least 1: wrong number of arguments"
  | notNumber i kind => concat ["arg ", decimal i, ": want number, got ", kind, ": wrong argument type"]
  | notInteger i x => concat ["arg ", decimal i, ": want integer, got ", floatText x, ": wrong argument type"]
  | notPair op v => concat [op, ": want pair, got ", v.text, ": wrong argument type"]
  | divisionByZero => "division by zero"
  | noInput => "no input"
  | endOfInput => "read: EOF"
  | badInput e => withContext "read" e.message
  | inputFailed e => withContext "read" e.text
  | outputFailed e => withContext "print" e.text
  | host e => e.text

/-- What an operation that breaks down leaves behind. -/
inductive Panic where
  | value (v : Value)
  | host (error : HostError)
  | runtime (text : Bytes)

/-- The text of a breakdown. -/
def Panic.text : Panic → Bytes
  | value v => v.plain
  | host e => e.text
  | runtime text => text

/-- How a call ends. -/
inductive Outcome where
  | value (v : Value)
  | failure (f : Failure)
  | panic (p : Panic)

/-- An outcome from a result. -/
def Outcome.ofExcept : Except Failure Value → Outcome
  | .ok v => .value v
  | .error f => .failure f

/-! ## Operations and tables -/

/-- What an operation can look at and change. -/
structure World where
  state : State := {}
  console : Console := {}

/-- An operation: arguments and a world to an outcome and a world. -/
abbrev Operation := List Value → World → Outcome × World

/-- An operation that only looks at its arguments. -/
def Operation.pure (f : List Value → Except Failure Value) : Operation :=
  fun args w => (.ofExcept (f args), w)

/-- Operations by name. -/
structure Table where
  entries : List (Bytes × Operation) := []

namespace Table

/-- The operation of that name. -/
def lookup (t : Table) (name : Bytes) : Option Operation := t.entries.lookup name

/-- The table without an operation. -/
def erase (t : Table) (name : Bytes) : Table := ⟨t.entries.filter fun e => e.1 != name⟩

/-- The table with an operation added or replaced. -/
def insert (t : Table) (name : Bytes) (op : Operation) : Table := ⟨(name, op) :: (t.erase name).entries⟩

/-- The names in ascending order. -/
def names (t : Table) : List Bytes := sortBytes (t.entries.map (·.1))

/-- The named operations only, or the whole table for no names.  The first name that is missing is an error. -/
def select (t : Table) (names : List Bytes) : Except Bytes Table :=
  if names.isEmpty then .ok t
  else names.foldlM (fun acc name =>
    match t.lookup name with
    | some op => .ok (acc.insert name op)
    | none => .error name) {}

end Table

end RegisterMachine
