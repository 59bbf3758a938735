import RegisterMachine.Operation.Basic

/-!
# Arithmetic

Numbers are 64 bit integers, which wrap around, and floats; an operation with both works on floats.

* `add`, `sub`, `mul`, `div`: any number of arguments.
* `quotient`, `remainder`: integers only, toward zero.
* `Comparison`, `compareAll`: chained comparison of neighbours.
-/

namespace RegisterMachine

/-- A number operand. -/
inductive Number where
  | int (n : Int64)
  | float (x : Float)

namespace Number

/-- The number as a value. -/
def value : Number → Value
  | int n => .int n
  | float x => .float x

/-- The number as a float, rounded to the nearest one. -/
def toFloat : Number → Float
  | int n => Float.ofInt n.toInt
  | float x => x

/-- The number as an operand; the position is for the error. -/
def ofValue (position : Nat) : Value → Except Failure Number
  | .int n | .raw n => .ok (int n)
  | .float x => .ok (float x)
  | v => .error (.notNumber position v.kindName)

/-- All arguments as numbers; the first that is none is the error. -/
def ofValues (position : Nat) : List Value → Except Failure (List Number)
  | [] => .ok []
  | v :: rest => do
    let n ← ofValue position v
    let ns ← ofValues (position + 1) rest
    return n :: ns

/-- A binary operation, on integers if both operands are. -/
def combine (onInts : Int64 → Int64 → Int64) (onFloats : Float → Float → Float) : Number → Number → Number
  | int a, int b => int (onInts a b)
  | a, b => float (onFloats a.toFloat b.toFloat)

/-- Sum. -/
def add : Number → Number → Number := combine (· + ·) (· + ·)

/-- Difference. -/
def sub : Number → Number → Number := combine (· - ·) (· - ·)

/-- Product. -/
def mul : Number → Number → Number := combine (· * ·) (· * ·)

/-- Zero of either kind, of either sign. -/
def isZero : Number → Bool
  | int n => n == 0
  | float x => x == 0

/-- The quotient, an integer when both operands are and the division is exact. -/
def div (a b : Number) : Except Failure Number :=
  if b.isZero then .error .divisionByZero
  else match a, b with
    | int m, int n => .ok (if m % n == 0 then int (m / n) else float (a.toFloat / b.toFloat))
    | _, _ => .ok (float (a.toFloat / b.toFloat))

/-- The order of two numbers; what cannot be ordered counts as equal. -/
def order : Number → Number → Ordering
  | int a, int b => if a < b then .lt else if b < a then .gt else .eq
  | a, b => if a.toFloat < b.toFloat then .lt else if b.toFloat < a.toFloat then .gt else .eq

end Number

namespace Arithmetic

/-- The sum of all arguments. -/
def add (args : List Value) : Except Failure Value := do
  return ((← Number.ofValues 0 args).foldl Number.add (.int 0)).value

/-- The product of all arguments. -/
def mul (args : List Value) : Except Failure Value := do
  return ((← Number.ofValues 0 args).foldl Number.mul (.int 1)).value

/-- The first argument less all others; a single one is taken from zero. -/
def sub (args : List Value) : Except Failure Value := do
  match ← Number.ofValues 0 args with
  | [] => .error (.noArgs [])
  | [n] => return (Number.sub (.int 0) n).value
  | n :: rest => return (rest.foldl Number.sub n).value

/-- The first argument divided by all others; one is divided by a single one. -/
def div (args : List Value) : Except Failure Value := do
  match ← Number.ofValues 0 args with
  | [] => .error (.noArgs [])
  | [n] => return (← Number.div (.int 1) n).value
  | n :: rest => return (← rest.foldlM Number.div n).value

/-- A number that has to be an integer. -/
def integer (position : Nat) : Number → Except Failure Int64
  | .int n => .ok n
  | .float x => .error (.notInteger position x)

/-- Two integer arguments, the second not zero. -/
def integers : List Value → Except Failure (Int64 × Int64)
  | [a, b] => do
    let x ← Number.ofValue 0 a
    let y ← Number.ofValue 1 b
    let m ← integer 0 x
    let n ← integer 1 y
    if n == 0 then .error .divisionByZero else return (m, n)
  | args => .error (.argCount 2 args.length)

/-- The quotient of two integers, toward zero. -/
def quotient (args : List Value) : Except Failure Value := do
  let (m, n) ← integers args
  return .int (m / n)

/-- The remainder of two integers, with the sign of the first. -/
def remainder (args : List Value) : Except Failure Value := do
  let (m, n) ← integers args
  return .int (m % n)

/-- The five comparisons. -/
inductive Comparison where
  | eq | lt | gt | le | ge
deriving DecidableEq, Repr

/-- The operation that a comparison is called by. -/
def Comparison.name : Comparison → Bytes
  | eq => "="
  | lt => "<"
  | gt => ">"
  | le => "<="
  | ge => ">="

/-- Whether a comparison accepts an order. -/
def Comparison.accepts : Comparison → Ordering → Bool
  | eq, o => o == .eq
  | lt, o => o == .lt
  | gt, o => o == .gt
  | le, o => o != .gt
  | ge, o => o != .lt

/-- The comparison holds between all neighbours. -/
def holds (c : Comparison) : List Number → Bool
  | a :: b :: rest => c.accepts (a.order b) && holds c (b :: rest)
  | _ => true

/-- A chained comparison: all arguments are numbers, and neighbours are in order. -/
def compareAll (c : Comparison) (args : List Value) : Except Failure Value :=
  if args.isEmpty then .error (.noArgs c.name)
  else do return .bool (holds c (← Number.ofValues 0 args))

end Arithmetic

end RegisterMachine
