import RegisterMachine.Text.Quoted
import RegisterMachine.Machine.State
import RegisterMachine.Value.Basic

/-!
# Machine descriptions

A description names the registers and operations of a machine, its controller, the values to start with and the
registers to print at the end.

* `Description.problems`: everything that is wrong with a description.
* `listedErrors`: the text of several errors at once.
* `Value.normal`: a decoded value as a register holds it.
-/

namespace RegisterMachine

/-- A machine description.  The controller is a file, looked up in `directory` if its name is relative, or the text
`source`. -/
structure Description where
  registers : List Bytes := []
  operations : List Bytes := []
  controller : Bytes := []
  source : Bytes := []
  init : List (Bytes × Value) := []
  print : List Bytes := []
  directory : Bytes := []

/-- What can be wrong with a description. -/
inductive Problem where
  | noController
  | bothControllers
  /-- The name is empty or holds a byte that ends a name in a controller. -/
  | badRegister (name : Bytes)
  | reservedRegister (name : Bytes)
  | duplicateRegister (name : Bytes)
  | unknownOperation (name : Bytes)
  | unknownInit (name : Bytes)
  | unknownPrint (name : Bytes)

/-- The text of a problem. -/
def Problem.message : Problem → Bytes
  | noController => "no controller"
  | bothControllers => "both controller and source set"
  | badRegister name => withContext (quoted name) "bad register name"
  | reservedRegister name => withContext (name ++ utf8 " is reserved") "bad register name"
  | duplicateRegister name => withContext name "duplicate register"
  | unknownOperation name => withContext name "unknown operation"
  | unknownInit name => withContext (utf8 "init " ++ name) "unknown register"
  | unknownPrint name => withContext (utf8 "print " ++ name) "unknown register"

/-- Several errors, a line each. -/
def listedErrors (errors : List Bytes) : Bytes :=
  let count := if errors.length == 1 then utf8 "1 error" else decimal errors.length ++ utf8 " errors"
  concat [count, " occurred:\n", errors.flatMap fun e => concat ["\t* ", e, "\n"], "\n"]

/-- The bytes that a register name cannot hold. -/
def forbiddenInName : Bytes := [0x20, 0x09, 0x0A, 0x28, 0x29, 0x27, 0x22, 0x3B]

/-- The registers that every machine has. -/
def isReserved (name : Bytes) : Bool := name == pcName || name == flagName

namespace Description

/-- What is wrong with a register, given those before it. -/
def registerProblem? (before : List Bytes) (name : Bytes) : Option Problem :=
  if name.isEmpty || name.any forbiddenInName.contains then some (.badRegister name)
  else if isReserved name then some (.reservedRegister name)
  else if before.contains name then some (.duplicateRegister name)
  else none

/-- What is wrong with registers, given those before them. -/
def registerProblems (before : List Bytes) : List Bytes → List Problem
  | [] => []
  | name :: rest => (registerProblem? before name).toList ++ registerProblems (name :: before) rest

/-- What is wrong with the choice of a controller. -/
def controllerProblem? (d : Description) : Option Problem :=
  if d.controller.isEmpty && d.source.isEmpty then some .noController
  else if !d.controller.isEmpty && !d.source.isEmpty then some .bothControllers
  else none

/-- The operations that are not known. -/
def operationProblems (d : Description) (known : Bytes → Bool) : List Problem :=
  (d.operations.filter fun name => !known name).map .unknownOperation

/-- The initial values and registers to print that name no register.  Without a list of registers they cannot be
checked. -/
def mentionProblems (d : Description) : List Problem :=
  if d.registers.isEmpty then []
  else
    ((sortBytes (d.init.map (·.1))).filter fun name => !d.registers.contains name).map .unknownInit ++
      (d.print.filter fun name => !d.registers.contains name && !isReserved name).map .unknownPrint

/-- Everything that is wrong with a description.  Operations are checked if it is known which there are. -/
def problems (d : Description) (known : Option (Bytes → Bool)) : List Problem :=
  d.controllerProblem?.toList ++ registerProblems [] d.registers ++
    (known.map d.operationProblems).getD [] ++ d.mentionProblems

end Description

/-! ## Decoded values -/

mutual

/-- A decoded value as a register holds it: integers are machine integers, also in lists.  Tables stay as
they are. -/
def Value.normal : Value → Value
  | .raw n => .int n
  | .natural n => .int n.toInt64
  | .list items => .list (Value.normals items)
  | v => v
termination_by structural v => v

/-- The values of a list as a register holds them. -/
def Value.normals : List Value → List Value
  | [] => []
  | v :: rest => v.normal :: Value.normals rest
termination_by structural vs => vs

end

end RegisterMachine
