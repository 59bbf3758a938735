import RegisterMachine.Program.Basic

/-!
# Assembling

A controller is a list of labels, which are identifiers, and instructions, which are lists.  Assembling first binds
every label to the offset of the instruction after it and then compiles the instructions against all labels.

* `AssemblyCause`, `AssemblyError`: what can be wrong, and where.
* `splitController`: labels and instructions.
* `compile`: one instruction.
* `Program.assemble`: a whole controller.
-/

namespace RegisterMachine

/-- What can be wrong with a machine to be assembled. -/
inductive AssemblyCause where
  | duplicateRegister (name : Bytes)
  | notList (kind : Bytes)
  | duplicateLabel (name : Bytes)
  | unresolvedLabel (name : Bytes)
  /-- An element that is neither a label nor an instruction. -/
  | notElement (kind : Bytes)
  /-- A word that starts no instruction; empty if there is none. -/
  | unknownInstruction (tag : Bytes)
  | badAssign
  | badTarget (target : Form)
  | valueCount (count : Nat)
  | badTest
  | badBranch
  | badGoto
  | badSave
  | badRestore
  | badPerform
  | badOperationName (name : Form)
  | badExpression (x : Form)
  | operand (operation : Bytes) (index : Nat) (inner : AssemblyCause)

/-- The text of a cause. -/
def AssemblyCause.message : AssemblyCause → Bytes
  | duplicateRegister name => concat ["register ", name, ": duplicate register"]
  | notList kind => concat ["got ", kind, ": controller is not a list"]
  | duplicateLabel name => concat ["label ", name, ": duplicate label"]
  | unresolvedLabel name => concat ["label ", name, ": unresolved label"]
  | notElement kind => withContext kind "unknown instruction"
  | unknownInstruction tag => withContext tag "unknown instruction"
  | badAssign => "bad assign instruction"
  | badTarget target => concat ["target is ", target.text, ": bad assign instruction"]
  | valueCount count => concat [decimal count, " value expressions: bad assign instruction"]
  | badTest => "bad test expression"
  | badBranch => "bad branch instruction"
  | badGoto => "bad goto instruction"
  | badSave => "bad save instruction"
  | badRestore => "bad restore instruction"
  | badPerform => "bad perform instruction"
  | badOperationName name => concat ["operation name ", name.text, ": bad expression"]
  | badExpression x => withContext x.text "bad expression"
  | operand op index inner => concat ["op ", op, " arg ", decimal index, ": ", inner.message]

/-- A cause and the element of the controller it is about: its position and text.  There is no position when the
registers or the controller as a whole are at fault. -/
structure AssemblyError where
  position : Option Nat := none
  text : Bytes := []
  cause : AssemblyCause

/-- The text of an assembly error. -/
def AssemblyError.message (e : AssemblyError) : Bytes :=
  if e.text.isEmpty then concat ["assemble: ", e.cause.message]
  else
    let position : Int := match e.position with
      | some i => i
      | none => -1
    concat ["assemble: element ", decimalInt position, " ", e.text, ": ", e.cause.message]

/-! ## Labels and instructions -/

/-- Labels with their offsets and instructions with their positions in the controller, both last first. -/
structure Split where
  labels : List (Bytes × Nat) := []
  instructions : List (Nat × Form × List Form) := []

/-- One more element of the controller, which stands at `position`. -/
def Split.add (s : Split) (position : Nat) : Form → Except AssemblyError Split
  | .ident _ name =>
    if (s.labels.lookup name).isSome then
      .error ⟨some position, name, .duplicateLabel name⟩
    else .ok { s with labels := (name, s.instructions.length) :: s.labels }
  | .list span items =>
    .ok { s with instructions := (position, .list span items, items) :: s.instructions }
  | x => .error ⟨some position, x.text, .notElement x.kindName⟩

/-- The elements of a controller from `position` on. -/
def splitFrom (s : Split) (position : Nat) : List Form → Except AssemblyError Split
  | [] => .ok s
  | x :: rest => do splitFrom (← s.add position x) (position + 1) rest

/-- The labels and instructions of a controller. -/
def splitController (items : List Form) : Except AssemblyError Split := splitFrom {} 0 items

/-! ## Instructions -/

section Compile

variable (labels : List (Bytes × Nat))

/-- The offset of a label. -/
def resolve (name : Bytes) : Except AssemblyCause Nat :=
  match labels.lookup name with
  | some offset => .ok offset
  | none => .error (.unresolvedLabel name)

/-- The name in a single argument `(tag name)`. -/
def taggedName? (tag : Bytes) : List Form → Option Bytes
  | [.list _ items] => (Form.tagged? tag items).bind Form.name?
  | _ => none

/-- A single argument that is a name. -/
def nameArg? : List Form → Option Bytes
  | [.ident _ name] => some name
  | _ => none

/-- `(const x)`, `(label name)` or `(reg name)`. -/
def compileOperand (x : Form) : Except AssemblyCause Operand :=
  match x.items? with
  | none => .error (.badExpression x)
  | some items =>
    match Form.tagged? (utf8 "const") items with
    | some v => .ok (.const v.datum)
    | none =>
      match Form.tagged? (utf8 "label") items with
      | some (.ident _ name) => do return .label name (← resolve labels name)
      | some _ => .error (.badExpression x)
      | none =>
        match Form.tagged? (utf8 "reg") items with
        | some (.ident _ name) => .ok (.reg name)
        | _ => .error (.badExpression x)

/-- The operands of an operation, the first of them number `index`. -/
def compileOperands (operation : Bytes) (index : Nat) : List Form → Except AssemblyCause (List Operand)
  | [] => .ok []
  | x :: rest =>
    match compileOperand labels x with
    | .error e => .error (.operand operation index e)
    | .ok o => do return o :: (← compileOperands operation (index + 1) rest)

/-- The form in `(op form)` at the start of an operation expression, and the operand forms. -/
def operation? : List Form → Option (Form × List Form)
  | .list _ items :: args => (Form.tagged? (utf8 "op") items).map fun name => (name, args)
  | _ => none

/-- An operation expression: its name and its operands. -/
def compileCall (name : Form) (args : List Form) : Except AssemblyCause Call :=
  match name with
  | .ident _ op => do return ⟨op, ← compileOperands labels op 0 args⟩
  | x => .error (.badOperationName x)

/-- `(assign target value)`. -/
def compileAssign : List Form → Except AssemblyCause Code
  | target :: x :: rest =>
    match target with
    | .ident _ name =>
      match operation? (x :: rest) with
      | some (op, args) => do return .assign name (some (.call (← compileCall labels op args)))
      | none =>
        if !rest.isEmpty then .error (.valueCount (rest.length + 1))
        else do return .assign name (some (.operand (← compileOperand labels x)))
    | _ => .error (.badTarget target)
  | _ => .error .badAssign

/-- An instruction whose only argument is an operation expression. -/
def compileAction (make : Call → Code) (bad : AssemblyCause) (args : List Form) : Except AssemblyCause Code :=
  match operation? args with
  | some (op, args) => do return make (← compileCall labels op args)
  | none => .error bad

/-- `(branch (label name))`. -/
def compileBranch (args : List Form) : Except AssemblyCause Code :=
  match taggedName? (utf8 "label") args with
  | some name => do return .branch name (← resolve labels name)
  | none => .error .badBranch

/-- `(goto (label name))` or `(goto (reg name))`. -/
def compileGoto (args : List Form) : Except AssemblyCause Code :=
  match taggedName? (utf8 "label") args with
  | some name => do return .goto name (← resolve labels name)
  | none =>
    match taggedName? (utf8 "reg") args with
    | some name => .ok (.gotoReg name)
    | none => .error .badGoto

/-- An instruction whose only argument is a register. -/
def compileTransfer (make : Bytes → Code) (bad : AssemblyCause) (args : List Form) : Except AssemblyCause Code :=
  match nameArg? args with
  | some name => .ok (make name)
  | none => .error bad

/-- One instruction. -/
def compile (items : List Form) : Except AssemblyCause Code :=
  match Form.head? items with
  | none => .error (.unknownInstruction [])
  | some tag =>
    let args := items.tail
    if tag == utf8 "assign" then compileAssign labels args
    else if tag == utf8 "test" then compileAction labels .test .badTest args
    else if tag == utf8 "branch" then compileBranch labels args
    else if tag == utf8 "goto" then compileGoto labels args
    else if tag == utf8 "save" then compileTransfer .save .badSave args
    else if tag == utf8 "restore" then compileTransfer .restore .badRestore args
    else if tag == utf8 "perform" then compileAction labels .perform .badPerform args
    else .error (.unknownInstruction tag)

/-- The code of an instruction of the controller with its position; an error names it. -/
def compileElement (e : Nat × Form × List Form) : Except AssemblyError (Form × Code) :=
  match compile labels e.2.2 with
  | .ok code => .ok (e.2.1, code)
  | .error cause => .error ⟨some e.1, e.2.1.text, cause⟩

end Compile

/-- Assembles a controller. -/
def Program.assemble (serial : Nat) (controller : Form) : Except AssemblyError Program :=
  match controller.items? with
  | none => .error { cause := .notList controller.kindName }
  | some items => do
    let s ← splitController items
    let labels := s.labels.reverse
    let elements ← s.instructions.reverse.mapM (compileElement labels)
    return .ofElements serial elements labels

end RegisterMachine
