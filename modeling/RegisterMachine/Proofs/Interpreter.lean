import RegisterMachine.Machine.Basic

/-!
# Running a controller as it is written

An interpreter that goes through the elements of a controller without assembling them.  The place of execution is a
position in the list of elements; identifiers are skipped, and every other element is taken apart each time it is
executed.  A jump looks for its label in the list and goes on behind it.

* `Interpreter.Cell`: a register holds a position in the controller, or a value.
* `Interpreter.before`: the number of instructions before a position, which is how operations see the position.
* `Interpreter.instruction`, `Interpreter.step`, `Interpreter.run`.

Operations are given by their outcomes alone (`PureTable`): they see the values of their operands and nothing else.
-/

namespace RegisterMachine

/-- Operations that only look at their arguments. -/
abbrev PureTable := List (Bytes × (List Value → Outcome))

/-- The operations as a machine calls them. -/
def Table.ofPure (t : PureTable) : Table := ⟨t.map fun e => (e.1, fun args w => (e.2 args, w))⟩

namespace Interpreter

/-- What a register holds: a position in the controller, or a value. -/
inductive Cell where
  | place (position : Nat)
  | value (v : Value)

/-- The state of the interpreter.  The top of the stack comes first. -/
structure Store where
  position : Nat := 0
  flag : Cell := .value .nil
  registers : List (Bytes × Cell) := []
  stack : List Cell := []

/-- Why an element cannot be executed. -/
inductive Stop where
  /-- It is no instruction, or it names a label that is nowhere in the controller. -/
  | malformed
  | trap (t : Trap)

namespace Store

/-- The contents of a register; `pc` holds the position. -/
def read? (σ : Store) (name : Bytes) : Option Cell :=
  if name == pcName then some (.place σ.position)
  else if name == flagName then some σ.flag
  else σ.registers.lookup name

/-- New contents for a register.  Nothing is written to `pc`: it moves on with the instruction. -/
def write (σ : Store) (name : Bytes) (c : Cell) : Store :=
  if name == pcName then σ
  else if name == flagName then { σ with flag := c }
  else { σ with registers := σ.registers.map fun e => if e.1 == name then (e.1, c) else e }

/-- On to the next element. -/
def advance (σ : Store) : Store := { σ with position := σ.position + 1 }

/-- On to another position. -/
def jump (σ : Store) (position : Nat) : Store := { σ with position := position }

end Store

/-! ## Positions -/

/-- A label. -/
def isLabel : Form → Bool
  | .ident .. => true
  | _ => false

/-- The label of that name. -/
def isLabelOf (name : Bytes) : Form → Bool
  | .ident _ n => n == name
  | _ => false

/-- An instruction. -/
def isInstruction : Form → Bool
  | .list .. => true
  | _ => false

/-- The number of instructions before a position. -/
def before (items : List Form) (position : Nat) : Nat := (items.take position).countP isInstruction

/-- The position behind a label. -/
def behind? (items : List Form) (name : Bytes) : Option Nat := (items.findIdx? (isLabelOf name)).map (· + 1)

/-- The first position from `position` on where there is no label. -/
def skipLabels : List Form → Nat → Nat
  | [], position => position
  | x :: rest, 0 => if isLabel x then skipLabels rest 0 + 1 else 0
  | _ :: rest, position + 1 => skipLabels rest position + 1

/-- The first position with `count` instructions before it. -/
def afterInstructions : List Form → Nat → Nat
  | _, 0 => 0
  | [], _ + 1 => 0
  | x :: rest, count + 1 => afterInstructions rest (if isInstruction x then count else count + 1) + 1

/-- The labels, each with the number of instructions before it; `count` of them come before all. -/
def labelsFrom (count : Nat) : List Form → List (Bytes × Nat)
  | [] => []
  | .ident _ name :: rest => (name, count) :: labelsFrom count rest
  | .list .. :: rest => labelsFrom (count + 1) rest
  | _ :: rest => labelsFrom count rest

/-- Nothing but labels is left. -/
def Store.halted (items : List Form) (σ : Store) : Bool := (items.drop σ.position).all isLabel

theorem before_le (items : List Form) (position : Nat) : before items position ≤ items.countP isInstruction :=
  (List.take_sublist ..).countP_le

/-! ## Execution -/

section Execution

variable (serial : Nat) (items : List Form) (ops : PureTable)

/-- What the views of the controller share. -/
def layout : Layout := ⟨serial, items.countP isInstruction, labelsFrom 0 items⟩

theorem before_le_total (position : Nat) : before items position ≤ Layout.total (some (layout serial items)) :=
  before_le items position

/-- The instructions from a position on. -/
def viewAt (position : Nat) : View := ⟨some (layout serial items), before items position, before_le_total ..⟩

/-- How operations see the contents of a register. -/
def see : Cell → Value
  | .value v => v
  | .place position => .view (viewAt serial items position)

/-- Where a jump to the contents of a register leads. -/
def target? : Cell → Option Nat
  | .place position => some position
  | .value (.view v) =>
    if v.layout = some (layout serial items) then some (afterInstructions items v.offset) else none
  | .value _ => none

/-- The position behind a label that must be there. -/
def label (name : Bytes) : Except Stop Nat :=
  match behind? items name with
  | some position => .ok position
  | none => .error .malformed

/-- The contents of a register that must be there. -/
def register (σ : Store) (name : Bytes) : Except Stop Cell :=
  match σ.read? name with
  | some c => .ok c
  | none => .error (.trap (.unknownRegister name))

/-- `(const x)`, `(label name)` or `(reg name)`. -/
def operand (σ : Store) : Form → Except Stop Cell
  | .list _ [.ident _ tag, x] =>
    if tag == utf8 "const" then .ok (.value x.datum)
    else match x with
      | .ident _ name =>
        if tag == utf8 "label" then (label items name).map .place
        else if tag == utf8 "reg" then register σ name
        else .error .malformed
      | _ => .error .malformed
  | _ => .error .malformed

/-- Operands from left to right, as operations see them; the first of them is number `index`. -/
def operands (σ : Store) (operation : Bytes) (index : Nat) : List Form → Except Stop (List Value)
  | [] => .ok []
  | x :: rest =>
    match operand items σ x with
    | .error (.trap t) => .error (.trap (.operand operation index t))
    | .error .malformed => .error .malformed
    | .ok c => do return see serial items c :: (← operands σ operation (index + 1) rest)

/-- Calls an operation.  The one that empties the stack is there unless the table has another of its name. -/
def apply (σ : Store) (name : Bytes) (args : List Form) : Except Stop (Cell × Store) :=
  match ops.lookup name with
  | some f => do
    match f (← operands serial items σ name 0 args) with
    | .value v => .ok (.value v, σ)
    | .failure e => .error (.trap (.failed name e))
    | .panic p => .error (.trap (.panicked name p))
  | none =>
    if name == utf8 "initialize" then do
      let _ ← operands serial items σ name 0 args
      return (.value .nil, { σ with stack := [] })
    else .error (.trap (.operationNotFound name))

/-- `(op name) operand …`. -/
def call (σ : Store) : List Form → Except Stop (Cell × Store)
  | .list _ [.ident _ tag, .ident _ name] :: args =>
    if tag == utf8 "op" then apply serial items ops σ name args else .error .malformed
  | _ => .error .malformed

/-- The forms start with `(op x)`. -/
def isCall : List Form → Bool
  | .list _ [.ident _ tag, _] :: _ => tag == utf8 "op"
  | _ => false

/-- What can be assigned: the value of an operation or of a single operand. -/
def value (σ : Store) (xs : List Form) : Except Stop (Cell × Store) :=
  if isCall xs then call serial items ops σ xs
  else match xs with
    | [x] => do return (← operand items σ x, σ)
    | _ => .error .malformed

/-- `(assign name value)`, without its first word. -/
def assign (σ : Store) : List Form → Except Stop Store
  | .ident _ name :: xs => do
    let _ ← register σ name
    let (c, σ) ← value serial items ops σ xs
    return (σ.write name c).advance
  | _ => .error .malformed

/-- `(branch (label name))`, without its first word. -/
def branch (σ : Store) : List Form → Except Stop Store
  | [.list _ [.ident _ tag, .ident _ name]] =>
    if tag == utf8 "label" then do
      let position ← label items name
      return if (see serial items σ.flag).truthy then σ.jump position else σ.advance
    else .error .malformed
  | _ => .error .malformed

/-- `(goto (label name))` or `(goto (reg name))`, without its first word. -/
def goto (σ : Store) : List Form → Except Stop Store
  | [.list _ [.ident _ tag, .ident _ name]] =>
    if tag == utf8 "label" then (label items name).map σ.jump
    else if tag == utf8 "reg" then do
      let c ← register σ name
      match target? serial items c with
      | some position => return σ.jump position
      | none => .error (.trap (.badJump name (see serial items c)))
    else .error .malformed
  | _ => .error .malformed

/-- `(save name)`, without its first word. -/
def save (σ : Store) : List Form → Except Stop Store
  | [.ident _ name] => do
    let c ← register σ name
    return { σ with stack := c :: σ.stack }.advance
  | _ => .error .malformed

/-- `(restore name)`, without its first word. -/
def restore (σ : Store) : List Form → Except Stop Store
  | [.ident _ name] => do
    let _ ← register σ name
    match σ.stack with
    | [] => .error (.trap (.stackUnderflow name))
    | c :: rest => return ({ σ with stack := rest }.write name c).advance
  | _ => .error .malformed

/-- Executes one instruction, which stands at the position of the store. -/
def instruction (σ : Store) : List Form → Except Stop Store
  | .ident _ tag :: args =>
    if tag == utf8 "assign" then assign serial items ops σ args
    else if tag == utf8 "test" then do
      let (c, σ) ← call serial items ops σ args
      return (σ.write flagName c).advance
    else if tag == utf8 "branch" then branch serial items σ args
    else if tag == utf8 "goto" then goto serial items σ args
    else if tag == utf8 "save" then save σ args
    else if tag == utf8 "restore" then restore σ args
    else if tag == utf8 "perform" then do
      let (_, σ) ← call serial items ops σ args
      return σ.advance
    else .error .malformed
  | _ => .error .malformed

/-- How a step ends. -/
inductive Step where
  | advanced (σ : Store)
  | halted
  | failed (position : Nat) (t : Trap)
  | malformed (position : Nat)

/-- Skips labels and executes one instruction. -/
def step (σ : Store) : Step :=
  let here := skipLabels items σ.position
  match items[here]? with
  | none => .halted
  | some (.list _ parts) =>
    match instruction serial items ops (σ.jump here) parts with
    | .ok σ => .advanced σ
    | .error (.trap t) => .failed here t
    | .error .malformed => .malformed here
  | some _ => .malformed here

/-- How a run ends. -/
inductive Run where
  | halted
  | failed (position : Nat) (t : Trap)
  | malformed (position : Nat)
  /-- The allowed number of steps was used up. -/
  | unfinished

/-- Executes at most `limit` instructions; `done` of them were executed before. -/
def runFrom (done : Nat) : Nat → Store → Run × Nat × Store
  | 0, σ => (.unfinished, done, σ)
  | limit + 1, σ =>
    match step serial items ops σ with
    | .advanced σ => runFrom (done + 1) limit σ
    | .halted => (.halted, done, σ)
    | .failed position t => (.failed position t, done, σ)
    | .malformed position => (.malformed position, done, σ)

/-- Executes at most `limit` instructions and counts them. -/
def run (limit : Nat) (σ : Store) : Run × Nat × Store := runFrom serial items ops 0 limit σ

end Execution

end Interpreter

end RegisterMachine
