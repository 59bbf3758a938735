import RegisterMachine.Machine.Trap
import RegisterMachine.Program.Basic

/-!
# Execution of one instruction

`execute program find here code world` runs one instruction of `program` that stands at the start of the view
`here`, with the operations that `find` knows.  Everything that can fail comes before anything is written, apart
from what an operation does by itself.

* `operandValue`, `operandValues`: constants, labels and registers.
* `call`: an operation on its operands.
* `evaluate`: the value of an assignment.
* `execute`: the instruction.
-/

namespace RegisterMachine

/-- The world with another value in a register. -/
def World.write (w : World) (name : Bytes) (v : Value) : World := { w with state := w.state.write name v }

/-- The world with another view in `pc`. -/
def World.jump (w : World) (v : View) : World := { w with state := { w.state with pc := .view v } }

/-- The world with another stack. -/
def World.setStack (w : World) (s : Stack) : World := { w with state := { w.state with stack := s } }

section Execution

variable (program : Program) (find : Bytes → Option Operation)

/-- The value of a register, which must exist. -/
def registerValue (read : Bytes → Option Value) (name : Bytes) : Except Trap Value :=
  match read name with
  | some v => .ok v
  | none => .error (.unknownRegister name)

/-- The value of an operand, which sees nothing of the state but the registers. -/
def operandValue (read : Bytes → Option Value) : Operand → Except Trap Value
  | .const v => .ok v
  | .label _ offset => .ok (.view (program.view offset))
  | .reg name => registerValue read name

/-- The values of operands from left to right; the first of them is number `index`. -/
def operandValues (read : Bytes → Option Value) (operation : Bytes) (index : Nat) :
    List Operand → Except Trap (List Value)
  | [] => .ok []
  | o :: rest =>
    match operandValue program read o with
    | .error e => .error (.operand operation index e)
    | .ok v =>
      match operandValues read operation (index + 1) rest with
      | .error e => .error e
      | .ok vs => .ok (v :: vs)

/-- What the end of a call means for the instruction. -/
def Outcome.result (operation : Bytes) : Outcome → Except Trap Value
  | .value v => .ok v
  | .failure f => .error (.failed operation f)
  | .panic p => .error (.panicked operation p)

/-- Calls an operation.  It is looked up first; then its operands are evaluated. -/
def call (c : Call) (w : World) : Except Trap Value × World :=
  match find c.name with
  | none => (.error (.operationNotFound c.name), w)
  | some op =>
    match operandValues program w.state.read? c.name 0 c.args with
    | .error e => (.error e, w)
    | .ok args =>
      let r := op args w
      (r.1.result c.name, r.2)

/-- The value to assign. -/
def evaluate (x : Option Expr) (w : World) : Except Trap Value × World :=
  match x with
  | none => (.error .noValue, w)
  | some (.operand o) => (operandValue program w.state.read? o, w)
  | some (.call c) => call program find c w

/-- A value computed for the rest of an instruction, which cannot fail any more. -/
def andThen (r : Except Trap Value × World) (rest : Value → World → World) : Except Trap Unit × World :=
  match r with
  | (.ok v, w) => (.ok (), rest v w)
  | (.error e, w) => (.error e, w)

/-- Runs one instruction.  Unless it jumps, `pc` moves on from where the instruction was, even if the instruction
itself wrote to `pc`. -/
def execute (here : View) (code : Option Code) (w : World) : Except Trap Unit × World :=
  match code with
  | none => (.error .noCode, w)
  | some (.assign target x) =>
    match registerValue w.state.read? target with
    | .error e => (.error e, w)
    | .ok _ => andThen (evaluate program find x w) fun v w => (w.write target v).jump here.tail
  | some (.test c) =>
    andThen (call program find c w) fun v w => (w.write flagName v).jump here.tail
  | some (.branch _ offset) =>
    (.ok (), w.jump (if w.state.flag.truthy then program.view offset else here.tail))
  | some (.goto _ offset) => (.ok (), w.jump (program.view offset))
  | some (.gotoReg name) =>
    match registerValue w.state.read? name with
    | .error e => (.error e, w)
    | .ok (.view v) =>
      if v.ofProgram program.layout then (.ok (), w.jump v) else (.error (.badJump name (.view v)), w)
    | .ok v => (.error (.badJump name v), w)
  | some (.save name) =>
    match registerValue w.state.read? name with
    | .error e => (.error e, w)
    | .ok v => (.ok (), (w.setStack (w.state.stack.push v)).jump here.tail)
  | some (.restore name) =>
    match registerValue w.state.read? name, w.state.stack.pop? with
    | .error e, _ => (.error e, w)
    | .ok _, none => (.error (.stackUnderflow name), w)
    | .ok _, some (v, s) => (.ok (), ((w.setStack s).write name v).jump here.tail)
  | some (.perform c) => andThen (call program find c w) fun _ w => w.jump here.tail

end Execution

end RegisterMachine
