import RegisterMachine.Value.Basic

/-!
# Programs

An assembled controller: instructions in order, and labels bound to offsets between them.

* `Code`: the seven kinds of instruction, with operands resolved.
* `Program.numbered`: every instruction knows its position; `Program.ofElements` numbers them.
* `Program.layout`, `Program.view`: the program as its views see it.
-/

namespace RegisterMachine

/-- What an operation can be given.  A label is kept with the offset it is bound to. -/
inductive Operand where
  | const (v : Value)
  | label (name : Bytes) (offset : Nat)
  | reg (name : Bytes)

/-- An operation with its operands.  The operation is looked up each time. -/
structure Call where
  name : Bytes
  args : List Operand

/-- What can be assigned. -/
inductive Expr where
  | operand (o : Operand)
  | call (c : Call)

/-- An instruction.  An assignment whose value was taken away has none. -/
inductive Code where
  | assign (target : Bytes) (value : Option Expr)
  | test (condition : Call)
  | branch (label : Bytes) (offset : Nat)
  | goto (label : Bytes) (offset : Nat)
  | gotoReg (register : Bytes)
  | save (register : Bytes)
  | restore (register : Bytes)
  | perform (action : Call)

/-- The word that an instruction starts with. -/
def Code.tag : Code → Bytes
  | assign .. => "assign"
  | test _ => "test"
  | branch .. => "branch"
  | goto .. | gotoReg _ => "goto"
  | save _ => "save"
  | restore _ => "restore"
  | perform _ => "perform"

/-- An instruction with its position in the program, the form it was assembled from and its text.  One that was
cleared has no code. -/
structure Instruction where
  index : Nat
  source : Form
  text : Bytes
  code : Option Code

/-- An assembled controller.  `serial` tells programs apart; labels are in the order of their appearance. -/
structure Program where
  serial : Nat
  instructions : Array Instruction
  labels : List (Bytes × Nat)
  /-- Every instruction knows its position. -/
  numbered : ∀ (i : Nat) (h : i < instructions.size), instructions[i].index = i

namespace Program

theorem index_eq {p : Program} {i : Nat} {ins : Instruction} (h : p.instructions[i]? = some ins) :
    ins.index = i := by
  obtain ⟨hi, rfl⟩ := Array.getElem?_eq_some_iff.mp h
  exact p.numbered i hi

/-- The program of some forms with their codes, numbered in this order. -/
def ofElements (serial : Nat) (elements : List (Form × Code)) (labels : List (Bytes × Nat)) : Program where
  serial
  instructions := (elements.zipIdx.map fun e => ⟨e.2, e.1.1, e.1.1.text, some e.1.2⟩).toArray
  labels
  numbered i h := by simp

theorem size_ofElements (serial : Nat) (elements : List (Form × Code)) (labels : List (Bytes × Nat)) :
    (ofElements serial elements labels).instructions.size = elements.length := by
  simp [ofElements]

theorem getElem?_ofElements {serial : Nat} {elements : List (Form × Code)} {labels : List (Bytes × Nat)} {k : Nat}
    {e : Form × Code} (h : elements[k]? = some e) :
    (ofElements serial elements labels).instructions[k]? = some ⟨k, e.1, e.1.text, some e.2⟩ := by
  simp [ofElements, h]

/-- The number of instructions. -/
def size (p : Program) : Nat := p.instructions.size

/-- What the program's views know of it. -/
def layout (p : Program) : Layout := ⟨p.serial, p.size, p.labels⟩

/-- The instructions from `offset` on; none past the end. -/
def view (p : Program) (offset : Nat) : View := ⟨some p.layout, min offset p.size, Nat.min_le_right ..⟩

/-- The whole program. -/
def entry (p : Program) : View := p.view 0

/-- The view that a label denotes. -/
def label? (p : Program) (name : Bytes) : Option View := (p.labels.lookup name).map p.view

/-- The labels of an offset, in name order. -/
def labelsAt (p : Program) (offset : Nat) : List Bytes := p.layout.labelsAt offset

/-- The program with the code of one instruction replaced. -/
def setCode (p : Program) (i : Nat) (code : Option Code) : Program :=
  { p with
    instructions := p.instructions.modify i fun ins => { ins with code := code }
    numbered := fun k h => by
      rw [Array.getElem_modify]
      split <;> exact p.numbered k _ }

end Program

end RegisterMachine
