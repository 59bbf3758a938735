import RegisterMachine.Form.Source
import RegisterMachine.Machine.Basic
import RegisterMachine.Program.Registers

/-!
# From text to a machine

`Machine.compile`: reads a controller from text and creates a machine for it.  Without a list of registers the
machine gets those that the controller mentions.
-/

namespace RegisterMachine

/-- Why a text does not make a machine. -/
inductive CompileError where
  | text (error : SyntaxError)
  | assembly (error : AssemblyError)

/-- The text of a compile error. -/
def CompileError.message : CompileError → Bytes
  | text e => withContext "parse text" e.message
  | assembly e => withContext "assemble" e.message

/-- A machine for the controller in a named text. -/
def Machine.compile (serial : Nat) (file : SourceFile) (registers : Option (List Bytes)) (host : Table)
    (console : Console) : Except CompileError Machine :=
  match Source.readOne [file] .form with
  | (some x, none) =>
    match Machine.create serial (registers.getD (inferRegisters x)) host console x with
    | .ok m => .ok m
    | .error e => .error (.assembly e)
  | (_, some e) => .error (.text e)
  | (none, none) => .error (.text ⟨⟨file.name, 1, 1⟩, .unreadable .endOfInput⟩)

end RegisterMachine
