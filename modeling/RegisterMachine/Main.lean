import RegisterMachine.Command.Basic

/-!
# The program

Connects `mainWith` to the files and streams of the process.
-/

namespace RegisterMachine

/-- A file name as the process gives it. -/
def nameText (name : Bytes) : String := (String.fromUTF8? ⟨name.toArray⟩).getD ""

/-- A file error from an error of the process. -/
def fileError (name : Bytes) : IO.Error → FileError
  | .noFileOrDirectory .. => .notFound name
  | .inappropriateType .. => .isDirectory name
  | e => .other name (utf8 (toString e))

/-- Runs an action on a file. -/
def onFile {α : Type} (name : Bytes) (action : String → IO α) : IO (Except FileError α) := do
  match ← (action (nameText name)).toBaseIO with
  | .ok x => return .ok x
  | .error e => return .error (fileError name e)

/-- The files and streams of the process. -/
def process : Surroundings IO where
  contents name := onFile name fun path => do return (← IO.FS.readBinFile path).data.toList
  create name := onFile name fun path => IO.FS.writeBinFile path .empty
  input := do return (← (← IO.getStdin).readBinToEnd).data.toList
  output text := do
    let out ← IO.getStdout
    out.write ⟨text.toArray⟩
    out.flush

end RegisterMachine

open RegisterMachine in
/-- Runs a command line and gives the exit code. -/
def main (arguments : List String) : IO UInt32 := do
  match ← mainWith process (arguments.map utf8) with
  | none => return 0
  | some text =>
    (← IO.getStderr).write ⟨(errorLine text).toArray⟩
    return 1
