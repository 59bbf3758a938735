import RegisterMachine.Command.Arguments
import RegisterMachine.Description.Assignment
import RegisterMachine.Machine.Load
import RegisterMachine.Machine.Report

/-!
# Commands

What the program does for a command line, in any monad that offers files, input and output.

* `Surroundings`: files, input and output.
* `Command.execute`: runs, lists, parses or checks files.
* `mainWith`: a whole command line, with the error text and the exit code.
-/

namespace RegisterMachine

/-- What the program needs around it. -/
structure Surroundings (m : Type → Type) extends FileSystem m where
  /-- Makes sure that a file can be written. -/
  create : Bytes → m (Except FileError Unit)
  input : m Bytes
  output : Bytes → m Unit

/-- An instruction calls an operation of that name. -/
def Code.calls (name : Bytes) : Code → Bool
  | .assign _ (some (.call c)) | .test c | .perform c => c.name == name
  | _ => false

/-- A program calls an operation of that name. -/
def Program.calls (p : Program) (name : Bytes) : Bool := p.instructions.any fun i => i.code.any (Code.calls name)

namespace Command

variable {m : Type → Type} [Monad m]

/-- The machine of a file, as the flags ask for it, and its description. -/
def loadMachine (s : Surroundings m) (a : Arguments) (name : Bytes) :
    m (Except Bytes (Machine × Description)) := do
  match ← Description.ofFile s.toFileSystem name with
  | .error e => return .error e.message
  | .ok d =>
    let registers := splitList (a.text "regs")
    let d := if registers.isEmpty then d else { d with registers }
    match ← Machine.load s.toFileSystem 0 d { output := { sink := .collect } } with
    | .error e => return .error (withContext (utf8 "load " ++ name) e.message)
    | .ok machine => return .ok (machine, d)

/-- Steps between two looks at the output. -/
def stride : Nat := 4096

/-- Runs a machine to its end and writes its output as it goes. -/
def runThrough (s : Surroundings m) : Nat → Machine → m (Except RuntimeError Machine)
  | 0, machine => return .ok machine
  | rounds + 1, machine => do
    let (result, _, machine) := machine.run stride
    let (text, console) := machine.world.console.takeOutput
    s.output text
    let machine := machine.withConsole console
    match result with
    | .unfinished => runThrough s rounds machine
    | .halted => return .ok machine
    | .failed e => return .error e

/-- The machine with the input of the program, which is read only if the controller reads. -/
def connect (s : Surroundings m) (machine : Machine) : m Machine := do
  let pending ← if machine.program.calls "read" then s.input else pure []
  return machine.withConsole { machine.world.console with input := some { pending } }

/-- Runs a machine file and reports on it. -/
def executeRun (s : Surroundings m) (a : Arguments) : m (Except Bytes Unit) := do
  match a.plain with
  | [name] =>
    match ← loadMachine s a name with
    | .error e => return .error e
    | .ok (machine, d) =>
      match readAssignments (a.text "set") with
      | .error piece => return .error (withContext "set" (badAssignmentText piece))
      | .ok values =>
        match machine.preset values with
        | (.error missing, _) => return .error (withContext "init" (unknownRegisterText missing))
        | (.ok _, machine) =>
          match ← runThrough s Machine.endless (← connect s machine) with
          | .error e => return .error (withContext (utf8 "run " ++ name) e.message)
          | .ok machine =>
            let report : Report := {
              registers := d.print ++ splitList (a.text "print")
              stats := a.truth "stats"
              coverage := a.truth "coverage"
              profile := a.number "profile" }
            match machine.report report with
            | (_, some missing) => return .error (withContext "report" (unknownRegisterText missing))
            | (text, none) =>
              s.output text
              return .ok ()
  | names => return .error (utf8 "expected one file, got " ++ decimal names.length)

/-- Prints assembled programs, up to the first error. -/
def executeList (s : Surroundings m) (a : Arguments) : List Bytes → m (Except Bytes Unit)
  | [] => return .ok ()
  | name :: rest => do
    match ← loadMachine s a name with
    | .error e => return .error e
    | .ok (machine, _) =>
      match listing machine.program with
      | .error i => return .error (withContext (utf8 "format " ++ name) (listingErrorText i))
      | .ok text =>
        s.output text
        executeList s a rest

/-- Prints the forms in files, up to the first error. -/
def executeParse (s : Surroundings m) : List Bytes → m (Except Bytes Unit)
  | [] => return .ok ()
  | name :: rest => do
    let failed (text : Bytes) : m (Except Bytes Unit) := return .error (withContext (utf8 "parse " ++ name) text)
    match ← s.contents name with
    | .error e => failed (withContext FileUse.program.text e.message)
    | .ok text =>
      match Source.readOne [⟨name, text⟩] .form with
      | (_, some e) => failed e.message
      | (x, none) =>
        s.output ((x.map Form.text).getD [] ++ [byte '\n'])
        executeParse s rest

/-- Loads files and says what they hold.  The errors of all of them are collected. -/
def checkFiles (s : Surroundings m) : List Bytes → m (List Bytes)
  | [] => return []
  | name :: rest => do
    match (← Machine.loadFile s.toFileSystem 0 name {}).2 with
    | .error e =>
      let errors ← checkFiles s rest
      return withContext name e.message :: errors
    | .ok machine =>
      s.output (concat [name, ": ok, ", decimal machine.program.size, " instructions, ",
        decimal machine.state.names.length, " registers\n"])
      checkFiles s rest

/-- Does what a command asks for. -/
def execute (s : Surroundings m) (command : Command) (a : Arguments) : m (Except Bytes Unit) := do
  match command with
  | run => executeRun s a
  | list => executeList s a a.plain
  | parse => executeParse s a.plain
  | check =>
    let errors ← checkFiles s a.plain
    return if errors.isEmpty then .ok () else .error (listedErrors errors)

end Command

/-! ## Command lines -/

/-- How the program is used. -/
def usage : Bytes := concat [
  "rms is a register machine simulator\n\n",
  "usage: rms [--v TOPICS] [--log FILE] COMMAND [FLAGS] FILES\n\n",
  "\trun\t[--regs LIST] [--set VALUES] [--print LIST] [--stats] [--coverage] [--profile N] FILE\n",
  "\tlist\t[--regs LIST] FILES\n",
  "\tparse\tFILES\n",
  "\tcheck\tFILES\n"]

/-- A command with its log opened, or the usage if there is no command. -/
def dispatch {m : Type → Type} [Monad m] (s : Surroundings m) (a : Arguments) : m (Except Bytes Unit) := do
  match a.command with
  | none =>
    s.output usage
    return .ok ()
  | some command =>
    if a.truth "help" then
      s.output usage
      return .ok ()
    else
      let log := a.text "log"
      let opened ← if log.isEmpty || log == utf8 "stderr" then pure (.ok ()) else s.create log
      match opened with
      | .error e => return .error (withContext command.name (concat ["before: rms: open log: ", e.message]))
      | .ok _ => return (← command.execute s a).mapError (withContext command.name)

/-- A whole command line: the text of the error if there is one. -/
def mainWith {m : Type → Type} [Monad m] (s : Surroundings m) (arguments : List Bytes) : m (Option Bytes) := do
  match Arguments.read arguments with
  | .error (command, e) => return some (withContext ((command.map Command.name).getD []) e.message)
  | .ok a =>
    match ← dispatch s a with
    | .ok _ => return none
    | .error text => return some text

/-- The line that tells of an error. -/
def errorLine (text : Bytes) : Bytes := concat ["error: ", text, "\n"]

end RegisterMachine
