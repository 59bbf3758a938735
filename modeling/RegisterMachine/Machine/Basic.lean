import RegisterMachine.Machine.Execution
import RegisterMachine.Program.Assembler

/-!
# Machines

A machine is an assembled program with its operations, its state and its console.

* `Machine.create`: allocates registers and assembles a controller.
* `Machine.step`: executes one instruction.
* `Machine.run`: executes at most a given number of instructions.
* `Machine.install`, `Machine.halt`, `Machine.rewind`, …: what a host does between steps.
-/

namespace RegisterMachine

/-- A machine.  Operations are looked up among the installed ones, then in the table of the host, then among the
built-in ones. -/
structure Machine where
  program : Program
  host : Table := {}
  installed : Table := {}
  world : World := {}

/-- The built-in operation that empties the stack and clears its statistics. -/
def emptyStack : Operation := fun _ w => (.value .nil, w.setStack .reset)

/-- The operations that every machine has. -/
def Table.builtin : Table := ⟨[("initialize", emptyStack)]⟩

namespace Machine

/-- The state of a machine. -/
def state (m : Machine) : State := m.world.state

/-- The machine in another state. -/
def withState (m : Machine) (s : State) : Machine := { m with world := { m.world with state := s } }

/-- The machine with another console. -/
def withConsole (m : Machine) (c : Console) : Machine := { m with world := { m.world with console := c } }

/-- The operation that a name stands for. -/
def find (m : Machine) (name : Bytes) : Option Operation :=
  ((m.installed.lookup name).or (m.host.lookup name)).or (Table.builtin.lookup name)

/-! ## Creation -/

/-- A state with these registers; a name that is taken is an error. -/
def allocateAll (s : State) : List Bytes → Except AssemblyError State
  | [] => .ok s
  | name :: rest =>
    match s.allocate? name with
    | some s => allocateAll s rest
    | none => .error { cause := .duplicateRegister name }

/-- A machine with these registers for a controller.  `serial` tells its program from those of other machines. -/
def create (serial : Nat) (registers : List Bytes) (host : Table) (console : Console) (controller : Form) :
    Except AssemblyError Machine := do
  let s ← allocateAll {} registers
  let program ← Program.assemble serial controller
  let counts := Array.replicate program.size 0
  return { program, host, world := ⟨{ s with pc := .view program.entry, counts }, console⟩ }

/-! ## Stepping -/

/-- How a step ends. -/
inductive Step where
  | advanced
  /-- There was nothing left to execute. -/
  | halted
  | failed (e : RuntimeError)

/-- The bookkeeping after a successful instruction: counters, and the end of the program if it asked to halt. -/
def settle (program : Program) (index : Nat) (s : State) : State :=
  { s with
    pc := if s.halting then .view (program.view program.size) else s.pc
    halting := false
    executed := s.executed + 1
    counts := s.counts.modify index (· + 1)
    coverage := s.coverage.set index }

/-- The world with the request to halt withdrawn. -/
def quiet (w : World) : World := { w with state := { w.state with halting := false } }

/-- The end of a step, from the end of the instruction with this index and text. -/
def conclude (m : Machine) (index : Nat) (text : Bytes) : Except Trap Unit × World → Step × Machine
  | (.ok _, w) => (.advanced, { m with world := { w with state := settle m.program index w.state } })
  | (.error e, w) => (.failed (.trapped index text e), { m with world := quiet w })

/-- Executes the instruction that stands at the start of the view `here`. -/
def stepAt (m : Machine) (here : View) (ins : Instruction) : Step × Machine :=
  m.conclude ins.index ins.text (execute m.program m.find here ins.code (quiet m.world))

/-- Executes one instruction. -/
def step (m : Machine) : Step × Machine :=
  match m.state.view? with
  | none => (.failed (.lost m.state.pc), m)
  | some here =>
    if !here.ofProgram m.program.layout then (.failed (.lost m.state.pc), m)
    else match m.program.instructions[here.offset]? with
      | none => (.halted, m)
      | some ins => m.stepAt here ins

/-- How a run ends. -/
inductive Run where
  | halted
  | failed (e : RuntimeError)
  /-- The allowed number of steps was used up. -/
  | unfinished

/-- Executes instructions until nothing is left, one fails, or `limit` of them are done.  The number of completed
steps is given too. -/
def runFrom (done : Nat) : Nat → Machine → Run × Nat × Machine
  | 0, m => (.unfinished, done, m)
  | limit + 1, m =>
    match m.step with
    | (.advanced, m) => runFrom (done + 1) limit m
    | (.halted, m) => (.halted, done, m)
    | (.failed e, m) => (.failed e, done, m)

/-- Executes at most `limit` instructions and counts them. -/
def run (limit : Nat) (m : Machine) : Run × Nat × Machine := runFrom 0 limit m

/-- More steps than any run can take. -/
def endless : Nat := 0x4000000000000000

/-! ## Between steps -/

/-- Adds or replaces an operation; it goes before those of the host. -/
def install (m : Machine) (name : Bytes) (op : Operation) : Machine :=
  { m with installed := m.installed.insert name op }

/-- Takes an installed operation away. -/
def uninstall (m : Machine) (name : Bytes) : Machine := { m with installed := m.installed.erase name }

/-- Asks the machine to stop after the instruction that is running. -/
def halt (m : Machine) : Machine := m.withState { m.state with halting := true }

/-- Points `pc` at the first instruction. -/
def rewind (m : Machine) : Machine :=
  m.withState { m.state with halting := false, pc := .view m.program.entry }

/-- Clears counters and coverage. -/
def resetStats (m : Machine) : Machine := m.withState m.state.resetStats

/-- The execution counters. -/
def stats (m : Machine) : Stats where
  executed := m.state.executed
  pushes := m.state.stack.pushes
  maxDepth := m.state.stack.maxDepth
  depth := m.state.stack.depth
  covered := m.state.coverage.size
  total := m.program.size

/-- Writes values to registers in the given order, up to the first name without a register. -/
def writeAll (m : Machine) : List (Bytes × Value) → Except Bytes Unit × Machine
  | [] => (.ok (), m)
  | (name, v) :: rest =>
    if m.state.has name then writeAll (m.withState (m.state.write name v)) rest else (.error name, m)

/-- Writes initial values to registers in name order, up to the first name without a register. -/
def preset (m : Machine) (values : List (Bytes × Value)) : Except Bytes Unit × Machine :=
  m.writeAll (values.mergeSort fun a b => bytesLe a.1 b.1)

end Machine

end RegisterMachine
