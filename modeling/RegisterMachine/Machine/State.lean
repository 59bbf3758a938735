import RegisterMachine.Machine.Stack
import RegisterMachine.Machine.Coverage

/-!
# Machine state

Everything about a machine that changes while it runs: registers, stack and statistics.

* `State.read?`, `State.write`: registers by name; `pc` and `flag` are always there.
* `State.allocate?`: a new register.
* `Stats`: the counters that a host asks for, with their wire form.
-/

namespace RegisterMachine

/-- The register that holds the view of what is left to execute. -/
def pcName : Bytes := utf8 "pc"

/-- The register that tests write and branches read. -/
def flagName : Bytes := utf8 "flag"

/-- The changing part of a machine.  `registers` holds the registers other than `pc` and `flag`, in the order of
their allocation; `counts` says how often each instruction was executed. -/
structure State where
  pc : Value := .nil
  flag : Value := .nil
  registers : List (Bytes × Value) := []
  stack : Stack := .reset
  halting : Bool := false
  executed : Nat := 0
  counts : Array Nat := #[]
  coverage : Coverage := {}

/-- The list with the value of every entry named `name` replaced. -/
def setEntry (name : Bytes) (v : Value) (entries : List (Bytes × Value)) : List (Bytes × Value) :=
  entries.map fun e => if e.1 == name then (e.1, v) else e

namespace State

/-- The value of a register, if there is one of that name. -/
def read? (s : State) (name : Bytes) : Option Value :=
  if name == pcName then some s.pc
  else if name == flagName then some s.flag
  else s.registers.lookup name

/-- A register of that name exists. -/
def has (s : State) (name : Bytes) : Bool := (s.read? name).isSome

/-- A new value for a register; without such a register nothing changes. -/
def write (s : State) (name : Bytes) (v : Value) : State :=
  if name == pcName then { s with pc := v }
  else if name == flagName then { s with flag := v }
  else { s with registers := setEntry name v s.registers }

/-- A new register that holds `nil`, unless the name is taken. -/
def allocate? (s : State) (name : Bytes) : Option State :=
  if s.has name then none else some { s with registers := s.registers ++ [(name, .nil)] }

/-- The names of the registers other than `pc` and `flag`, in allocation order. -/
def names (s : State) : List Bytes := s.registers.map (·.1)

/-- `pc` as a view. -/
def view? (s : State) : Option View :=
  match s.pc with
  | .view v => some v
  | _ => none

/-- Nothing is left to execute. -/
def halted (s : State) : Bool := s.view?.any View.isEmpty

/-- Counters and coverage cleared; the stack keeps its values. -/
def resetStats (s : State) : State :=
  { s with
    executed := 0
    stack := s.stack.resetStats
    coverage := s.coverage.reset
    counts := s.counts.map fun _ => 0 }

end State

/-- Execution counters. -/
structure Stats where
  executed : Nat
  pushes : Nat
  maxDepth : Nat
  depth : Nat
  covered : Nat
  total : Nat
deriving DecidableEq, Repr

namespace Stats

/-- The counters with their names. -/
def fields (s : Stats) : List (Bytes × Nat) :=
  [("executed", s.executed), ("pushes", s.pushes), ("max_depth", s.maxDepth), ("depth", s.depth),
    ("covered", s.covered), ("total", s.total)]

/-- Appends the encoded counters to a buffer: a map from names to numbers. -/
def appendTo (s : Stats) (b : Bytes) : Bytes :=
  s.fields.foldl (fun b f => b ++ Wire.string f.1 ++ Wire.number f.2) (b ++ Wire.mapOf s.fields.length)

/-- The encoded counters. -/
def wire (s : Stats) : Bytes := s.appendTo []

end Stats

end RegisterMachine
