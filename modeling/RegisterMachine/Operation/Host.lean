import RegisterMachine.Operation.Basic

/-!
# Operations of a host

Small operations with which a host steers a machine or stands in for a device: constants, failures, breakdowns, and
operations that act on the machine they are called by.
-/

namespace RegisterMachine.Host

/-- The text of a breakdown without a value. -/
def emptyPanicText : Bytes := "panic called with nil argument (use GODEBUG=panicnil=1 to disable)"

/-- The text of an access to the first of no arguments. -/
def noFirstText : Bytes := "runtime error: index out of range [0] with length 0"

/-- The first argument; without one the operation breaks down. -/
def first : List Value → Except Panic Value
  | [] => .error (.runtime noFirstText)
  | v :: _ => .ok v

/-- An operation that always gives the same value. -/
def const (v : Value) : Operation := fun _ w => (.value v, w)

/-- Gives its first argument back. -/
def identity : Operation := fun args w =>
  match first args with
  | .ok v => (.value v, w)
  | .error p => (.panic p, w)

/-- Gives its arguments back as a list. -/
def arguments : Operation := fun args w => (.value (.list args), w)

/-- Fails. -/
def fail (e : HostError) : Operation := fun _ w => (.failure (.host e), w)

/-- Breaks down with a value. -/
def breakDown (v : Value) : Operation := fun _ w =>
  match v with
  | .nil => (.panic (.runtime emptyPanicText), w)
  | v => (.panic (.value v), w)

/-- Breaks down with an error. -/
def breakDownWith (e : HostError) : Operation := fun _ w => (.panic (.host e), w)

/-- The world with a request to halt. -/
def halting (w : World) : World := { w with state := { w.state with halting := true } }

/-- Asks the machine to halt. -/
def halt : Operation := fun _ w => (.value .nil, halting w)

/-- Asks the machine to halt and then fails. -/
def haltAndFail (e : HostError) : Operation := fun _ w => (.failure (.host e), halting w)

/-- Pushes its first argument on the machine's stack. -/
def push : Operation := fun args w =>
  match first args with
  | .ok v => (.value .nil, { w with state := { w.state with stack := w.state.stack.push v } })
  | .error p => (.panic p, w)

/-- Points `pc` at the start of the program. -/
def rewind (entry : View) : Operation := fun _ w =>
  (.value .nil, { w with state := { w.state with halting := false, pc := .view entry } })

/-- The depth of the machine's stack. -/
def depth : Operation := fun _ w => (.value (.int (Int64.ofNat w.state.stack.depth)), w)

end RegisterMachine.Host
