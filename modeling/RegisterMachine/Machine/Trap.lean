import RegisterMachine.Operation.Basic

/-!
# Traps

Why an instruction could not complete, and the error that a step reports for it.
-/

namespace RegisterMachine

/-- Why an instruction could not complete. -/
inductive Trap where
  | unknownRegister (name : Bytes)
  | stackUnderflow (register : Bytes)
  | badJump (register : Bytes) (v : Value)
  | operationNotFound (name : Bytes)
  | operand (operation : Bytes) (index : Nat) (inner : Trap)
  | failed (operation : Bytes) (f : Failure)
  | panicked (operation : Bytes) (p : Panic)
  /-- The code of the instruction was cleared. -/
  | noCode
  /-- The value of an assignment was taken away. -/
  | noValue

/-- The text of an unknown register. -/
def unknownRegisterText (name : Bytes) : Bytes := concat ["register ", name, ": unknown register"]

/-- The text of a trap. -/
def Trap.message : Trap → Bytes
  | unknownRegister name => unknownRegisterText name
  | stackUnderflow register => concat ["restore ", register, ": stack underflow"]
  | badJump register v => concat ["register ", register, " holds ", v.plain, ": bad jump target"]
  | operationNotFound name => concat ["op ", name, ": operation not found"]
  | operand op index inner => concat ["op ", op, " arg ", decimal index, ": ", inner.message]
  | failed op f => concat ["op ", op, ": ", f.message]
  | panicked op p => concat ["operation ", op, " panicked: ", p.text]
  | noCode => "<nil>: unknown instruction"
  | noValue => "<nil>: bad expression"

/-- Why a step failed. -/
inductive RuntimeError where
  /-- `pc` holds no view of the machine's own program. -/
  | lost (pc : Value)
  /-- An instruction, by its index and text, could not complete. -/
  | trapped (index : Nat) (text : Bytes) (trap : Trap)

namespace RuntimeError

/-- The index of the instruction that failed, or -1. -/
def index : RuntimeError → Int
  | lost _ => -1
  | trapped i _ _ => i

/-- The text of the instruction that failed. -/
def instruction : RuntimeError → Bytes
  | lost _ => []
  | trapped _ text _ => text

/-- What went wrong, without the instruction. -/
def reason : RuntimeError → Bytes
  | lost pc => concat ["pc holds ", pc.kindName, ": bad jump target"]
  | trapped _ _ trap => trap.message

/-- The text of a runtime error. -/
def message (e : RuntimeError) : Bytes :=
  concat ["instruction ", decimalInt e.index, " ", e.instruction, ": ", e.reason]

end RuntimeError

end RegisterMachine
